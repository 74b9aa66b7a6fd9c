import Lox.Grammar.Parser

/-!
# The grammar of expressions

    expression  = assignment
    assignment  = (call ".")? NAME "=" assignment | disjunction
    disjunction = conjunction ("or" conjunction)*
    conjunction = equality ("and" equality)*
    equality    = comparison (("!=" | "==") comparison)*
    comparison  = term ((">" | ">=" | "<" | "<=") term)*
    term        = factor (("-" | "+") factor)*
    factor      = unary (("*" | "/") unary)*
    unary       = ("!" | "-")* call
    call        = primary ("(" arguments? ")" | "." NAME)*
    primary     = NUMBER | STRING | "true" | "false" | "null" | "this" | NAME
                | "(" expression ")" | "super" "." NAME

Each rule is a parser over a parser for nested expressions.  Nested expressions start behind at
least one token, so nesting is never deeper than the token list is long.
-/

namespace Lox
namespace Grammar

open Lox.Parser

/-- Reads further operators of one level with their right operands, at most `count` of them. -/
def joinLeft (kinds : List Token.Kind) (join : Expr → Token → Expr → Expr)
    (operand : Parser Expr) : Nat → Expr → Parser Expr
  | 0, left => pure left
  | count + 1, left => do
      match ← acceptAny? kinds with
      | none => return left
      | some operator =>
          let right ← operand
          joinLeft kinds join operand count (join left operator right)

/-- Reads operands with operators of one level between them, and joins them to the left. -/
def leftAssociative (kinds : List Token.Kind) (join : Expr → Token → Expr → Expr)
    (operand : Parser Expr) : Parser Expr := do
  let left ← operand
  joinLeft kinds join operand (← remaining) left

/-- `super "." NAME`, behind the keyword. -/
def superAccess (keyword : Token) : Parser Expr := do
  let _ ← expect (.punct .dot) .superDot
  let method ← expect .identifier .superMethod
  return .super (← fresh) keyword method

/-- `"(" expression ")"`, behind the parenthesis. -/
def grouped (expression : Parser Expr) : Parser Expr := do
  let inner ← expression
  let _ ← expect (.punct .rightParen) .groupingEnd
  return .grouping inner

/-- The literal that a token stands for, if it is one. -/
def literalOf? (t : Token) : Option Literal :=
  match t.kind with
  | .keyword .false_ => some (.bool false)
  | .keyword .true_ => some (.bool true)
  | .keyword .null => some .nil
  | _ => t.literal?

/-- The kinds of tokens that can start a primary expression. -/
def primaryKinds : List Token.Kind :=
  [.keyword .false_, .keyword .true_, .keyword .null, .number, .string, .identifier,
    .keyword .this, .keyword .super, .punct .leftParen]

/-- Literals, references and parenthesized expressions. -/
def primary (expression : Parser Expr) : Parser Expr := do
  match ← acceptAny? primaryKinds with
  | none => fail .expression
  | some t =>
      match t.kind with
      | .identifier => return .var (← fresh) t
      | .keyword .this => return .this (← fresh) t
      | .keyword .super => superAccess t
      | .punct .leftParen => grouped expression
      | _ => return .literal ((literalOf? t).getD .nil)

/-- `arguments? ")"`, behind the parenthesis that opens a call. -/
def finishCall (expression : Parser Expr) (callee : Expr) : Parser Expr := do
  let arguments ← parenthesized expression .tooManyArguments
  let paren ← expect (.punct .rightParen) .argumentsEnd
  return .call callee paren arguments

/-- Reads calls and property names behind an expression, at most `count` of them. -/
def suffixes (expression : Parser Expr) : Nat → Expr → Parser Expr
  | 0, e => pure e
  | count + 1, e => do
      if ← accept (.punct .leftParen) then
        suffixes expression count (← finishCall expression e)
      else if ← accept (.punct .dot) then
        let name ← expect .identifier .propertyName
        suffixes expression count (.get e name)
      else
        return e

/-- A primary expression with its calls and property names. -/
def call (expression : Parser Expr) : Parser Expr := do
  let e ← primary expression
  suffixes expression (← remaining) e

/-- Reads signs in front of an operand, at most `count` of them. -/
def signs : Nat → Parser (List Token)
  | 0 => pure []
  | count + 1 => do
      match ← acceptAny? [.punct .bang, .punct .minus] with
      | none => return []
      | some sign => return sign :: (← signs count)

/-- A call with the signs in front of it. -/
def unary (expression : Parser Expr) : Parser Expr := do
  let operators ← signs (← remaining)
  let operand ← call expression
  return operators.foldr .unary operand

/-- Products and quotients. -/
def factor (expression : Parser Expr) : Parser Expr :=
  leftAssociative [.punct .star, .punct .slash] .binary (unary expression)

/-- Sums and differences. -/
def term (expression : Parser Expr) : Parser Expr :=
  leftAssociative [.punct .minus, .punct .plus] .binary (factor expression)

/-- Comparisons by size. -/
def comparison (expression : Parser Expr) : Parser Expr :=
  leftAssociative [.punct .greater, .punct .greaterEqual, .punct .less, .punct .lessEqual]
    .binary (term expression)

/-- Comparisons for equality. -/
def equality (expression : Parser Expr) : Parser Expr :=
  leftAssociative [.punct .bangEqual, .punct .equalEqual] .binary (comparison expression)

/-- Operands of `and`. -/
def conjunction (expression : Parser Expr) : Parser Expr :=
  leftAssociative [.keyword .and] .logical (equality expression)

/-- Operands of `or`. -/
def disjunction (expression : Parser Expr) : Parser Expr :=
  leftAssociative [.keyword .or] .logical (conjunction expression)

/-- Turns the left side of an equals sign into an assignment.  A left side that cannot be
assigned to is reported and stands for the whole. -/
def assignTo (target : Expr) (equals : Token) (value : Expr) : Parser Expr :=
  match target with
  | .var id name => return .assign id name value
  | .get object name => return .set object name value
  | other => do
      report (.token equals) .assignmentTarget
      return other

/-- An assignment, or a disjunction alone. -/
def assignment (expression : Parser Expr) : Parser Expr := do
  let target ← disjunction expression
  match ← accept? (.punct .equal) with
  | none => return target
  | some equals =>
      let value ← expression
      assignTo target equals value

/-- An expression nested less than `depth` deep. -/
def expressionWithin : Nat → Parser Expr
  | 0 => fail .expression
  | depth + 1 => fun s => assignment (expressionWithin depth) s

/-- An expression. -/
def expression : Parser Expr := do
  expressionWithin ((← remaining) + 1)

/-- An expression that no token follows. -/
def loneExpression : Parser Expr := do
  let e ← expression
  if ← atEnd then
    return e
  else
    fail .expressionEnd

/-- Reads a whole token list as one expression. -/
def readExpression (tokens : List Token) (endLine : Nat) : Parse (Option Expr) :=
  match loneExpression ⟨tokens, endLine, 0, []⟩ with
  | (.ok e, s) => ⟨some e, s.errors, s.nextId⟩
  | (.error e, s) => ⟨none, (s.report e).errors, s.nextId⟩

end Grammar
end Lox
