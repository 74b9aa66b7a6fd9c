import Lox.Grammar.Expression

/-!
# The grammar of statements

    program     = declaration*
    declaration = "class" NAME ("<" NAME)? "{" function* "}"
                | "fun" function
                | "var" NAME ("=" expression)? ";"
                | statement
    function    = NAME "(" parameters? ")" "{" declaration* "}"
    statement   = "for" "(" first expression? ";" expression? ")" statement
                | "if" "(" expression ")" statement ("else" statement)?
                | "while" "(" expression ")" statement
                | "return" expression? ";"
                | "{" declaration* "}"
                | "print" expression ";"
                | expression ";"
    first       = ";" | "var" NAME ("=" expression)? ";" | expression ";"

A declaration that fails is reported and left out.  Reading goes on behind the next semicolon or
in front of the next keyword that starts a declaration or statement.
-/

namespace Lox
namespace Grammar

open Lox.Parser

/-- Whether a kind of token starts a declaration or statement of its own. -/
def startsStatement (kind : Token.Kind) : Bool :=
  kind ∈ ([.keyword .class_, .keyword .fun_, .keyword .var, .keyword .for_, .keyword .if_,
    .keyword .while_, .keyword .print, .keyword .return_] : List Token.Kind)

/-- Drops tokens up to a place where a statement can start: in front of a keyword that starts
one, or behind a semicolon. -/
def dropToStatement : List Token → List Token
  | [] => []
  | t :: rest =>
      if startsStatement t.kind then t :: rest
      else if t.kind = .punct .semicolon then rest
      else dropToStatement rest

/-- Drops the token at which a declaration failed, and what belongs to the failed declaration. -/
def dropFailed : List Token → List Token
  | [] => []
  | t :: rest => if t.kind = .punct .semicolon then rest else dropToStatement rest

/-- Catches a failure: reports it, drops what belongs to it, and gives nothing. -/
def recovering (p : Parser Stmt) : Parser (Option Stmt) := fun s =>
  match p s with
  | (.ok a, s) => (.ok (some a), s)
  | (.error e, s) => (.ok none, { s.report e with rest := dropFailed s.rest })

/-- An expression, unless a token of the given kind comes next. -/
def optionalExpression (kind : Token.Kind) : Parser (Option Expr) := do
  if ← check kind then
    return none
  else
    return some (← expression)

/-- Whether a body in braces ends here. -/
def bodyEnds : Parser Bool := do
  if ← atEnd then
    return true
  else
    check (.punct .rightBrace)

/-- `declaration* "}"`, behind the brace that opens a block. -/
def block (declaration : Parser (Option Stmt)) : Parser (List Stmt) := do
  let body ← manyUntil bodyEnds declaration (← remaining)
  let _ ← expect (.punct .rightBrace) .blockEnd
  return body.filterMap id

/-- `NAME "(" parameters? ")" "{" declaration* "}"`. -/
def function (declaration : Parser (Option Stmt)) (sort : FunctionSort) :
    Parser FunctionDecl := do
  let name ← expect .identifier (.functionName sort)
  let _ ← expect (.punct .leftParen) (.parametersStart sort)
  let params ← parenthesized (expect .identifier .parameterName) .tooManyParameters
  let _ ← expect (.punct .rightParen) .parametersEnd
  let _ ← expect (.punct .leftBrace) (.functionBodyStart sort)
  let body ← block declaration
  return .mk name params body

/-- `("<" NAME)?`. -/
def superclass : Parser (Option Expr) := do
  if ← accept (.punct .less) then
    let name ← expect .identifier .superclassName
    return some (.var (← fresh) name)
  else
    return none

/-- `NAME ("<" NAME)? "{" function* "}"`, behind the keyword. -/
def classDeclaration (declaration : Parser (Option Stmt)) : Parser Stmt := do
  let name ← expect .identifier .className
  let parent ← superclass
  let _ ← expect (.punct .leftBrace) .classBodyStart
  let methods ← manyUntil bodyEnds (function declaration .method) (← remaining)
  let _ ← expect (.punct .rightBrace) .classBodyEnd
  return .classDecl name parent methods

/-- `NAME ("=" expression)? ";"`, behind the keyword. -/
def variableDeclaration : Parser Stmt := do
  let name ← expect .identifier .variableName
  let initializer ←
    if ← accept (.punct .equal) then
      pure (some (← expression))
    else
      pure none
  let _ ← expect (.punct .semicolon) .variableEnd
  return .var name initializer

/-- `expression ";"`. -/
def expressionStatement : Parser Stmt := do
  let e ← expression
  let _ ← expect (.punct .semicolon) .statementEnd
  return .expression e

/-- The statement that a `for` loop stands for: the initializer and a `while` loop in a block,
the increment behind the body in a block of its own. -/
def forLoop (initializer : Option Stmt) (condition increment : Option Expr) (body : Stmt) :
    Stmt :=
  let body :=
    match increment with
    | some e => .block [body, .expression e]
    | none => body
  let loop := .loop (condition.getD (.literal (.bool true))) body
  match initializer with
  | some first => .block [first, loop]
  | none => loop

/-- The first clause of a `for` loop. -/
def forInitializer : Parser (Option Stmt) := do
  if ← accept (.punct .semicolon) then
    return none
  else if ← accept (.keyword .var) then
    return some (← variableDeclaration)
  else
    return some (← expressionStatement)

/-- A `for` loop, behind the keyword. -/
def forStatement (statement : Parser Stmt) : Parser Stmt := do
  let _ ← expect (.punct .leftParen) .forStart
  let initializer ← forInitializer
  let condition ← optionalExpression (.punct .semicolon)
  let _ ← expect (.punct .semicolon) .forConditionEnd
  let increment ← optionalExpression (.punct .rightParen)
  let _ ← expect (.punct .rightParen) .forEnd
  let body ← statement
  return forLoop initializer condition increment body

/-- A conditional, behind the keyword. -/
def ifStatement (statement : Parser Stmt) : Parser Stmt := do
  let _ ← expect (.punct .leftParen) .ifStart
  let condition ← expression
  let _ ← expect (.punct .rightParen) .ifEnd
  let thenBranch ← statement
  if ← accept (.keyword .else_) then
    return .ifElse condition thenBranch (← statement)
  else
    return .ifThen condition thenBranch

/-- A `while` loop, behind the keyword. -/
def whileStatement (statement : Parser Stmt) : Parser Stmt := do
  let _ ← expect (.punct .leftParen) .whileStart
  let condition ← expression
  let _ ← expect (.punct .rightParen) .whileEnd
  return .loop condition (← statement)

/-- A return, behind its keyword. -/
def returnStatement (keyword : Token) : Parser Stmt := do
  let value ← optionalExpression (.punct .semicolon)
  let _ ← expect (.punct .semicolon) .returnEnd
  return .ret keyword value

/-- A print statement, behind the keyword. -/
def printStatement : Parser Stmt := do
  let e ← expression
  let _ ← expect (.punct .semicolon) .printEnd
  return .print e

/-- The kinds of tokens that single out a form of statement. -/
def statementKinds : List Token.Kind :=
  [.keyword .for_, .keyword .if_, .keyword .while_, .keyword .return_, .punct .leftBrace,
    .keyword .print]

/-- A statement, over parsers for nested statements and declarations. -/
def statement (nested : Parser Stmt) (declaration : Parser (Option Stmt)) : Parser Stmt := do
  match ← acceptAny? statementKinds with
  | none => expressionStatement
  | some t =>
      match t.kind with
      | .keyword .for_ => forStatement nested
      | .keyword .if_ => ifStatement nested
      | .keyword .while_ => whileStatement nested
      | .keyword .return_ => returnStatement t
      | .punct .leftBrace => return .block (← block declaration)
      | _ => printStatement

/-- A declaration or statement, over parsers for nested ones. -/
def declaration (nested : Parser Stmt) (inner : Parser (Option Stmt)) : Parser (Option Stmt) :=
  recovering do
    if ← accept (.keyword .class_) then
      classDeclaration inner
    else if ← accept (.keyword .fun_) then
      return .function (← function inner .function)
    else if ← accept (.keyword .var) then
      variableDeclaration
    else
      statement nested inner

mutual

/-- A statement nested less than `depth` deep. -/
def statementWithin : Nat → Parser Stmt
  | 0 => fail .expression
  | depth + 1 => fun s => statement (statementWithin depth) (declarationWithin depth) s

/-- A declaration nested less than `depth` deep. -/
def declarationWithin : Nat → Parser (Option Stmt)
  | 0 => recovering (fail .expression)
  | depth + 1 => fun s => declaration (statementWithin depth) (declarationWithin depth) s

end

/-- A program: declarations up to the end of the text. -/
def program : Parser (List Stmt) := do
  let count ← remaining
  let declarations ← manyUntil atEnd (declarationWithin (count + 1)) count
  return declarations.filterMap id

/-- Reads a whole token list as a program. -/
def readProgram (tokens : List Token) (endLine : Nat) : Parse (List Stmt) :=
  match program ⟨tokens, endLine, 0, []⟩ with
  | (.ok statements, s) => ⟨statements, s.errors, s.nextId⟩
  | (.error e, s) => ⟨[], (s.report e).errors, s.nextId⟩

end Grammar
end Lox
