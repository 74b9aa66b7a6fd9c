import Lox.Proofs.Grammar.Ebnf

/-!
# Readings

A reading ties a stretch of tokens to the tree it stands for, and the number of the first
reference in it to the number behind its last one.  Readings of expressions are ranked: rank `0`
is an assignment, ranks `1` to `6` are the levels of operators between two operands, loosest
first, then come signs, calls and primaries.  Operators of one level lean to the left, so the
reading of a left operand has the rank of the whole and that of a right operand a tighter one.

A reading of a statement knows whether it is open at its end, that is, whether an `else` behind it
would belong to it.  A branch in front of an `else` is never open.  So a stretch of tokens has one
reading, although the rules of the grammar allow several.
-/

namespace Lox
namespace Grammar

/-- The kinds of the operators on each of the ranks `1` to `6`. -/
def operatorKinds : Nat → List Token.Kind
  | 1 => [.keyword .or]
  | 2 => [.keyword .and]
  | 3 => [.punct .bangEqual, .punct .equalEqual]
  | 4 => [.punct .greater, .punct .greaterEqual, .punct .less, .punct .lessEqual]
  | 5 => [.punct .minus, .punct .plus]
  | 6 => [.punct .star, .punct .slash]
  | _ => []

/-- The node that an operator of the given rank makes. -/
def operatorNode (rank : Nat) (left : Expr) (operator : Token) (right : Expr) : Expr :=
  if rank ≤ 2 then .logical left operator right else .binary left operator right

/-- The kinds of the signs in front of an operand. -/
def signKinds : List Token.Kind :=
  [.punct .bang, .punct .minus]

mutual

/-- `ExprReads rank i ts e j`: the tokens `ts` stand for `e` at the given rank, and the references
in it are numbered from `i` up to, but not including, `j`. -/
inductive ExprReads : Nat → Nat → List Token → Expr → Nat → Prop where
  | literal (i : Nat) (t : Token) (value : Literal) :
      literalOf? t = some value →
      ExprReads 9 i [t] (.literal value) i
  | var (i : Nat) (name : Token) :
      name.kind = .identifier →
      ExprReads 9 i [name] (.var i name) (i + 1)
  | this (i : Nat) (keyword : Token) :
      keyword.kind = .keyword .this →
      ExprReads 9 i [keyword] (.this i keyword) (i + 1)
  | super (i : Nat) (keyword dot method : Token) :
      keyword.kind = .keyword .super →
      dot.kind = .punct .dot →
      method.kind = .identifier →
      ExprReads 9 i [keyword, dot, method] (.super i keyword method) (i + 1)
  | grouping {i j : Nat} {ts : List Token} {e : Expr} (left right : Token) :
      left.kind = .punct .leftParen →
      ExprReads 0 i ts e j →
      right.kind = .punct .rightParen →
      ExprReads 9 i (left :: (ts ++ [right])) (.grouping e) j
  | callNone {i j : Nat} {xs : List Token} {callee : Expr} (left right : Token) :
      ExprReads 8 i xs callee j →
      left.kind = .punct .leftParen →
      right.kind = .punct .rightParen →
      ExprReads 8 i (xs ++ [left, right]) (.call callee right []) j
  | call {i k j : Nat} {xs ys : List Token} {callee : Expr} {arguments : List Expr}
      (left right : Token) :
      ExprReads 8 i xs callee k →
      left.kind = .punct .leftParen →
      ArgumentsRead k ys arguments j →
      arguments.length ≤ Parser.maxArity →
      right.kind = .punct .rightParen →
      ExprReads 8 i (xs ++ left :: (ys ++ [right])) (.call callee right arguments) j
  | get {i j : Nat} {xs : List Token} {object : Expr} (dot name : Token) :
      ExprReads 8 i xs object j →
      dot.kind = .punct .dot →
      name.kind = .identifier →
      ExprReads 8 i (xs ++ [dot, name]) (.get object name) j
  | unary {i j : Nat} {ts : List Token} {e : Expr} (sign : Token) :
      sign.kind ∈ signKinds →
      ExprReads 7 i ts e j →
      ExprReads 7 i (sign :: ts) (.unary sign e) j
  | operation {rank i k j : Nat} {xs ys : List Token} {left right : Expr} (operator : Token) :
      ExprReads rank i xs left k →
      operator.kind ∈ operatorKinds rank →
      ExprReads (rank + 1) k ys right j →
      ExprReads rank i (xs ++ operator :: ys) (operatorNode rank left operator right) j
  | assign {i j : Nat} {ts : List Token} {value : Expr} (name equals : Token) :
      name.kind = .identifier →
      equals.kind = .punct .equal →
      ExprReads 0 (i + 1) ts value j →
      ExprReads 0 i (name :: equals :: ts) (.assign i name value) j
  | set {i k j : Nat} {xs ts : List Token} {object value : Expr} (dot name equals : Token) :
      ExprReads 8 i xs object k →
      dot.kind = .punct .dot →
      name.kind = .identifier →
      equals.kind = .punct .equal →
      ExprReads 0 k ts value j →
      ExprReads 0 i (xs ++ dot :: name :: equals :: ts) (.set object name value) j
  | looser {rank i j : Nat} {ts : List Token} {e : Expr} :
      rank < 9 →
      ExprReads (rank + 1) i ts e j →
      ExprReads rank i ts e j

/-- Tokens that stand for one or more expressions with commas between them. -/
inductive ArgumentsRead : Nat → List Token → List Expr → Nat → Prop where
  | one {i j : Nat} {ts : List Token} {e : Expr} :
      ExprReads 0 i ts e j →
      ArgumentsRead i ts [e] j
  | more {i k j : Nat} {xs ys : List Token} {e : Expr} {rest : List Expr} (comma : Token) :
      ExprReads 0 i xs e k →
      comma.kind = .punct .comma →
      ArgumentsRead k ys rest j →
      ArgumentsRead i (xs ++ comma :: ys) (e :: rest) j

end

/-- Tokens that stand for one or more names with commas between them. -/
inductive NamesRead : List Token → List Token → Prop where
  | one (name : Token) :
      name.kind = .identifier →
      NamesRead [name] [name]
  | more {ts rest : List Token} (name comma : Token) :
      name.kind = .identifier →
      comma.kind = .punct .comma →
      NamesRead ts rest →
      NamesRead (name :: comma :: ts) (name :: rest)

/-- Tokens that stand for the parameters between two parentheses. -/
inductive ParamsRead : List Token → List Token → Prop where
  | none : ParamsRead [] []
  | some {ts params : List Token} :
      NamesRead ts params →
      params.length ≤ Parser.maxArity →
      ParamsRead ts params

/-- Tokens that stand for an expression that may be missing. -/
inductive OptionReads : Nat → List Token → Option Expr → Nat → Prop where
  | none (i : Nat) : OptionReads i [] none i
  | some {i j : Nat} {ts : List Token} {e : Expr} :
      ExprReads 0 i ts e j →
      OptionReads i ts (some e) j

/-- Tokens that stand for a variable declaration. -/
inductive VariableReads : Nat → List Token → Stmt → Nat → Prop where
  | plain (i : Nat) (keyword name semicolon : Token) :
      keyword.kind = .keyword .var →
      name.kind = .identifier →
      semicolon.kind = .punct .semicolon →
      VariableReads i [keyword, name, semicolon] (.var name none) i
  | initialized {i j : Nat} {ts : List Token} {e : Expr}
      (keyword name equals semicolon : Token) :
      keyword.kind = .keyword .var →
      name.kind = .identifier →
      equals.kind = .punct .equal →
      ExprReads 0 i ts e j →
      semicolon.kind = .punct .semicolon →
      VariableReads i (keyword :: name :: equals :: (ts ++ [semicolon])) (.var name (some e)) j

/-- Tokens that stand for an expression statement. -/
inductive ExpressionStatementReads : Nat → List Token → Stmt → Nat → Prop where
  | mk {i j : Nat} {ts : List Token} {e : Expr} (semicolon : Token) :
      ExprReads 0 i ts e j →
      semicolon.kind = .punct .semicolon →
      ExpressionStatementReads i (ts ++ [semicolon]) (.expression e) j

/-- Tokens that stand for the first clause of a `for` loop. -/
inductive FirstReads : Nat → List Token → Option Stmt → Nat → Prop where
  | none (i : Nat) (semicolon : Token) :
      semicolon.kind = .punct .semicolon →
      FirstReads i [semicolon] none i
  | var {i j : Nat} {ts : List Token} {s : Stmt} :
      VariableReads i ts s j →
      FirstReads i ts (some s) j
  | expression {i j : Nat} {ts : List Token} {s : Stmt} :
      ExpressionStatementReads i ts s j →
      FirstReads i ts (some s) j

/-- Tokens that stand for what a class is derived from. -/
inductive ParentReads : Nat → List Token → Option Expr → Nat → Prop where
  | none (i : Nat) : ParentReads i [] none i
  | some (i : Nat) (less name : Token) :
      less.kind = .punct .less →
      name.kind = .identifier →
      ParentReads i [less, name] (some (.var i name)) (i + 1)

mutual

/-- `StmtReads isOpen i ts s j`: the tokens `ts` stand for the statement `s`, and `isOpen` tells
whether it ends in a conditional without `else`. -/
inductive StmtReads : Bool → Nat → List Token → Stmt → Nat → Prop where
  | expression {i j : Nat} {ts : List Token} {s : Stmt} :
      ExpressionStatementReads i ts s j →
      StmtReads false i ts s j
  | print {i j : Nat} {ts : List Token} {e : Expr} (keyword semicolon : Token) :
      keyword.kind = .keyword .print →
      ExprReads 0 i ts e j →
      semicolon.kind = .punct .semicolon →
      StmtReads false i (keyword :: (ts ++ [semicolon])) (.print e) j
  | ret {i j : Nat} {ts : List Token} {value : Option Expr} (keyword semicolon : Token) :
      keyword.kind = .keyword .return_ →
      OptionReads i ts value j →
      semicolon.kind = .punct .semicolon →
      StmtReads false i (keyword :: (ts ++ [semicolon])) (.ret keyword value) j
  | block {i j : Nat} {ts : List Token} {body : List Stmt} :
      BlockReads i ts body j →
      StmtReads false i ts (.block body) j
  | ifThen {isOpen : Bool} {i k j : Nat} {cs ts : List Token} {condition : Expr} {s : Stmt}
      (keyword left right : Token) :
      keyword.kind = .keyword .if_ →
      left.kind = .punct .leftParen →
      ExprReads 0 i cs condition k →
      right.kind = .punct .rightParen →
      StmtReads isOpen k ts s j →
      StmtReads true i (keyword :: left :: (cs ++ right :: ts)) (.ifThen condition s) j
  | ifElse {isOpen : Bool} {i k l j : Nat} {cs xs ys : List Token} {condition : Expr}
      {s t : Stmt} (keyword left right other : Token) :
      keyword.kind = .keyword .if_ →
      left.kind = .punct .leftParen →
      ExprReads 0 i cs condition k →
      right.kind = .punct .rightParen →
      StmtReads false k xs s l →
      other.kind = .keyword .else_ →
      StmtReads isOpen l ys t j →
      StmtReads isOpen i (keyword :: left :: (cs ++ right :: (xs ++ other :: ys)))
        (.ifElse condition s t) j
  | loop {isOpen : Bool} {i k j : Nat} {cs ts : List Token} {condition : Expr} {s : Stmt}
      (keyword left right : Token) :
      keyword.kind = .keyword .while_ →
      left.kind = .punct .leftParen →
      ExprReads 0 i cs condition k →
      right.kind = .punct .rightParen →
      StmtReads isOpen k ts s j →
      StmtReads isOpen i (keyword :: left :: (cs ++ right :: ts)) (.loop condition s) j
  | forLoop {isOpen : Bool} {i k l m j : Nat} {fs cs ns ts : List Token} {first : Option Stmt}
      {condition increment : Option Expr} {s : Stmt} (keyword left semicolon right : Token) :
      keyword.kind = .keyword .for_ →
      left.kind = .punct .leftParen →
      FirstReads i fs first k →
      OptionReads k cs condition l →
      semicolon.kind = .punct .semicolon →
      OptionReads l ns increment m →
      right.kind = .punct .rightParen →
      StmtReads isOpen m ts s j →
      StmtReads isOpen i (keyword :: left :: (fs ++ (cs ++ semicolon :: (ns ++ right :: ts))))
        (forLoop first condition increment s) j

/-- Tokens that stand for a declaration or statement. -/
inductive DeclReads : Nat → List Token → Stmt → Nat → Prop where
  | classDecl {i k j : Nat} {ps ms : List Token} {parent : Option Expr}
      {methods : List FunctionDecl} (keyword name left right : Token) :
      keyword.kind = .keyword .class_ →
      name.kind = .identifier →
      ParentReads i ps parent k →
      left.kind = .punct .leftBrace →
      MethodsRead k ms methods j →
      right.kind = .punct .rightBrace →
      DeclReads i (keyword :: name :: (ps ++ left :: (ms ++ [right])))
        (.classDecl name parent methods) j
  | function {i j : Nat} {ts : List Token} {decl : FunctionDecl} (keyword : Token) :
      keyword.kind = .keyword .fun_ →
      FunctionReads i ts decl j →
      DeclReads i (keyword :: ts) (.function decl) j
  | var {i j : Nat} {ts : List Token} {s : Stmt} :
      VariableReads i ts s j →
      DeclReads i ts s j
  | statement {isOpen : Bool} {i j : Nat} {ts : List Token} {s : Stmt} :
      StmtReads isOpen i ts s j →
      DeclReads i ts s j

/-- Tokens that stand for declarations one after the other. -/
inductive DeclsRead : Nat → List Token → List Stmt → Nat → Prop where
  | nil (i : Nat) : DeclsRead i [] [] i
  | cons {i k j : Nat} {xs ys : List Token} {s : Stmt} {rest : List Stmt} :
      DeclReads i xs s k →
      DeclsRead k ys rest j →
      DeclsRead i (xs ++ ys) (s :: rest) j

/-- Tokens that stand for declarations in braces. -/
inductive BlockReads : Nat → List Token → List Stmt → Nat → Prop where
  | mk {i j : Nat} {ts : List Token} {body : List Stmt} (left right : Token) :
      left.kind = .punct .leftBrace →
      DeclsRead i ts body j →
      right.kind = .punct .rightBrace →
      BlockReads i (left :: (ts ++ [right])) body j

/-- Tokens that stand for a function or method. -/
inductive FunctionReads : Nat → List Token → FunctionDecl → Nat → Prop where
  | mk {i j : Nat} {ps ts params : List Token} {body : List Stmt} (name left right : Token) :
      name.kind = .identifier →
      left.kind = .punct .leftParen →
      ParamsRead ps params →
      right.kind = .punct .rightParen →
      BlockReads i ts body j →
      FunctionReads i (name :: left :: (ps ++ right :: ts)) (.mk name params body) j

/-- Tokens that stand for methods one after the other. -/
inductive MethodsRead : Nat → List Token → List FunctionDecl → Nat → Prop where
  | nil (i : Nat) : MethodsRead i [] [] i
  | cons {i k j : Nat} {xs ys : List Token} {decl : FunctionDecl} {rest : List FunctionDecl} :
      FunctionReads i xs decl k →
      MethodsRead k ys rest j →
      MethodsRead i (xs ++ ys) (decl :: rest) j

end

end Grammar
end Lox
