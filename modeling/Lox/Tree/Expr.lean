import Lox.Token.Basic

/-!
# Expressions

Expression trees keep the tokens they were read from, so that diagnostics can point at them.
Every reference to a variable, to `this` or to `super` carries a number of its own, under which
name resolution files what it finds out about it.
-/

namespace Lox

/-- An expression. -/
inductive Expr where
  | literal (value : Literal)
  | grouping (inner : Expr)
  | unary (operator : Token) (right : Expr)
  | binary (left : Expr) (operator : Token) (right : Expr)
  /-- `and` or `or`. -/
  | logical (left : Expr) (operator : Token) (right : Expr)
  | var (id : Nat) (name : Token)
  | assign (id : Nat) (name : Token) (value : Expr)
  /-- A call, with the parenthesis that closes it. -/
  | call (callee : Expr) (paren : Token) (arguments : List Expr)
  | get (object : Expr) (name : Token)
  | set (object : Expr) (name : Token) (value : Expr)
  | this (id : Nat) (keyword : Token)
  | super (id : Nat) (keyword method : Token)

/-- Whether two literals are equal; numbers are compared by their values. -/
def Literal.same : Literal → Literal → Bool
  | .number a, .number b => a == b
  | .string a, .string b => a = b
  | .bool a, .bool b => a = b
  | .nil, .nil => true
  | _, _ => false

namespace Expr

mutual

/-- Whether two expressions agree in everything, numbers and tokens included. -/
def same : Expr → Expr → Bool
  | .literal a, .literal b => a.same b
  | .grouping a, .grouping b => same a b
  | .unary o a, .unary p b => o = p && same a b
  | .binary a o c, .binary b p d => same a b && o = p && same c d
  | .logical a o c, .logical b p d => same a b && o = p && same c d
  | .var i n, .var j m => i = j && n = m
  | .assign i n a, .assign j m b => i = j && n = m && same a b
  | .call a p as, .call b q bs => same a b && p = q && sameAll as bs
  | .get a n, .get b m => same a b && n = m
  | .set a n c, .set b m d => same a b && n = m && same c d
  | .this i k, .this j l => i = j && k = l
  | .super i k n, .super j l m => i = j && k = l && n = m
  | _, _ => false

/-- Whether two lists of expressions agree in everything. -/
def sameAll : List Expr → List Expr → Bool
  | [], [] => true
  | a :: as, b :: bs => same a b && sameAll as bs
  | _, _ => false

end

end Expr

end Lox
