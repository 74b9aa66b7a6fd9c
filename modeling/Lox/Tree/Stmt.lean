import Lox.Tree.Expr

/-!
# Statements

Statement trees.  There is no node for a `for` loop: it is read as a `while` loop inside blocks.
-/

namespace Lox

mutual

/-- A statement or declaration. -/
inductive Stmt where
  | expression (value : Expr)
  | print (value : Expr)
  | var (name : Token) (initializer : Option Expr)
  | block (body : List Stmt)
  | ifThen (condition : Expr) (thenBranch : Stmt)
  | ifElse (condition : Expr) (thenBranch elseBranch : Stmt)
  | loop (condition : Expr) (body : Stmt)
  | function (decl : FunctionDecl)
  | ret (keyword : Token) (value : Option Expr)
  | classDecl (name : Token) (superclass : Option Expr) (methods : List FunctionDecl)

/-- A function or method as it is declared. -/
inductive FunctionDecl where
  | mk (name : Token) (params : List Token) (body : List Stmt)

end

namespace FunctionDecl

/-- The name token of a declaration. -/
def name : FunctionDecl → Token
  | .mk name _ _ => name

/-- The parameters of a declaration. -/
def params : FunctionDecl → List Token
  | .mk _ params _ => params

/-- The statements a declared function runs. -/
def body : FunctionDecl → List Stmt
  | .mk _ _ body => body

/-- How many arguments a declared function takes. -/
def arity (decl : FunctionDecl) : Nat :=
  decl.params.length

end FunctionDecl

namespace Stmt

/-- Whether two optional expressions agree in everything. -/
def sameOption : Option Expr → Option Expr → Bool
  | none, none => true
  | some a, some b => a.same b
  | _, _ => false

mutual

/-- Whether two statements agree in everything, numbers and tokens included. -/
def same : Stmt → Stmt → Bool
  | .expression a, .expression b => a.same b
  | .print a, .print b => a.same b
  | .var n a, .var m b => n = m && sameOption a b
  | .block as, .block bs => sameAll as bs
  | .ifThen c a, .ifThen d b => c.same d && same a b
  | .ifElse c a x, .ifElse d b y => c.same d && same a b && same x y
  | .loop c a, .loop d b => c.same d && same a b
  | .function f, .function g => sameFunction f g
  | .ret k a, .ret l b => k = l && sameOption a b
  | .classDecl n s fs, .classDecl m t gs => n = m && sameOption s t && sameFunctions fs gs
  | _, _ => false

/-- Whether two lists of statements agree in everything. -/
def sameAll : List Stmt → List Stmt → Bool
  | [], [] => true
  | a :: as, b :: bs => same a b && sameAll as bs
  | _, _ => false

/-- Whether two function declarations agree in everything. -/
def sameFunction : FunctionDecl → FunctionDecl → Bool
  | .mk n ps as, .mk m qs bs => n = m && ps = qs && sameAll as bs

/-- Whether two lists of function declarations agree in everything. -/
def sameFunctions : List FunctionDecl → List FunctionDecl → Bool
  | [], [] => true
  | f :: fs, g :: gs => sameFunction f g && sameFunctions fs gs
  | _, _ => false

end

end Stmt

end Lox
