import Lox.Tree.Stmt

/-!
# Trees with other numbers

Every reference in a tree has a number.  A tree is shifted if a fixed amount is added to all of them
and nothing else is changed.
-/

namespace Lox

namespace Expr

mutual

/-- An expression with larger numbers. -/
def shifted (k : Nat) : Expr → Expr
  | .literal value => .literal value
  | .grouping inner => .grouping (shifted k inner)
  | .unary operator right => .unary operator (shifted k right)
  | .binary left operator right => .binary (shifted k left) operator (shifted k right)
  | .logical left operator right => .logical (shifted k left) operator (shifted k right)
  | .var id name => .var (id + k) name
  | .assign id name value => .assign (id + k) name (shifted k value)
  | .call callee paren arguments => .call (shifted k callee) paren (shiftedAll k arguments)
  | .get object name => .get (shifted k object) name
  | .set object name value => .set (shifted k object) name (shifted k value)
  | .this id keyword => .this (id + k) keyword
  | .super id keyword method => .super (id + k) keyword method

/-- Expressions with larger numbers. -/
def shiftedAll (k : Nat) : List Expr → List Expr
  | [] => []
  | e :: rest => shifted k e :: shiftedAll k rest

end

theorem shiftedAll_eq_map (k : Nat) (es : List Expr) :
    shiftedAll k es = es.map (shifted k) := by
  induction es with
  | nil =>
      rfl
  | cons e rest ih =>
      simp only [shiftedAll, ih, List.map_cons]

mutual

@[simp] theorem shifted_zero : ∀ e : Expr, e.shifted 0 = e
  | .literal _ => rfl
  | .grouping inner => by
      simp only [shifted, shifted_zero inner]
  | .unary _ right => by
      simp only [shifted, shifted_zero right]
  | .binary left _ right => by
      simp only [shifted, shifted_zero left, shifted_zero right]
  | .logical left _ right => by
      simp only [shifted, shifted_zero left, shifted_zero right]
  | .var _ _ => rfl
  | .assign _ _ value => by
      simp only [shifted, shifted_zero value, Nat.add_zero]
  | .call callee _ arguments => by
      simp only [shifted, shifted_zero callee, shiftedAll_zero arguments]
  | .get object _ => by
      simp only [shifted, shifted_zero object]
  | .set object _ value => by
      simp only [shifted, shifted_zero object, shifted_zero value]
  | .this _ _ => rfl
  | .super _ _ _ => rfl

@[simp] theorem shiftedAll_zero (es : List Expr) : shiftedAll 0 es = es := by
  cases es with
  | nil =>
      rfl
  | cons e rest =>
      simp only [shiftedAll, shifted_zero e, shiftedAll_zero rest]

end

theorem map_shifted_zero (value : Option Expr) : value.map (shifted 0) = value := by
  cases value <;> simp

section Twice

variable (j k : Nat)

mutual

theorem shifted_shifted : ∀ e : Expr, (e.shifted j).shifted k = e.shifted (j + k)
  | .literal _ => rfl
  | .grouping inner => by
      simp only [shifted, shifted_shifted inner]
  | .unary _ right => by
      simp only [shifted, shifted_shifted right]
  | .binary left _ right => by
      simp only [shifted, shifted_shifted left, shifted_shifted right]
  | .logical left _ right => by
      simp only [shifted, shifted_shifted left, shifted_shifted right]
  | .var _ _ => by
      simp only [shifted, Nat.add_assoc]
  | .assign _ _ value => by
      simp only [shifted, shifted_shifted value, Nat.add_assoc]
  | .call callee _ arguments => by
      simp only [shifted, shifted_shifted callee, shiftedAll_shiftedAll arguments]
  | .get object _ => by
      simp only [shifted, shifted_shifted object]
  | .set object _ value => by
      simp only [shifted, shifted_shifted object, shifted_shifted value]
  | .this _ _ => by
      simp only [shifted, Nat.add_assoc]
  | .super _ _ _ => by
      simp only [shifted, Nat.add_assoc]

theorem shiftedAll_shiftedAll (es : List Expr) :
    shiftedAll k (shiftedAll j es) = shiftedAll (j + k) es := by
  cases es with
  | nil =>
      rfl
  | cons e rest =>
      simp only [shiftedAll, shifted_shifted e, shiftedAll_shiftedAll rest]

end

theorem map_shifted_shifted
    (value : Option Expr) :
    (value.map (shifted j)).map (shifted k) = value.map (shifted (j + k)) := by
  cases value <;> simp [shifted_shifted]

end Twice

end Expr

namespace Stmt

mutual

/-- A statement with larger numbers. -/
def shifted (k : Nat) : Stmt → Stmt
  | .expression e => .expression (e.shifted k)
  | .print e => .print (e.shifted k)
  | .var name initializer => .var name (initializer.map (Expr.shifted k))
  | .block body => .block (shiftedAll k body)
  | .ifThen condition thenBranch => .ifThen (condition.shifted k) (shifted k thenBranch)
  | .ifElse condition thenBranch elseBranch =>
      .ifElse (condition.shifted k) (shifted k thenBranch) (shifted k elseBranch)
  | .loop condition body => .loop (condition.shifted k) (shifted k body)
  | .function decl => .function (shiftedFunction k decl)
  | .ret keyword value => .ret keyword (value.map (Expr.shifted k))
  | .classDecl name superclass methods =>
      .classDecl name (superclass.map (Expr.shifted k)) (shiftedMethods k methods)

/-- Statements with larger numbers. -/
def shiftedAll (k : Nat) : List Stmt → List Stmt
  | [] => []
  | s :: rest => shifted k s :: shiftedAll k rest

/-- A function with larger numbers. -/
def shiftedFunction (k : Nat) : FunctionDecl → FunctionDecl
  | .mk name params body => .mk name params (shiftedAll k body)

/-- Methods with larger numbers. -/
def shiftedMethods (k : Nat) : List FunctionDecl → List FunctionDecl
  | [] => []
  | f :: rest => shiftedFunction k f :: shiftedMethods k rest

end

theorem shiftedAll_eq_map (k : Nat) (body : List Stmt) :
    shiftedAll k body = body.map (shifted k) := by
  induction body with
  | nil =>
      rfl
  | cons s rest ih =>
      simp only [shiftedAll, ih, List.map_cons]

theorem shiftedMethods_eq_map (k : Nat) (methods : List FunctionDecl) :
    shiftedMethods k methods = methods.map (shiftedFunction k) := by
  induction methods with
  | nil =>
      rfl
  | cons f rest ih =>
      simp only [shiftedMethods, ih, List.map_cons]

mutual

@[simp] theorem shifted_zero : ∀ s : Stmt, s.shifted 0 = s
  | .expression _ => by
      simp only [shifted, Expr.shifted_zero]
  | .print _ => by
      simp only [shifted, Expr.shifted_zero]
  | .var _ _ => by
      simp only [shifted, Expr.map_shifted_zero]
  | .block body => by
      simp only [shifted, shiftedAll_zero body]
  | .ifThen _ thenBranch => by
      simp only [shifted, Expr.shifted_zero, shifted_zero thenBranch]
  | .ifElse _ thenBranch elseBranch => by
      simp only [shifted, Expr.shifted_zero, shifted_zero thenBranch, shifted_zero elseBranch]
  | .loop _ body => by
      simp only [shifted, Expr.shifted_zero, shifted_zero body]
  | .function decl => by
      simp only [shifted, shiftedFunction_zero decl]
  | .ret _ _ => by
      simp only [shifted, Expr.map_shifted_zero]
  | .classDecl _ _ methods => by
      simp only [shifted, Expr.map_shifted_zero, shiftedMethods_zero methods]

@[simp] theorem shiftedAll_zero (body : List Stmt) : shiftedAll 0 body = body := by
  cases body with
  | nil =>
      rfl
  | cons s rest =>
      simp only [shiftedAll, shifted_zero s, shiftedAll_zero rest]

@[simp] theorem shiftedFunction_zero : ∀ decl : FunctionDecl, shiftedFunction 0 decl = decl
  | .mk _ _ body => by
      simp only [shiftedFunction, shiftedAll_zero body]

@[simp] theorem shiftedMethods_zero (methods : List FunctionDecl) :
    shiftedMethods 0 methods = methods := by
  cases methods with
  | nil =>
      rfl
  | cons f rest =>
      simp only [shiftedMethods, shiftedFunction_zero f, shiftedMethods_zero rest]

end

section Twice

variable (j k : Nat)

mutual

theorem shifted_shifted : ∀ s : Stmt, (s.shifted j).shifted k = s.shifted (j + k)
  | .expression _ => by
      simp only [shifted, Expr.shifted_shifted]
  | .print _ => by
      simp only [shifted, Expr.shifted_shifted]
  | .var _ _ => by
      simp only [shifted, Expr.map_shifted_shifted]
  | .block body => by
      simp only [shifted, shiftedAll_shiftedAll body]
  | .ifThen _ thenBranch => by
      simp only [shifted, Expr.shifted_shifted, shifted_shifted thenBranch]
  | .ifElse _ thenBranch elseBranch => by
      simp only [shifted, Expr.shifted_shifted, shifted_shifted thenBranch,
        shifted_shifted elseBranch]
  | .loop _ body => by
      simp only [shifted, Expr.shifted_shifted, shifted_shifted body]
  | .function decl => by
      simp only [shifted, shiftedFunction_shiftedFunction decl]
  | .ret _ _ => by
      simp only [shifted, Expr.map_shifted_shifted]
  | .classDecl _ _ methods => by
      simp only [shifted, Expr.map_shifted_shifted, shiftedMethods_shiftedMethods methods]

theorem shiftedAll_shiftedAll (body : List Stmt) :
    shiftedAll k (shiftedAll j body) = shiftedAll (j + k) body := by
  cases body with
  | nil =>
      rfl
  | cons s rest =>
      simp only [shiftedAll, shifted_shifted s, shiftedAll_shiftedAll rest]

theorem shiftedFunction_shiftedFunction : ∀ decl : FunctionDecl,
    shiftedFunction k (shiftedFunction j decl) = shiftedFunction (j + k) decl
  | .mk _ _ body => by
      simp only [shiftedFunction, shiftedAll_shiftedAll body]

theorem shiftedMethods_shiftedMethods (methods : List FunctionDecl) :
    shiftedMethods k (shiftedMethods j methods) = shiftedMethods (j + k) methods := by
  cases methods with
  | nil =>
      rfl
  | cons f rest =>
      simp only [shiftedMethods, shiftedFunction_shiftedFunction f,
        shiftedMethods_shiftedMethods rest]

end

end Twice

end Stmt

end Lox
