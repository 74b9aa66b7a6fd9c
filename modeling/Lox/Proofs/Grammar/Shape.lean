import Lox.Proofs.Grammar.Reading

/-!
# Shapes of trees

The types of trees allow for more than any token list can stand for: a sign that is no sign, a
branch that is a declaration, two references with one number.  `Shaped` says which tokens stand at
which nodes of a tree and which statements stand where; `tokens` lists the tokens that are kept in
a tree, `ids` the numbers of its references, and `Fresh` says that these are all different and lie in
a range.
-/

namespace Lox

/-- The kinds of the operators that make binary nodes. -/
def binaryKinds : List Token.Kind :=
  [.punct .bangEqual, .punct .equalEqual, .punct .greater, .punct .greaterEqual, .punct .less,
    .punct .lessEqual, .punct .minus, .punct .plus, .punct .star, .punct .slash]

/-- The kinds of the operators that make logical nodes. -/
def logicalKinds : List Token.Kind :=
  [.keyword .or, .keyword .and]

namespace Expr

mutual

/-- Every node of the expression has tokens of the right kinds. -/
def Shaped : Expr → Prop
  | .literal _ => True
  | .grouping inner => Shaped inner
  | .unary operator right => operator.kind ∈ Grammar.signKinds ∧ Shaped right
  | .binary left operator right => Shaped left ∧ operator.kind ∈ binaryKinds ∧ Shaped right
  | .logical left operator right => Shaped left ∧ operator.kind ∈ logicalKinds ∧ Shaped right
  | .var _ name => name.kind = .identifier
  | .assign _ name value => name.kind = .identifier ∧ Shaped value
  | .call callee paren arguments =>
      Shaped callee ∧ paren.kind = .punct .rightParen ∧ ShapedAll arguments
  | .get object name => Shaped object ∧ name.kind = .identifier
  | .set object name value => Shaped object ∧ name.kind = .identifier ∧ Shaped value
  | .this _ keyword => keyword.kind = .keyword .this
  | .super _ keyword method =>
      keyword.kind = .keyword .super ∧ method.kind = .identifier

/-- Every expression of the list has tokens of the right kinds. -/
def ShapedAll : List Expr → Prop
  | [] => True
  | e :: rest => Shaped e ∧ ShapedAll rest

end

mutual

/-- The numbers of the references in an expression, in the order of its tokens. -/
def ids : Expr → List Nat
  | .literal _ => []
  | .grouping inner => ids inner
  | .unary _ right => ids right
  | .binary left _ right => ids left ++ ids right
  | .logical left _ right => ids left ++ ids right
  | .var id _ => [id]
  | .assign id _ value => id :: ids value
  | .call callee _ arguments => ids callee ++ idsAll arguments
  | .get object _ => ids object
  | .set object _ value => ids object ++ ids value
  | .this id _ => [id]
  | .super id _ _ => [id]

/-- The numbers of the references in a list of expressions. -/
def idsAll : List Expr → List Nat
  | [] => []
  | e :: rest => ids e ++ idsAll rest

end

mutual

/-- The tokens that an expression keeps. -/
@[simp]
def tokens : Expr → List Token
  | .literal _ => []
  | .grouping inner => tokens inner
  | .unary operator right => operator :: tokens right
  | .binary left operator right => tokens left ++ operator :: tokens right
  | .logical left operator right => tokens left ++ operator :: tokens right
  | .var _ name => [name]
  | .assign _ name value => name :: tokens value
  | .call callee paren arguments => tokens callee ++ (tokensAll arguments ++ [paren])
  | .get object name => tokens object ++ [name]
  | .set object name value => tokens object ++ name :: tokens value
  | .this _ keyword => [keyword]
  | .super _ keyword method => [keyword, method]

/-- The tokens that a list of expressions keeps. -/
@[simp]
def tokensAll : List Expr → List Token
  | [] => []
  | e :: rest => tokens e ++ tokensAll rest

end

/-- Shape of an expression that may be missing. -/
def ShapedOption : Option Expr → Prop
  | none => True
  | some e => e.Shaped

/-- The numbers of the references in an expression that may be missing. -/
def idsOption : Option Expr → List Nat
  | none => []
  | some e => e.ids

/-- The tokens that an expression keeps that may be missing. -/
@[simp]
def tokensOption : Option Expr → List Token
  | none => []
  | some e => e.tokens

/-- An expression that may be missing, and is a variable if it is not. -/
def VariableOption : Option Expr → Prop
  | none => True
  | some (.var _ name) => name.kind = .identifier
  | some _ => False

end Expr

namespace Stmt

/-- Whether a statement can stand as a branch or the body of a loop. -/
def isBranch : Stmt → Bool
  | .var _ _ => false
  | .function _ => false
  | .classDecl _ _ _ => false
  | _ => true

mutual

/-- Every node of the statement has tokens and parts of the right kinds. -/
def Shaped : Stmt → Prop
  | .expression e => e.Shaped
  | .print e => e.Shaped
  | .var name initializer => name.kind = .identifier ∧ Expr.ShapedOption initializer
  | .block body => ShapedAll body
  | .ifThen condition thenBranch =>
      condition.Shaped ∧ thenBranch.isBranch = true ∧ Shaped thenBranch
  | .ifElse condition thenBranch elseBranch =>
      condition.Shaped ∧ thenBranch.isBranch = true ∧ Shaped thenBranch ∧
        elseBranch.isBranch = true ∧ Shaped elseBranch
  | .loop condition body => condition.Shaped ∧ body.isBranch = true ∧ Shaped body
  | .function decl => ShapedFunction decl
  | .ret keyword value => keyword.kind = .keyword .return_ ∧ Expr.ShapedOption value
  | .classDecl name superclass methods =>
      name.kind = .identifier ∧ Expr.VariableOption superclass ∧ ShapedFunctions methods

/-- Every statement of the list has tokens and parts of the right kinds. -/
def ShapedAll : List Stmt → Prop
  | [] => True
  | s :: rest => Shaped s ∧ ShapedAll rest

/-- A function or method has tokens and parts of the right kinds. -/
def ShapedFunction : FunctionDecl → Prop
  | .mk name params body =>
      name.kind = .identifier ∧ (∀ p ∈ params, p.kind = .identifier) ∧ ShapedAll body

/-- Every function of the list has tokens and parts of the right kinds. -/
def ShapedFunctions : List FunctionDecl → Prop
  | [] => True
  | f :: rest => ShapedFunction f ∧ ShapedFunctions rest

end

mutual

/-- The numbers of the references in a statement. -/
def ids : Stmt → List Nat
  | .expression e => e.ids
  | .print e => e.ids
  | .var _ initializer => Expr.idsOption initializer
  | .block body => idsAll body
  | .ifThen condition thenBranch => condition.ids ++ ids thenBranch
  | .ifElse condition thenBranch elseBranch => condition.ids ++ (ids thenBranch ++ ids elseBranch)
  | .loop condition body => condition.ids ++ ids body
  | .function decl => idsFunction decl
  | .ret _ value => Expr.idsOption value
  | .classDecl _ superclass methods => Expr.idsOption superclass ++ idsFunctions methods

/-- The numbers of the references in a list of statements. -/
def idsAll : List Stmt → List Nat
  | [] => []
  | s :: rest => ids s ++ idsAll rest

/-- The numbers of the references in a function or method. -/
def idsFunction : FunctionDecl → List Nat
  | .mk _ _ body => idsAll body

/-- The numbers of the references in a list of functions. -/
def idsFunctions : List FunctionDecl → List Nat
  | [] => []
  | f :: rest => idsFunction f ++ idsFunctions rest

end

mutual

/-- The tokens that a statement keeps. -/
@[simp]
def tokens : Stmt → List Token
  | .expression e => e.tokens
  | .print e => e.tokens
  | .var name initializer => name :: Expr.tokensOption initializer
  | .block body => tokensAll body
  | .ifThen condition thenBranch => condition.tokens ++ tokens thenBranch
  | .ifElse condition thenBranch elseBranch =>
      condition.tokens ++ (tokens thenBranch ++ tokens elseBranch)
  | .loop condition body => condition.tokens ++ tokens body
  | .function decl => tokensFunction decl
  | .ret keyword value => keyword :: Expr.tokensOption value
  | .classDecl name superclass methods =>
      name :: (Expr.tokensOption superclass ++ tokensFunctions methods)

/-- The tokens that a list of statements keeps. -/
@[simp]
def tokensAll : List Stmt → List Token
  | [] => []
  | s :: rest => tokens s ++ tokensAll rest

/-- The tokens that a function or method keeps. -/
@[simp]
def tokensFunction : FunctionDecl → List Token
  | .mk name params body => name :: (params ++ tokensAll body)

/-- The tokens that a list of functions keeps. -/
@[simp]
def tokensFunctions : List FunctionDecl → List Token
  | [] => []
  | f :: rest => tokensFunction f ++ tokensFunctions rest

end

end Stmt

/-- Numbers that are all different, from `i` up to, but not including, `j`. -/
structure Fresh (i j : Nat) (ids : List Nat) : Prop where
  nodup : ids.Nodup
  range : ∀ id ∈ ids, i ≤ id ∧ id < j

namespace Fresh

theorem nil (i j : Nat) : Fresh i j [] where
  nodup := List.nodup_nil
  range := by
    intro id hid
    cases hid

theorem single (i : Nat) : Fresh i (i + 1) [i] where
  nodup := by
    simp
  range := by
    intro id hid
    simp at hid
    omega

theorem append
    {i k j : Nat}
    {xs ys : List Nat}
    (hx : Fresh i k xs)
    (hy : Fresh k j ys)
    (hik : i ≤ k)
    (hkj : k ≤ j) :
    Fresh i j (xs ++ ys) where
  nodup := by
    rw [List.nodup_append]
    refine ⟨hx.nodup, hy.nodup, ?_⟩
    intro a ha b hb heq
    have hax := hx.range a ha
    have hby := hy.range b hb
    omega
  range := by
    intro id hid
    rcases List.mem_append.mp hid with hid | hid
    · have := hx.range id hid
      omega
    · have := hy.range id hid
      omega

theorem widen
    {i i' j j' : Nat}
    {xs : List Nat}
    (h : Fresh i j xs)
    (hi : i' ≤ i)
    (hj : j ≤ j') :
    Fresh i' j' xs where
  nodup := h.nodup
  range := by
    intro id hid
    have := h.range id hid
    omega

theorem perm
    {i j : Nat}
    {xs ys : List Nat}
    (h : Fresh i j xs)
    (hperm : ys.Perm xs) :
    Fresh i j ys where
  nodup := hperm.nodup_iff.mpr h.nodup
  range := by
    intro id hid
    exact h.range id (hperm.mem_iff.mp hid)

end Fresh

end Lox
