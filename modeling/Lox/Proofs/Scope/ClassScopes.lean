import Lox.Proofs.Scope.Violations
import Lox.Proofs.Scope.Distances
import Lox.Proofs.Scope.Written

/-!
# The two scopes of a class

A class statement with a superclass opens two scopes, one with `super` and in it one with `this`.
Nothing stands directly in them but the functions of the class, each with a scope of its own.  So
from whatever stands in a method, at any depth, the scope with `super` is at least two scopes out,
and one scope nearer is the scope with `this` of the same class, also where there is a nearer `this`
of a class without a superclass in between.
-/

namespace Lox

/-- From `p`, the scope with `super` of the class statement at `q` is `d` scopes out, and one scope
nearer is the scope with `this` of the same class. -/
structure Part.Paired (program : Part) (p q : Address) (d : Nat) : Prop where
  two_le : 2 ≤ d
  statement : ∃ name superclass methods,
    program.at? q = some (.stmt (.classDecl name (some superclass) methods))
  super : (program.scopesAround p)[d]? = some (q ++ [1])
  this : (program.scopesAround p)[d - 1]? = some (q ++ [1, 0])

/-- So many scopes out there is a scope with a single name. -/
def Scopes.HasOnly (scopes : Scopes) (d : Nat) (name : String) : Prop :=
  ∃ scope, scopes[d]? = some scope ∧ ∀ other, (scope.lookup other).isSome = true ↔ other = name

namespace Part

section Around

variable {program part : Part}
variable {p q r : Address}

/-- The scopes around a part of a part are those in the latter, and then those around it. -/
theorem scopesAround_append
    (hpart : program.at? (p ++ r) = some part) :
    ∃ inner, program.scopesAround (p ++ r) = inner ++ program.scopesAround p := by
  induction r using List.reverseRecOn generalizing part with
  | nil =>
      exact ⟨[], by simp⟩
  | append_singleton r i ih =>
      rw [← List.append_assoc, at?_snoc] at hpart
      obtain ⟨parent, hparent, -⟩ := Option.bind_eq_some_iff.mp hpart
      obtain ⟨inner, hinner⟩ := ih hparent
      rw [← List.append_assoc, scopesAround, enclosing_snoc hparent]
      split
      · exact ⟨(p ++ r) :: inner, congrArg (_ :: ·) hinner⟩
      · exact ⟨inner, hinner⟩

/-- What is below a part, and is not the part, is in one of its children. -/
theorem exists_child_above
    {parent : Part}
    (hparent : program.at? p = some parent)
    (hpart : program.at? (p ++ r) = some part)
    (hne : parent ≠ part) :
    ∃ i r' child, r = i :: r' ∧ parent.children[i]? = some child ∧
      program.at? (p ++ [i]) = some child := by
  cases r with
  | nil =>
      rw [List.append_nil, hparent] at hpart
      exact absurd (Option.some.inj hpart) hne
  | cons i r' =>
      rw [at?_append, hparent, Option.bind_some] at hpart
      obtain ⟨child, hchild, -⟩ := Option.bind_eq_some_iff.mp hpart
      refine ⟨i, r', child, rfl, hchild, ?_⟩
      rw [at?_snoc, hparent]
      exact hchild

/-- Between an expression and the scope with `super` of a class stand the scope with `this` of the
class and, in that, the scope of a method. -/
theorem scopesAround_of_inheritance
    {e superclass : Expr}
    {name : Token}
    {methods : List FunctionDecl}
    (hpart : program.at? p = some (.expr e))
    (hstatement : program.at? q = some (.stmt (.classDecl name (some superclass) methods)))
    (hmem : q ++ [1] ∈ program.scopesAround p) :
    ∃ inner method, program.scopesAround p =
      inner ++ method :: (q ++ [1, 0]) :: (q ++ [1]) :: program.scopesAround q := by
  obtain ⟨i, r, -, rfl, -, -⟩ := of_mem_enclosing hmem
  have hbody := at?_derivedBody hstatement
  have hderived := scopesAround_derivedBody hstatement
  -- The way down from the scope with `super` leads through the class body and a method in it.
  obtain ⟨_, _, body, heq, hchild, -⟩ :=
    exists_child_above (at?_inheritance hstatement) hpart (by simp)
  obtain ⟨rfl, rfl⟩ := List.cons.inj heq
  obtain ⟨rfl, -⟩ : i = 0 ∧ body = .classBody true methods := by
    cases i with
    | zero =>
        exact ⟨rfl, (Option.some.inj hchild).symm⟩
    | succ i =>
        cases hchild
  rw [show (q ++ [1]) ++ 0 :: r = (q ++ [1, 0]) ++ r by simp] at hpart ⊢
  obtain ⟨j, r₁, method, rfl, hmethod, hat⟩ := exists_child_above hbody hpart (by simp)
  obtain ⟨decl, -, rfl⟩ := List.mem_map.mp (List.mem_of_getElem? hmethod)
  rw [show (q ++ [1, 0]) ++ j :: r₁ = (q ++ [1, 0] ++ [j]) ++ r₁ by simp] at hpart ⊢
  obtain ⟨k, r₂, child, rfl, -, -⟩ := exists_child_above hat hpart (by simp)
  rw [show (q ++ [1, 0] ++ [j]) ++ k :: r₂ = (q ++ [1, 0] ++ [j] ++ [k]) ++ r₂ by simp]
    at hpart ⊢
  obtain ⟨inner, hinner⟩ := scopesAround_append hpart
  refine ⟨inner, q ++ [1, 0] ++ [j], ?_⟩
  rw [hinner, ← hderived]
  unfold scopesAround
  rw [enclosing_snoc hat, enclosing_snoc hbody]
  rfl

/-- What is around the body of a class with a superclass is part of its class statement. -/
theorem exists_statement_of_child
    {methods : List FunctionDecl}
    (hchild : .inheritance methods ∈ part.children) :
    ∃ name superclass, part = .stmt (.classDecl name (some superclass) methods) := by
  revert hchild
  fun_cases children part <;> simp +contextual

theorem exists_statement_of_inheritance
    {statements : List Stmt}
    {methods : List FunctionDecl}
    (hscope : (Part.program statements).at? p = some (.inheritance methods)) :
    ∃ q name superclass, p = q ++ [1] ∧
      (Part.program statements).at? q =
        some (.stmt (.classDecl name (some superclass) methods)) := by
  rcases List.eq_nil_or_concat p with rfl | ⟨q, i, rfl⟩
  · cases hscope
  · rw [List.concat_eq_append, at?_snoc] at hscope
    obtain ⟨parent, hparent, hchild⟩ := Option.bind_eq_some_iff.mp hscope
    obtain ⟨name, superclass, rfl⟩ := exists_statement_of_child (List.mem_of_getElem? hchild)
    match i, hchild with
    | 0, hchild => cases hchild
    | 1, _ => exact ⟨q, name, superclass, List.concat_eq_append, hparent⟩
    | _ + 2, hchild => cases hchild

/-- Where `super` has a distance, the scopes of a class are that far out. -/
theorem Named.paired_of_distance
    {statements : List Stmt}
    {e : Expr}
    {d : Nat}
    (hnamed : (Part.program statements).Named)
    (hpart : (Part.program statements).at? p = some (.expr e))
    (hdistance : (Part.program statements).Distance p "super" d) :
    ∃ q, (Part.program statements).Paired p q d := by
  obtain ⟨scope, hscope, hbefore, -⟩ := hdistance
  have hinheritance : ∃ methods,
      (Part.program statements).at? scope = some (.inheritance methods) := by
    rcases hbefore.keyword hnamed (by simp [Ordinary]) with ⟨hname, -⟩ | ⟨-, hat⟩
    · simp at hname
    · exact hat
  obtain ⟨methods, hat⟩ := hinheritance
  obtain ⟨q, name, superclass, rfl, hstatement⟩ := exists_statement_of_inheritance hat
  obtain ⟨inner, method, hscopes⟩ :=
    scopesAround_of_inheritance hpart hstatement (List.mem_of_getElem? hscope)
  -- No scope stands twice around the same part.
  have hindex : (inner ++ method :: (q ++ [1, 0]) :: (q ++ [1]) ::
      (Part.program statements).scopesAround q)[inner.length + 2]? = some (q ++ [1]) := by
    simp
  rw [← hscopes, ← hscope] at hindex
  have hnodup : ((Part.program statements).scopesAround p).Nodup := nodup_enclosing _ p
  have hlength : inner.length + 2 < ((Part.program statements).scopesAround p).length := by
    simp [hscopes]
  obtain rfl := (List.getElem?_inj hlength hnodup).mp hindex
  exact ⟨q, Nat.le_add_left 2 _, ⟨name, superclass, methods, hstatement⟩, hscope,
    by simp [hscopes]⟩

end Around

section Names

variable {program : Part}
variable {p scope : Address}
variable {methods : List FunctionDecl}

theorem Shaped.declaredBefore_inheritance
    (hshaped : program.Shaped)
    (hscope : program.at? scope = some (.inheritance methods))
    (name : String) :
    program.DeclaredBefore scope p name ↔ name = "super" := by
  constructor
  · intro hbefore
    cases hbefore with
    | this hbody =>
        cases hscope.symm.trans hbody
    | super =>
        rfl
    | declared hdeclares hhead =>
        exact absurd rfl ((hshaped.not_declares_inClass hdeclares hhead hscope).2 methods)
  · rintro rfl
    exact .super hscope

theorem Shaped.declaredBefore_classBody
    {derived : Bool}
    (hshaped : program.Shaped)
    (hscope : program.at? scope = some (.classBody derived methods))
    (name : String) :
    program.DeclaredBefore scope p name ↔ name = "this" := by
  constructor
  · intro hbefore
    cases hbefore with
    | this =>
        rfl
    | super hinheritance =>
        cases hscope.symm.trans hinheritance
    | declared hdeclares hhead =>
        cases (hshaped.not_declares_inClass hdeclares hhead hscope).1
  · rintro rfl
    exact .this hscope

end Names

end Part

section Open

variable {program : Part}
variable {p q scope : Address}
variable {around : Surroundings}
variable {d : Nat}

/-- The open scope for a scope that has a single name. -/
theorem Surroundings.Fits.hasOnly
    {name : String}
    (h : around.Fits program p)
    (hscope : (program.scopesAround p)[d]? = some scope)
    (hbefore : ∀ other, program.DeclaredBefore scope p other ↔ other = name) :
    around.scopes.HasOnly d name := by
  obtain ⟨hlt, rfl⟩ := List.getElem?_eq_some_iff.mp hscope
  have hlt' : d < around.scopes.length := h.scopes.length_eq ▸ hlt
  refine ⟨around.scopes[d], List.getElem?_eq_getElem hlt', ?_⟩
  intro other
  exact (h.scopes.get hlt' hlt other).trans (hbefore other)

/-- The open scopes of a class hold nothing but `super` and `this`. -/
theorem Part.Paired.hasOnly
    (hpaired : program.Paired p q d)
    (hshaped : program.Shaped)
    (h : around.Fits program p) :
    around.scopes.HasOnly d "super" ∧ around.scopes.HasOnly (d - 1) "this" := by
  obtain ⟨name, superclass, methods, hstatement⟩ := hpaired.statement
  exact ⟨h.hasOnly hpaired.super
      (hshaped.declaredBefore_inheritance (Part.at?_inheritance hstatement)),
    h.hasOnly hpaired.this
      (hshaped.declaredBefore_classBody (Part.at?_derivedBody hstatement))⟩

end Open

end Lox
