import Lox.Proofs.Scope.Accepted
import Lox.Proofs.Tree.Renumbered

/-!
# Code without a scope around it

The same code is resolved twice, once with an empty scope somewhere among the scopes around it and
once without.  Where the scope lies is told by a `Gap`, a number of scopes to go out.  Nothing is
declared in it, so no reference is bound there, and the distance of every reference that goes beyond
it is one less without it.

The two copies of the code carry different numbers, so that one table can hold the distances of both.
Code `Lowers` if the entries of its references are related in this way.  Code that was not moved at
all does so if its entries stay.
-/

namespace Lox

/-- How many scopes out the additional one lies, if there is one. -/
abbrev Gap := Option Nat

namespace Gap

/-- The same place, seen from one scope further inside. -/
def inner (p : Gap) : Gap :=
  p.map (· + 1)

/-- A distance without the additional scope. -/
def lower (p : Gap) (d : Nat) : Nat :=
  match p with
  | none => d
  | some k => if k < d then d - 1 else d

theorem inner_ne_zero (p : Gap) : p.inner ≠ some 0 := by
  cases p <;> simp [inner]

theorem exists_inner
    {p : Gap}
    (h : p ≠ some 0) :
    ∃ q : Gap, p = q.inner := by
  cases p with
  | none =>
      exact ⟨none, rfl⟩
  | some k =>
      cases k with
      | zero =>
          exact absurd rfl h
      | succ k =>
          exact ⟨some k, rfl⟩

theorem lower_zero (p : Gap) : p.lower 0 = 0 := by
  cases p <;> simp [lower]

theorem lower_here_succ (d : Nat) : lower (some 0) (d + 1) = d := by
  simp [lower]

theorem lower_inner_succ (p : Gap) (d : Nat) : p.inner.lower (d + 1) = p.lower d + 1 := by
  cases p with
  | none =>
      rfl
  | some k =>
      simp only [lower, inner, Option.map_some]
      split <;> split <;> omega

/-- Next to each other, two scopes stay next to each other. -/
theorem lower_pred
    {p : Gap}
    {d : Nat}
    (hd : p ≠ some d)
    (hpred : p ≠ some (d - 1)) :
    p.lower (d - 1) = p.lower d - 1 := by
  cases p with
  | none =>
      rfl
  | some k =>
      have hk : k ≠ d := fun h => hd (congrArg some h)
      have hk' : k ≠ d - 1 := fun h => hpred (congrArg some h)
      simp only [lower]
      split <;> split <;> omega

end Gap

/-- Scopes with an additional empty one, and the same without it. -/
inductive Scopes.Inset : Gap → Scopes → Scopes → Prop where
  | same (scopes : Scopes) : Inset none scopes scopes
  | here (scopes : Scopes) : Inset (some 0) ([] :: scopes) scopes
  | inside {p : Gap} {scopes scopes' : Scopes} (scope : Scope) (h : Inset p scopes scopes') :
      Inset p.inner (scope :: scopes) (scope :: scopes')

namespace Scopes.Inset

variable {p : Gap}
variable {scopes scopes' : Scopes}

/-- A name that is found is not found in the additional scope. -/
theorem distance?
    (h : Inset p scopes scopes')
    (name : String) :
    scopes'.distance? name = (scopes.distance? name).map p.lower ∧
      ∀ d, scopes.distance? name = some d → p ≠ some d := by
  induction h with
  | same scopes =>
      constructor
      · cases scopes.distance? name <;> rfl
      · intro d _
        simp
  | here scopes =>
      rw [Scopes.distance?_push]
      cases scopes.distance? name with
      | none =>
          exact ⟨rfl, by simp⟩
      | some d =>
          constructor
          · simp [Gap.lower_here_succ]
          · intro d' hd'
            cases hd'
            simp
  | @inside p scopes scopes' scope _ ih =>
      obtain ⟨hdistance, hne⟩ := ih
      simp only [Scopes.distance?]
      split
      · constructor
        · simp [Gap.lower_zero]
        · intro d hd
          cases hd
          exact p.inner_ne_zero
      · rw [hdistance]
        cases hfound : scopes.distance? name with
        | none =>
            exact ⟨rfl, by simp⟩
        | some d =>
            constructor
            · simp [Gap.lower_inner_succ]
            · intro d' hd'
              cases hd'
              have hp := hne d hfound
              cases p <;> simp_all [Gap.inner]

/-- The additional scope is empty. -/
theorem getElem?
    {d : Nat}
    (h : Inset p scopes scopes')
    (hp : p = some d) :
    scopes[d]? = some [] := by
  induction h generalizing d with
  | same scopes =>
      cases hp
  | here scopes =>
      cases hp
      rfl
  | @inside p scopes scopes' scope _ ih =>
      cases p with
      | none =>
          cases hp
      | some k =>
          cases hp
          exact ih rfl

theorem ne_of_readableAt
    {d : Nat}
    {name : String}
    (h : Inset p scopes scopes')
    (hread : scopes.ReadableAt d name) :
    p ≠ some d := by
  intro hp
  obtain ⟨scope, hscope, hlookup⟩ := hread
  rw [h.getElem? hp] at hscope
  cases hscope
  cases hlookup

/-- Anything can be declared but in the additional scope itself. -/
theorem add
    (h : Inset p scopes scopes')
    (hp : p ≠ some 0)
    (name : String)
    (readable : Bool) :
    Inset p (scopes.add name readable) (scopes'.add name readable) := by
  cases h with
  | same scopes =>
      exact .same _
  | here scopes =>
      exact absurd rfl hp
  | inside scope h =>
      exact .inside _ h

theorem declare
    (h : Inset p scopes scopes')
    (hp : p ≠ some 0)
    (name : Token) :
    Inset p (scopes.declare name) (scopes'.declare name) :=
  h.add hp name.lexeme false

theorem declare_define
    (h : Inset p scopes scopes')
    (hp : p ≠ some 0)
    (name : Token) :
    Inset p ((scopes.declare name).define name) ((scopes'.declare name).define name) :=
  (h.declare hp name).add hp name.lexeme true

theorem declareParams
    (h : Inset p scopes scopes')
    (hp : p ≠ some 0)
    (params : List Token) :
    Inset p (scopes.declareParams params) (scopes'.declareParams params) := by
  induction params generalizing scopes scopes' with
  | nil =>
      exact h
  | cons param params ih =>
      exact ih (h.add hp param.lexeme true)

/-- A statement declares the same. -/
theorem resolve
    (hp : p ≠ some 0)
    (ctx : Context) :
    ∀ (s : Stmt) {scopes scopes' : Scopes}, Inset p scopes scopes' →
      Inset p (s.resolve ctx scopes).1 (s.resolve ctx scopes').1
  | .expression _, _, _, h => h
  | .print _, _, _, h => h
  | .var name _, _, _, h => h.declare_define hp name
  | .block _, _, _, h => h
  | .ifThen _ thenBranch, _, _, h => resolve hp ctx thenBranch h
  | .ifElse _ thenBranch elseBranch, _, _, h =>
      resolve hp ctx elseBranch (resolve hp ctx thenBranch h)
  | .loop _ body, _, _, h => resolve hp ctx body h
  | .function decl, _, _, h => h.declare_define hp decl.name
  | .ret _ _, _, _, h => h
  | .classDecl name none _, _, _, h => h.declare_define hp name
  | .classDecl name (some _) _, _, _, h => h.declare_define hp name

end Scopes.Inset

/-- Names are declared no matter how references are numbered. -/
theorem Stmt.resolve_shifted
    (k : Nat)
    (ctx : Context)
    (scopes : Scopes) :
    ∀ s : Stmt, ((s.shifted k).resolve ctx scopes).1 = (s.resolve ctx scopes).1
  | .expression _ => rfl
  | .print _ => rfl
  | .var _ _ => rfl
  | .block _ => rfl
  | .ifThen _ thenBranch => thenBranch.resolve_shifted k ctx scopes
  | .ifElse _ thenBranch elseBranch => by
      simp only [shifted, resolve, thenBranch.resolve_shifted k ctx scopes,
        elseBranch.resolve_shifted k ctx]
  | .loop _ body => body.resolve_shifted k ctx scopes
  | .function (.mk _ _ _) => rfl
  | .ret _ _ => rfl
  | .classDecl _ none _ => rfl
  | .classDecl _ (some _) _ => rfl

/-- The tables with which the two copies of some code are run. -/
structure Tables where
  old : Locals
  new : Locals

/-- Without the additional scope, a reference finds the same name. -/
structure Tables.Reads (L : Tables) (n : Nat) (p : Gap) (id : Nat) : Prop where
  lowered : L.new.get? (id + n) = (L.old.get? id).map p.lower
  ne_gap : ∀ {d}, L.old.get? id = some d → p ≠ some d

section Lowers

variable (L : Tables)
variable (n : Nat)

namespace Expr

variable (p : Gap)

mutual

/-- All references of an expression find the same without the additional scope. -/
def Lowers : Expr → Prop
  | .literal _ => True
  | .grouping inner => Lowers inner
  | .unary _ right => Lowers right
  | .binary left _ right => Lowers left ∧ Lowers right
  | .logical left _ right => Lowers left ∧ Lowers right
  | .var id _ => L.Reads n p id
  | .assign id _ value => L.Reads n p id ∧ Lowers value
  | .call callee _ arguments => Lowers callee ∧ LowersAll arguments
  | .get object _ => Lowers object
  | .set object _ value => Lowers object ∧ Lowers value
  | .this id _ => L.Reads n p id
  | .super id _ _ => L.Reads n p id ∧ ∀ d, L.old.get? id = some d → p ≠ some (d - 1)

/-- All references of a list of expressions find the same. -/
def LowersAll : List Expr → Prop
  | [] => True
  | e :: rest => Lowers e ∧ LowersAll rest

end

/-- All references of an expression that may be missing find the same. -/
def LowersOption : Option Expr → Prop
  | none => True
  | some e => Lowers L n p e

end Expr

namespace Stmt

mutual

/-- All references of a statement find the same without the additional scope, and nothing is declared
there. -/
def Lowers (p : Gap) : Stmt → Prop
  | .expression e => e.Lowers L n p
  | .print e => e.Lowers L n p
  | .var _ initializer => p ≠ some 0 ∧ Expr.LowersOption L n p initializer
  | .block body => LowersAll p.inner body
  | .ifThen condition thenBranch => condition.Lowers L n p ∧ Lowers p thenBranch
  | .ifElse condition thenBranch elseBranch =>
      condition.Lowers L n p ∧ Lowers p thenBranch ∧ Lowers p elseBranch
  | .loop condition body => condition.Lowers L n p ∧ Lowers p body
  | .function decl => p ≠ some 0 ∧ LowersFunction p decl
  | .ret _ value => Expr.LowersOption L n p value
  | .classDecl _ none methods => p ≠ some 0 ∧ LowersMethods p methods
  | .classDecl _ (some superclass) methods =>
      p ≠ some 0 ∧ superclass.Lowers L n p ∧ LowersMethods p.inner methods

/-- All references of a list of statements find the same. -/
def LowersAll (p : Gap) : List Stmt → Prop
  | [] => True
  | s :: rest => Lowers p s ∧ LowersAll p rest

/-- All references of a function find the same; its body has a scope of its own. -/
def LowersFunction (p : Gap) : FunctionDecl → Prop
  | .mk _ _ body => LowersAll p.inner body

/-- All references of methods find the same; the scope with `this` is around them. -/
def LowersMethods (p : Gap) : List FunctionDecl → Prop
  | [] => True
  | f :: rest => LowersFunction p.inner f ∧ LowersMethods p rest

end

end Stmt

end Lowers

section Unmoved

variable {L : Tables}

theorem Tables.Reads.unmoved
    {id : Nat}
    (h : L.new.get? id = L.old.get? id) :
    L.Reads 0 none id where
  lowered := by
    rw [Nat.add_zero, h]
    cases L.old.get? id <;> rfl
  ne_gap := by
    simp

mutual

/-- An expression whose entries stay. -/
theorem Expr.lowers_unmoved :
    ∀ e : Expr, (∀ id ∈ e.ids, L.new.get? id = L.old.get? id) → e.Lowers L 0 none
  | .literal _, _ => trivial
  | .grouping inner, h => inner.lowers_unmoved h
  | .unary _ right, h => right.lowers_unmoved h
  | .binary left _ right, h => by
      simp only [ids, List.mem_append, or_imp, forall_and] at h
      exact ⟨left.lowers_unmoved h.1, right.lowers_unmoved h.2⟩
  | .logical left _ right, h => by
      simp only [ids, List.mem_append, or_imp, forall_and] at h
      exact ⟨left.lowers_unmoved h.1, right.lowers_unmoved h.2⟩
  | .var _ _, h => .unmoved (h _ List.mem_cons_self)
  | .assign _ _ value, h =>
      ⟨.unmoved (h _ List.mem_cons_self),
        value.lowers_unmoved fun id hid => h id (List.mem_cons_of_mem _ hid)⟩
  | .call callee _ arguments, h => by
      simp only [ids, List.mem_append, or_imp, forall_and] at h
      exact ⟨callee.lowers_unmoved h.1, lowersAll_unmoved arguments h.2⟩
  | .get object _, h => object.lowers_unmoved h
  | .set object _ value, h => by
      simp only [ids, List.mem_append, or_imp, forall_and] at h
      exact ⟨object.lowers_unmoved h.1, value.lowers_unmoved h.2⟩
  | .this _ _, h => .unmoved (h _ List.mem_cons_self)
  | .super _ _ _, h => ⟨.unmoved (h _ List.mem_cons_self), by simp⟩

theorem Expr.lowersAll_unmoved :
    ∀ es : List Expr, (∀ id ∈ Expr.idsAll es, L.new.get? id = L.old.get? id) →
      Expr.LowersAll L 0 none es
  | [], _ => trivial
  | e :: rest, h => by
      simp only [idsAll, List.mem_append, or_imp, forall_and] at h
      exact ⟨e.lowers_unmoved h.1, lowersAll_unmoved rest h.2⟩

end

theorem Expr.lowersOption_unmoved
    (value : Option Expr)
    (h : ∀ id ∈ Expr.idsOption value, L.new.get? id = L.old.get? id) :
    Expr.LowersOption L 0 none value := by
  cases value with
  | none =>
      trivial
  | some e =>
      exact e.lowers_unmoved h

mutual

/-- A statement whose entries stay. -/
theorem Stmt.lowers_unmoved :
    ∀ s : Stmt, (∀ id ∈ s.ids, L.new.get? id = L.old.get? id) → s.Lowers L 0 none
  | .expression e, h => e.lowers_unmoved h
  | .print e, h => e.lowers_unmoved h
  | .var _ initializer, h => ⟨by simp, Expr.lowersOption_unmoved initializer h⟩
  | .block body, h => lowersAll_unmoved body h
  | .ifThen condition thenBranch, h => by
      simp only [ids, List.mem_append, or_imp, forall_and] at h
      exact ⟨condition.lowers_unmoved h.1, thenBranch.lowers_unmoved h.2⟩
  | .ifElse condition thenBranch elseBranch, h => by
      simp only [ids, List.mem_append, or_imp, forall_and] at h
      exact ⟨condition.lowers_unmoved h.1, thenBranch.lowers_unmoved h.2.1,
        elseBranch.lowers_unmoved h.2.2⟩
  | .loop condition body, h => by
      simp only [ids, List.mem_append, or_imp, forall_and] at h
      exact ⟨condition.lowers_unmoved h.1, body.lowers_unmoved h.2⟩
  | .function decl, h => ⟨by simp, lowersFunction_unmoved decl h⟩
  | .ret _ value, h => Expr.lowersOption_unmoved value h
  | .classDecl _ none methods, h => ⟨by simp, lowersMethods_unmoved methods h⟩
  | .classDecl _ (some superclass) methods, h => by
      simp only [ids, Expr.idsOption, List.mem_append, or_imp, forall_and] at h
      exact ⟨by simp, superclass.lowers_unmoved h.1, lowersMethods_unmoved methods h.2⟩

theorem Stmt.lowersAll_unmoved :
    ∀ body : List Stmt, (∀ id ∈ Stmt.idsAll body, L.new.get? id = L.old.get? id) →
      Stmt.LowersAll L 0 none body
  | [], _ => trivial
  | s :: rest, h => by
      simp only [idsAll, List.mem_append, or_imp, forall_and] at h
      exact ⟨s.lowers_unmoved h.1, lowersAll_unmoved rest h.2⟩

theorem Stmt.lowersFunction_unmoved :
    ∀ decl : FunctionDecl, (∀ id ∈ Stmt.idsFunction decl, L.new.get? id = L.old.get? id) →
      Stmt.LowersFunction L 0 none decl
  | .mk _ _ body, h => lowersAll_unmoved body h

theorem Stmt.lowersMethods_unmoved :
    ∀ methods : List FunctionDecl,
      (∀ id ∈ Stmt.idsFunctions methods, L.new.get? id = L.old.get? id) →
      Stmt.LowersMethods L 0 none methods
  | [], _ => trivial
  | f :: rest, h => by
      simp only [idsFunctions, List.mem_append, or_imp, forall_and] at h
      exact ⟨lowersFunction_unmoved f h.1, lowersMethods_unmoved rest h.2⟩

end

end Unmoved

section Moved

variable {L : Tables}
variable {n : Nat}

/-- A reference of which both copies are filed with the distance of its name. -/
theorem Tables.Reads.of_distance
    {p : Gap}
    {scopes scopes' : Scopes}
    {id : Nat}
    {name : String}
    (hscopes : scopes.Inset p scopes')
    (hold : L.old.get? id = scopes.distance? name)
    (hnew : L.new.get? (id + n) = scopes'.distance? name) :
    L.Reads n p id := by
  obtain ⟨hlowered, hne⟩ := hscopes.distance? name
  constructor
  · rw [hnew, hold, hlowered]
  · intro d hd
    exact hne d (hold.symm.trans hd)

variable (ctx : Context)

mutual

/-- An expression of which both copies are filed. -/
theorem Expr.lowers_of_filed
    {p : Gap}
    {scopes scopes' : Scopes}
    (hscopes : scopes.Inset p scopes') :
    ∀ e : Expr, (∀ v ∈ e.visits ctx scopes, v.Good L.old) →
      (∀ v ∈ (e.shifted n).visits ctx scopes', v.Filed L.new) → e.Lowers L n p
  | .literal _, _, _ => trivial
  | .grouping inner, hold, hnew => by
      simp only [shifted, visits, List.mem_append, or_imp, forall_and] at hold hnew
      exact inner.lowers_of_filed hscopes hold.1 hnew.1
  | .unary _ right, hold, hnew => by
      simp only [shifted, visits, List.mem_append, or_imp, forall_and] at hold hnew
      exact right.lowers_of_filed hscopes hold.1 hnew.1
  | .binary left _ right, hold, hnew => by
      simp only [shifted, visits, List.mem_append, or_imp, forall_and] at hold hnew
      exact ⟨left.lowers_of_filed hscopes hold.1 hnew.1,
        right.lowers_of_filed hscopes hold.2.1 hnew.2.1⟩
  | .logical left _ right, hold, hnew => by
      simp only [shifted, visits, List.mem_append, or_imp, forall_and] at hold hnew
      exact ⟨left.lowers_of_filed hscopes hold.1 hnew.1,
        right.lowers_of_filed hscopes hold.2.1 hnew.2.1⟩
  | .var _ _, hold, hnew => by
      have hold := hold _ List.mem_cons_self
      exact .of_distance hscopes hold.var.2.1 (Visit.Filed.var (hnew _ List.mem_cons_self))
  | .assign _ _ value, hold, hnew => by
      simp only [shifted, visits, List.mem_append, or_imp, forall_and] at hold hnew
      have hself := hold.2 _ List.mem_cons_self
      exact ⟨.of_distance hscopes hself.assign.2
          (Visit.Filed.assign (hnew.2 _ List.mem_cons_self)),
        value.lowers_of_filed hscopes hold.1 hnew.1⟩
  | .call callee _ arguments, hold, hnew => by
      simp only [shifted, visits, List.mem_append, or_imp, forall_and] at hold hnew
      exact ⟨callee.lowers_of_filed hscopes hold.1 hnew.1,
        lowersAll_of_filed hscopes arguments hold.2.1 hnew.2.1⟩
  | .get object _, hold, hnew => by
      simp only [shifted, visits, List.mem_append, or_imp, forall_and] at hold hnew
      exact object.lowers_of_filed hscopes hold.1 hnew.1
  | .set object _ value, hold, hnew => by
      simp only [shifted, visits, List.mem_append, or_imp, forall_and] at hold hnew
      exact ⟨object.lowers_of_filed hscopes hold.2.1 hnew.2.1,
        value.lowers_of_filed hscopes hold.1 hnew.1⟩
  | .this _ _, hold, hnew => by
      have hself := hold _ List.mem_cons_self
      exact .of_distance hscopes (Visit.Filed.this hself.filed hself.cls_ne_none)
        (Visit.Filed.this (hnew _ List.mem_cons_self) hself.cls_ne_none)
  | .super _ _ _, hold, hnew => by
      have hself := hold _ List.mem_cons_self
      refine ⟨.of_distance hscopes (Visit.Filed.super hself.filed)
        (Visit.Filed.super (hnew _ List.mem_cons_self)), ?_⟩
      obtain ⟨-, d, hget, -, hthis⟩ := hself.super
      intro d' hd'
      rw [hget] at hd'
      cases hd'
      exact hscopes.ne_of_readableAt hthis

theorem Expr.lowersAll_of_filed
    {p : Gap}
    {scopes scopes' : Scopes}
    (hscopes : scopes.Inset p scopes') :
    ∀ es : List Expr, (∀ v ∈ Expr.visitsAll ctx scopes es, v.Good L.old) →
      (∀ v ∈ Expr.visitsAll ctx scopes' (Expr.shiftedAll n es), v.Filed L.new) →
      Expr.LowersAll L n p es
  | [], _, _ => trivial
  | e :: rest, hold, hnew => by
      simp only [shiftedAll, visitsAll, List.mem_append, or_imp, forall_and] at hold hnew
      exact ⟨e.lowers_of_filed hscopes hold.1 hnew.1,
        lowersAll_of_filed hscopes rest hold.2 hnew.2⟩

end

theorem Expr.lowersOption_of_filed
    {p : Gap}
    {scopes scopes' : Scopes}
    (hscopes : scopes.Inset p scopes')
    (value : Option Expr)
    (hold : ∀ v ∈ Expr.visitsOption ctx scopes value, v.Good L.old)
    (hnew : ∀ v ∈ Expr.visitsOption ctx scopes' (value.map (Expr.shifted n)), v.Filed L.new) :
    Expr.LowersOption L n p value := by
  cases value with
  | none =>
      trivial
  | some e =>
      exact e.lowers_of_filed ctx hscopes hold hnew

mutual

/-- A statement of which both copies are filed. -/
theorem Stmt.lowers_of_filed
    {p : Gap}
    {scopes scopes' : Scopes}
    (ctx : Context)
    (hscopes : scopes.Inset p scopes') :
    ∀ s : Stmt, (p = some 0 → s.isBranch = true) → (∀ v ∈ s.visits ctx scopes, v.Good L.old) →
      (∀ v ∈ (s.shifted n).visits ctx scopes', v.Filed L.new) → s.Lowers L n p
  | .expression e, _, hold, hnew =>
      e.lowers_of_filed ctx hscopes (fun v hv => hold v (List.mem_cons_of_mem _ hv))
        fun v hv => hnew v (List.mem_cons_of_mem _ hv)
  | .print e, _, hold, hnew =>
      e.lowers_of_filed ctx hscopes (fun v hv => hold v (List.mem_cons_of_mem _ hv))
        fun v hv => hnew v (List.mem_cons_of_mem _ hv)
  | .var name initializer, hbranch, hold, hnew => by
      have hp : p ≠ some 0 := fun h => nomatch hbranch h
      exact ⟨hp, Expr.lowersOption_of_filed ctx (hscopes.declare hp name) initializer
        (fun v hv => hold v (List.mem_cons_of_mem _ hv))
        fun v hv => hnew v (List.mem_cons_of_mem _ hv)⟩
  | .block body, _, hold, hnew =>
      lowersAll_of_filed ctx (hscopes.inside []) p.inner_ne_zero body
        (fun v hv => hold v (List.mem_cons_of_mem _ hv))
        fun v hv => hnew v (List.mem_cons_of_mem _ hv)
  | .ifThen condition thenBranch, _, hold, hnew => by
      obtain ⟨-, hthen, -⟩ := (hold _ List.mem_cons_self).shaped
      simp only [shifted, visits, List.mem_cons, List.mem_append, or_imp, forall_and] at hold hnew
      exact ⟨condition.lowers_of_filed ctx hscopes hold.2.1 hnew.2.1,
        thenBranch.lowers_of_filed ctx hscopes (fun _ => hthen) hold.2.2 hnew.2.2⟩
  | .ifElse condition thenBranch elseBranch, _, hold, hnew => by
      obtain ⟨-, hthen, hshaped, helse, -⟩ := (hold _ List.mem_cons_self).shaped
      simp only [shifted, visits, resolve_shifted, resolve_branch ctx _ thenBranch hshaped hthen,
        List.mem_cons, List.mem_append, or_imp, forall_and] at hold hnew
      exact ⟨condition.lowers_of_filed ctx hscopes hold.2.1 hnew.2.1,
        thenBranch.lowers_of_filed ctx hscopes (fun _ => hthen) hold.2.2.1 hnew.2.2.1,
        elseBranch.lowers_of_filed ctx hscopes (fun _ => helse) hold.2.2.2 hnew.2.2.2⟩
  | .loop condition body, _, hold, hnew => by
      obtain ⟨-, hbody, -⟩ := (hold _ List.mem_cons_self).shaped
      simp only [shifted, visits, List.mem_cons, List.mem_append, or_imp, forall_and] at hold hnew
      exact ⟨condition.lowers_of_filed ctx hscopes hold.2.1 hnew.2.1,
        body.lowers_of_filed ctx hscopes (fun _ => hbody) hold.2.2 hnew.2.2⟩
  | .function (.mk name params body), hbranch, hold, hnew => by
      have hp : p ≠ some 0 := fun h => nomatch hbranch h
      exact ⟨hp, lowersFunction_of_filed _ (hscopes.declare_define hp name) (.mk name params body)
        (fun v hv => hold v (List.mem_cons_of_mem _ hv))
        fun v hv => hnew v (List.mem_cons_of_mem _ hv)⟩
  | .ret _ value, _, hold, hnew =>
      Expr.lowersOption_of_filed ctx hscopes value
        (fun v hv => hold v (List.mem_cons_of_mem _ hv))
        fun v hv => hnew v (List.mem_cons_of_mem _ hv)
  | .classDecl name none methods, hbranch, hold, hnew => by
      have hp : p ≠ some 0 := fun h => nomatch hbranch h
      have hinner := (hscopes.declare_define hp name).inside [("this", true)]
      exact ⟨hp, lowersMethods_of_filed _ hinner methods
        (fun v hv => hold v (List.mem_cons_of_mem _ hv))
        fun v hv => hnew v (List.mem_cons_of_mem _ hv)⟩
  | .classDecl name (some superclass) methods, hbranch, hold, hnew => by
      have hp : p ≠ some 0 := fun h => nomatch hbranch h
      have hdeclared := hscopes.declare_define hp name
      have hinner := (hdeclared.inside [("super", true)]).inside [("this", true)]
      simp only [shifted, Option.map_some, visits, List.mem_cons, List.mem_append, or_imp,
        forall_and] at hold hnew
      exact ⟨hp, superclass.lowers_of_filed _ hdeclared hold.2.1 hnew.2.1,
        lowersMethods_of_filed _ hinner methods hold.2.2 hnew.2.2⟩

theorem Stmt.lowersAll_of_filed
    {p : Gap}
    {scopes scopes' : Scopes}
    (ctx : Context)
    (hscopes : scopes.Inset p scopes')
    (hp : p ≠ some 0) :
    ∀ body : List Stmt, (∀ v ∈ Stmt.visitsAll ctx scopes body, v.Good L.old) →
      (∀ v ∈ Stmt.visitsAll ctx scopes' (Stmt.shiftedAll n body), v.Filed L.new) →
      Stmt.LowersAll L n p body
  | [], _, _ => trivial
  | s :: rest, hold, hnew => by
      simp only [shiftedAll, visitsAll, resolve_shifted, List.mem_append, or_imp, forall_and]
        at hold hnew
      exact ⟨s.lowers_of_filed ctx hscopes (fun h => absurd h hp) hold.1 hnew.1,
        lowersAll_of_filed ctx (.resolve hp ctx s hscopes) hp rest hold.2 hnew.2⟩

theorem Stmt.lowersFunction_of_filed
    {p : Gap}
    {scopes scopes' : Scopes}
    (ctx : Context)
    (hscopes : scopes.Inset p scopes') :
    ∀ decl : FunctionDecl, (∀ v ∈ Stmt.visitsFunction ctx scopes decl, v.Good L.old) →
      (∀ v ∈ Stmt.visitsFunction ctx scopes' (Stmt.shiftedFunction n decl), v.Filed L.new) →
      Stmt.LowersFunction L n p decl
  | .mk _ params body, hold, hnew =>
      lowersAll_of_filed ctx ((hscopes.inside []).declareParams p.inner_ne_zero params)
        p.inner_ne_zero body (fun v hv => hold v (List.mem_cons_of_mem _ hv))
        fun v hv => hnew v (List.mem_cons_of_mem _ hv)

/-- Methods, with the scopes from that of `this` outward. -/
theorem Stmt.lowersMethods_of_filed
    {p : Gap}
    {scopes scopes' : Scopes}
    (ctx : Context)
    (hscopes : scopes.Inset p.inner scopes') :
    ∀ methods : List FunctionDecl, (∀ v ∈ Stmt.visitsMethods ctx scopes methods, v.Good L.old) →
      (∀ v ∈ Stmt.visitsMethods ctx scopes' (Stmt.shiftedMethods n methods), v.Filed L.new) →
      Stmt.LowersMethods L n p methods
  | [], _, _ => trivial
  | .mk name params body :: rest, hold, hnew => by
      simp only [shiftedMethods, visitsMethods, List.mem_append, or_imp, forall_and] at hold hnew
      exact ⟨lowersFunction_of_filed _ hscopes (.mk name params body) hold.1 hnew.1,
        lowersMethods_of_filed ctx hscopes rest hold.2 hnew.2⟩

end

end Moved

end Lox
