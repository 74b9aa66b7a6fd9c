import Lox.Proofs.Rename.Declared
import Mathlib.Logic.Equiv.Basic

/-!
# Name resolution of renamed programs

Name resolution finds in a renamed program just what it finds in the old one.  The scopes that are
open differ in one place only: in the scope of the renamed declaration, the old and the new name are
exchanged.
-/

namespace Lox

/-- The scopes have no such name. -/
def Scopes.Lacks (scopes : Scopes) (name : String) : Prop :=
  ∀ scope ∈ scopes, scope.lookup name = none

namespace Renaming

/-- Exchanges the two names. -/
def swap (ρ : Renaming) : Equiv.Perm String :=
  Equiv.swap ρ.old ρ.new

/-- What a declared name becomes. -/
def name (ρ : Renaming) (place : Place) (n : String) : String :=
  if place = some 0 then ρ.swap n else n

/-- The scopes that are open in the renamed program. -/
def scopes (ρ : Renaming) : Place → Scopes → Scopes
  | some 0, scope :: outer => (scope.map fun entry => (ρ.swap entry.1, entry.2)) :: outer
  | some (d + 1), scope :: outer => scope :: ρ.scopes (some d) outer
  | _, open_ => open_

variable (ρ : Renaming)

theorem swap_old : ρ.swap ρ.old = ρ.new :=
  Equiv.swap_apply_left ρ.old ρ.new

theorem swap_new : ρ.swap ρ.new = ρ.old :=
  Equiv.swap_apply_right ρ.old ρ.new

theorem swap_of_ne
    {n : String}
    (hold : n ≠ ρ.old)
    (hnew : n ≠ ρ.new) :
    ρ.swap n = n :=
  Equiv.swap_apply_of_ne_of_ne hold hnew

theorem lexeme_declared
    {t : Token}
    (hnew : t.lexeme ≠ ρ.new)
    (place : Place) :
    (ρ.declared place t).lexeme = ρ.name place t.lexeme := by
  unfold declared name
  by_cases hplace : place = some 0
  · by_cases hold : t.lexeme = ρ.old
    · simp [hplace, hold, token, swap_old]
    · simp [hplace, hold, swap_of_ne ρ hold hnew]
  · simp [hplace]

/-- Other names stay as they are. -/
theorem name_of_ne
    {n : String}
    {place : Place}
    (hold : place = some 0 → n ≠ ρ.old)
    (hnew : n ≠ ρ.new) :
    ρ.name place n = n := by
  unfold name
  split
  · rename_i hplace
    exact ρ.swap_of_ne (hold hplace) hnew
  · rfl

section Scopes

variable {scopes : Scopes}

theorem scopes_none (scopes : Scopes) : ρ.scopes none scopes = scopes := by
  cases scopes <;> rfl

theorem scopes_nil (place : Place) : ρ.scopes place [] = [] := by
  rcases place with _ | _ | d <;> rfl

theorem lookup_map_swap
    (scope : Scope)
    (n : String) :
    List.lookup (ρ.swap n) (scope.map fun entry => (ρ.swap entry.1, entry.2)) =
      scope.lookup n := by
  induction scope with
  | nil =>
      rfl
  | cons entry rest ih =>
      obtain ⟨key, readable⟩ := entry
      have hbeq : (ρ.swap n == ρ.swap key) = (n == key) := by
        rw [Bool.eq_iff_iff]
        simp [ρ.swap.injective.eq_iff]
      simp only [List.map_cons, List.lookup_cons, hbeq, ih]

/-- A new scope, which may be that of the renamed declaration. -/
theorem scopes_push
    {place inner : Place}
    (hopens : place.Opens inner)
    (scopes : Scopes) :
    ρ.scopes inner ([] :: scopes) = [] :: ρ.scopes place scopes := by
  rcases hopens with rfl | ⟨rfl, rfl⟩
  · cases place with
    | none =>
        simp only [Place.inner, Option.map_none, scopes_none]
    | some d =>
        rfl
  · rw [scopes_none]
    rfl

theorem scopes_methodScopes
    (place : Place)
    (scopes : Scopes)
    (hasSuperclass : Bool) :
    ρ.scopes (place.inClass hasSuperclass) (Stmt.methodScopes scopes hasSuperclass) =
      Stmt.methodScopes (ρ.scopes place scopes) hasSuperclass := by
  have hscope : ∀ (place : Place) (scope : Scope) (scopes : Scopes),
      ρ.scopes place.inner (scope :: scopes) = scope :: ρ.scopes place scopes := by
    intro place scope scopes
    cases place with
    | none =>
        simp only [Place.inner, Option.map_none, scopes_none]
    | some d =>
        rfl
  cases hasSuperclass with
  | false =>
      exact hscope place _ _
  | true =>
      exact (hscope place.inner _ _).trans (congrArg _ (hscope place _ _))

theorem scopes_add
    (place : Place)
    (scopes : Scopes)
    (n : String)
    (readable : Bool) :
    (ρ.scopes place scopes).add (ρ.name place n) readable =
      ρ.scopes place (scopes.add n readable) := by
  rcases place with _ | _ | d
  · simp only [scopes_none]
    rfl
  · cases scopes <;> simp [Renaming.scopes, Scopes.add, name]
  · cases scopes <;> simp [Renaming.scopes, Scopes.add, name]

theorem innermost?_scopes
    (place : Place)
    (scopes : Scopes)
    (n : String) :
    (ρ.scopes place scopes).innermost? (ρ.name place n) = scopes.innermost? n := by
  rcases place with _ | _ | d
  · rw [scopes_none]
    rfl
  · cases scopes with
    | nil =>
        rfl
    | cons scope outer =>
        exact ρ.lookup_map_swap scope n
  · cases scopes <;> rfl

/-- A reference finds its scope where it found it before. -/
theorem distance?_scopes
    {n : String}
    (hlacks : scopes.Lacks ρ.new)
    (hnew : n ≠ ρ.new)
    (place : Place) :
    (ρ.scopes place scopes).distance?
      (if n = ρ.old ∧ place.isSome ∧ scopes.distance? n = place then ρ.new else n) =
      scopes.distance? n := by
  induction scopes generalizing place with
  | nil =>
      rw [scopes_nil]
      rfl
  | cons scope outer ih =>
      have hscope : scope.lookup ρ.new = none := hlacks scope List.mem_cons_self
      have houter : Scopes.Lacks outer ρ.new :=
        fun s hs => hlacks s (List.mem_cons_of_mem _ hs)
      rcases place with _ | _ | d
      · simp [scopes_none]
      · by_cases hold : n = ρ.old
        · subst hold
          have hmapped := ρ.lookup_map_swap scope ρ.old
          have hmapped' := ρ.lookup_map_swap scope ρ.new
          rw [swap_old] at hmapped
          rw [swap_new, hscope] at hmapped'
          cases hlookup : scope.lookup ρ.old with
          | some readable =>
              rw [hlookup] at hmapped
              simp [Renaming.scopes, Scopes.distance?, hlookup, hmapped]
          | none =>
              simp [Renaming.scopes, Scopes.distance?, hlookup, hmapped']
        · have hmapped := ρ.lookup_map_swap scope n
          rw [ρ.swap_of_ne hold hnew] at hmapped
          simp [Renaming.scopes, Scopes.distance?, hold, hmapped]
      · have hrest := ih houter (some d)
        cases hlookup : scope.lookup n with
        | some readable =>
            simp [Renaming.scopes, Scopes.distance?, hlookup]
        | none =>
            simp only [Renaming.scopes, Scopes.distance?, hlookup, Option.isSome_none,
              Bool.false_eq_true, if_false, Option.isSome_some, true_and] at hrest ⊢
            have hiff : (Scopes.distance? outer n).map (· + 1) = some (d + 1) ↔
                Scopes.distance? outer n = some d := by
              simp
            simp only [hiff]
            by_cases hthere : n = ρ.old ∧ Scopes.distance? outer n = some d
            · rw [if_pos hthere] at hrest ⊢
              simp [hscope, hrest]
            · rw [if_neg hthere] at hrest ⊢
              simp [hlookup, hrest]

end Scopes

end Renaming

/-- Neither name is `this` or `super`. -/
structure Renaming.Proper (ρ : Renaming) : Prop where
  old : Ordinary ρ.old
  new : Ordinary ρ.new

section Findings

variable {ρ : Renaming}
variable {ctx : Context}
variable {scopes : Scopes}
variable {place : Place}

theorem clash_eq_nil
    {name : Token}
    (h : scopes.innermost? name.lexeme = none) :
    scopes.clash name = [] := by
  simp [Scopes.clash, h]

theorem clash_declared
    {name : Token}
    (hnew : name.lexeme ≠ ρ.new)
    (h : scopes.innermost? name.lexeme = none) :
    (ρ.scopes place scopes).clash (ρ.declared place name) = [] := by
  apply clash_eq_nil
  rw [ρ.lexeme_declared hnew, ρ.innermost?_scopes, h]

theorem clash_other
    {name : Token}
    (hold : place = some 0 → name.lexeme ≠ ρ.old)
    (hnew : name.lexeme ≠ ρ.new)
    (h : scopes.innermost? name.lexeme = none) :
    (ρ.scopes place scopes).clash name = [] := by
  apply clash_eq_nil
  rw [← ρ.name_of_ne hold hnew, ρ.innermost?_scopes, h]

theorem Renaming.lexeme_reference
    (place : Place)
    (id : Nat)
    (name : Token) :
    (ρ.reference place id name).lexeme =
      if name.lexeme = ρ.old ∧ place.isSome ∧ ρ.locals.get? id = place then ρ.new
      else name.lexeme := by
  unfold reference
  split <;> rfl

/-- A reference files the same distance under its other name. -/
theorem binding_reference
    {id : Nat}
    {name : Token}
    (hlacks : scopes.Lacks ρ.new)
    (hnew : name.lexeme ≠ ρ.new)
    (hget : ρ.locals.get? id = scopes.distance? name.lexeme) :
    (ρ.scopes place scopes).binding id (ρ.reference place id name) = scopes.binding id name := by
  have hdistance := ρ.distance?_scopes hlacks hnew place
  rw [← hget, ← Renaming.lexeme_reference, hget] at hdistance
  simp only [Scopes.binding, hdistance]

theorem binding_keyword
    {id : Nat}
    {keyword : Token}
    (hρ : ρ.Proper)
    (hlacks : scopes.Lacks ρ.new)
    (hkeyword : ¬ Ordinary keyword.lexeme) :
    (ρ.scopes place scopes).binding id keyword = scopes.binding id keyword := by
  have hold : keyword.lexeme ≠ ρ.old := fun h => hkeyword (h ▸ hρ.old)
  have hnew : keyword.lexeme ≠ ρ.new := fun h => hkeyword (h ▸ hρ.new)
  have hdistance := ρ.distance?_scopes hlacks hnew place
  rw [if_neg (fun h => hold h.1)] at hdistance
  simp only [Scopes.binding, hdistance]

/-- A reference that could be read can be read under its other name. -/
theorem unreadable_reference
    {id : Nat}
    {name : Token}
    (hlacks : scopes.Lacks ρ.new)
    (hnew : name.lexeme ≠ ρ.new)
    (hget : ρ.locals.get? id = scopes.distance? name.lexeme)
    (hread : scopes.innermost? name.lexeme ≠ some false) :
    (ρ.scopes place scopes).unreadable (ρ.reference place id name) = [] := by
  have hinner : (ρ.scopes place scopes).innermost? (ρ.reference place id name).lexeme
      ≠ some false := by
    cases scopes with
    | nil =>
        rw [ρ.scopes_nil]
        simp [Scopes.innermost?]
    | cons scope outer =>
        have hscope : scope.lookup ρ.new = none := hlacks scope List.mem_cons_self
        rw [Renaming.lexeme_reference, hget]
        rcases place with _ | _ | d
        · simpa [ρ.scopes_none] using hread
        · have hmapped := ρ.innermost?_scopes (some 0) (scope :: outer)
          simp only [Renaming.name, if_true] at hmapped
          by_cases hold : name.lexeme = ρ.old
          · by_cases hhere : Scopes.distance? (scope :: outer) name.lexeme = some 0
            · rw [if_pos ⟨hold, rfl, hhere⟩, ← ρ.swap_old, hmapped, ← hold]
              exact hread
            · rw [if_neg (fun h => hhere h.2.2), hold, ← ρ.swap_new, hmapped]
              simp [Scopes.innermost?, hscope]
          · rw [if_neg (fun h => hold h.1), ← ρ.swap_of_ne hold hnew, hmapped]
            exact hread
        · simp only [Renaming.scopes, Scopes.innermost?] at hread ⊢
          split
          · rw [hscope]
            simp
          · exact hread
  simp [Scopes.unreadable, hinner]

theorem findings_var
    {id : Nat}
    {name : Token}
    (hgood : Visit.Good ρ.locals ⟨ctx, scopes, .expr (.var id name)⟩)
    (hnew : name.lexeme ≠ ρ.new)
    (hlacks : scopes.Lacks ρ.new) :
    (Expr.rename ρ place (.var id name)).findings ctx (ρ.scopes place scopes) =
      (Expr.var id name).findings ctx scopes := by
  have hget := hgood.var.2.1
  have hread : scopes.innermost? name.lexeme ≠ some false := by
    intro hfalse
    apply hgood.sound ⟨name, .ownInitializer⟩
    simp [Visit.findings, Expr.findings, Scopes.unreadable, hfalse]
  simp only [Expr.rename, Expr.findings, unreadable_reference hlacks hnew hget hread,
    binding_reference hlacks hnew hget]
  simp [Scopes.unreadable, hread]

mutual

/-- In a renamed expression the same is found. -/
theorem findings_rename
    (place : Place)
    (hρ : ρ.Proper)
    (hlacks : scopes.Lacks ρ.new) :
    ∀ e : Expr, (∀ v ∈ e.visits ctx scopes, v.Good ρ.locals) →
      (∀ t ∈ e.tokens, t.lexeme ≠ ρ.new) →
      (e.rename ρ place).findings ctx (ρ.scopes place scopes) = e.findings ctx scopes
  | .literal _, _, _ => rfl
  | .grouping inner, hgood, hnew => by
      simp only [Expr.rename, Expr.findings]
      exact findings_rename place hρ hlacks inner (fun v hv => hgood v (List.mem_append_left _ hv)) hnew
  | .unary _ right, hgood, hnew => by
      simp only [Expr.rename, Expr.findings]
      exact findings_rename place hρ hlacks right (fun v hv => hgood v (List.mem_append_left _ hv))
        fun t ht => hnew t (List.mem_cons_of_mem _ ht)
  | .binary left _ right, hgood, hnew => by
      simp only [Expr.rename, Expr.findings]
      rw [findings_rename place hρ hlacks left (fun v hv => hgood v (List.mem_append_left _ hv))
          fun t ht => hnew t (List.mem_append_left _ ht),
        findings_rename place hρ hlacks right
          (fun v hv => hgood v (List.mem_append_right _ (List.mem_append_left _ hv)))
          fun t ht => hnew t (List.mem_append_right _ (List.mem_cons_of_mem _ ht))]
  | .logical left _ right, hgood, hnew => by
      simp only [Expr.rename, Expr.findings]
      rw [findings_rename place hρ hlacks left (fun v hv => hgood v (List.mem_append_left _ hv))
          fun t ht => hnew t (List.mem_append_left _ ht),
        findings_rename place hρ hlacks right
          (fun v hv => hgood v (List.mem_append_right _ (List.mem_append_left _ hv)))
          fun t ht => hnew t (List.mem_append_right _ (List.mem_cons_of_mem _ ht))]
  | .var id name, hgood, hnew =>
      findings_var (hgood _ List.mem_cons_self) (hnew name List.mem_cons_self) hlacks
  | .assign id name value, hgood, hnew => by
      have hself := hgood _ (List.mem_append_right _ List.mem_cons_self)
      simp only [Expr.rename, Expr.findings]
      rw [findings_rename place hρ hlacks value (fun v hv => hgood v (List.mem_append_left _ hv))
          fun t ht => hnew t (List.mem_cons_of_mem _ ht),
        binding_reference hlacks (hnew name List.mem_cons_self) hself.assign.2]
  | .call callee _ arguments, hgood, hnew => by
      simp only [Expr.rename, Expr.findings]
      rw [findings_rename place hρ hlacks callee (fun v hv => hgood v (List.mem_append_left _ hv))
          fun t ht => hnew t (List.mem_append_left _ ht),
        findings_renameAll place hρ hlacks arguments
          (fun v hv => hgood v (List.mem_append_right _ (List.mem_append_left _ hv)))
          fun t ht => hnew t (List.mem_append_right _ (List.mem_append_left _ ht))]
  | .get object _, hgood, hnew => by
      simp only [Expr.rename, Expr.findings]
      exact findings_rename place hρ hlacks object (fun v hv => hgood v (List.mem_append_left _ hv))
        fun t ht => hnew t (List.mem_append_left _ ht)
  | .set object _ value, hgood, hnew => by
      simp only [Expr.rename, Expr.findings]
      rw [findings_rename place hρ hlacks value (fun v hv => hgood v (List.mem_append_left _ hv))
          fun t ht => hnew t (List.mem_append_right _ (List.mem_cons_of_mem _ ht)),
        findings_rename place hρ hlacks object
          (fun v hv => hgood v (List.mem_append_right _ (List.mem_append_left _ hv)))
          fun t ht => hnew t (List.mem_append_left _ ht)]
  | .this id keyword, hgood, _ => by
      have hself := (hgood _ List.mem_cons_self).this.1
      have hbinding : (ρ.scopes place scopes).binding id keyword = scopes.binding id keyword :=
        binding_keyword hρ hlacks (by simp [Ordinary, hself])
      simp only [Expr.rename, Expr.findings, hbinding]
  | .super id keyword method, hgood, _ => by
      have hself := (hgood _ List.mem_cons_self).super.1
      have hbinding : (ρ.scopes place scopes).binding id keyword = scopes.binding id keyword :=
        binding_keyword hρ hlacks (by simp [Ordinary, hself])
      simp only [Expr.rename, Expr.findings, hbinding]

theorem findings_renameAll
    (place : Place)
    (hρ : ρ.Proper)
    (hlacks : scopes.Lacks ρ.new) :
    ∀ es : List Expr, (∀ v ∈ Expr.visitsAll ctx scopes es, v.Good ρ.locals) →
      (∀ t ∈ Expr.tokensAll es, t.lexeme ≠ ρ.new) →
      Expr.findingsAll ctx (ρ.scopes place scopes) (Expr.renameAll ρ place es) =
        Expr.findingsAll ctx scopes es
  | [], _, _ => rfl
  | e :: rest, hgood, hnew => by
      simp only [Expr.renameAll, Expr.findingsAll]
      rw [findings_rename place hρ hlacks e (fun v hv => hgood v (List.mem_append_left _ hv))
          fun t ht => hnew t (List.mem_append_left _ ht),
        findings_renameAll place hρ hlacks rest (fun v hv => hgood v (List.mem_append_right _ hv))
          fun t ht => hnew t (List.mem_append_right _ ht)]

end

theorem findings_renameOption
    (place : Place)
    (hρ : ρ.Proper)
    (hlacks : scopes.Lacks ρ.new)
    {value : Option Expr}
    (hgood : ∀ v ∈ Expr.visitsOption ctx scopes value, v.Good ρ.locals)
    (hnew : ∀ t ∈ Expr.tokensOption value, t.lexeme ≠ ρ.new) :
    Expr.findingsOption ctx (ρ.scopes place scopes) (Expr.renameOption ρ place value) =
      Expr.findingsOption ctx scopes value := by
  cases value with
  | none =>
      rfl
  | some e =>
      exact findings_rename place hρ hlacks e hgood hnew

end Findings

section Lacks

variable {name : String}

theorem Scopes.Lacks.push
    {scopes : Scopes}
    (h : scopes.Lacks name) :
    Scopes.Lacks ([] :: scopes) name := by
  intro scope hscope
  rcases List.mem_cons.mp hscope with rfl | hscope
  · rfl
  · exact h scope hscope

theorem Scopes.Lacks.add
    {scopes : Scopes}
    (h : scopes.Lacks name)
    {other : String}
    (hne : other ≠ name)
    (readable : Bool) :
    (scopes.add other readable).Lacks name := by
  cases scopes with
  | nil =>
      exact h
  | cons scope outer =>
      intro scope' hscope'
      rcases List.mem_cons.mp hscope' with rfl | hscope'
      · rw [Scopes.lookup_cons_of_ne fun heq => hne heq.symm]
        exact h scope List.mem_cons_self
      · exact h scope' (List.mem_cons_of_mem _ hscope')

theorem Scopes.Lacks.declare_define
    {scopes : Scopes}
    (h : scopes.Lacks name)
    {token : Token}
    (hne : token.lexeme ≠ name) :
    ((scopes.declare token).define token).Lacks name :=
  (h.add hne false).add hne true

theorem Scopes.Lacks.declareParams
    {scopes : Scopes}
    (h : scopes.Lacks name)
    {params : List Token}
    (hne : ∀ p ∈ params, p.lexeme ≠ name) :
    (scopes.declareParams params).Lacks name := by
  induction params generalizing scopes with
  | nil =>
      exact h
  | cons p rest ih =>
      exact ih (h.add (hne p List.mem_cons_self) true)
        fun q hq => hne q (List.mem_cons_of_mem _ hq)

theorem Scopes.Lacks.methodScopes
    {scopes : Scopes}
    (h : scopes.Lacks name)
    (hname : Ordinary name)
    (hasSuperclass : Bool) :
    Scopes.Lacks (Stmt.methodScopes scopes hasSuperclass) name := by
  have hword : ∀ word, ¬ Ordinary word → List.lookup name [(word, true)] = none := by
    intro word hword
    have hne : name ≠ word := fun heq => hword (heq ▸ hname)
    rw [Scopes.lookup_cons_of_ne hne]
    rfl
  intro scope hscope
  unfold Stmt.methodScopes at hscope
  rcases List.mem_cons.mp hscope with rfl | hscope
  · exact hword "this" (by simp [Ordinary])
  · cases hasSuperclass with
    | false =>
        exact h scope hscope
    | true =>
        rcases List.mem_cons.mp hscope with rfl | hscope
        · exact hword "super" (by simp [Ordinary])
        · exact h scope hscope

/-- Behind a statement the scopes have no name that the statement has not. -/
theorem Stmt.lacks_resolve
    (ctx : Context) :
    ∀ (s : Stmt) {scopes : Scopes}, scopes.Lacks name → (∀ t ∈ s.tokens, t.lexeme ≠ name) →
      (s.resolve ctx scopes).1.Lacks name
  | .expression _, _, h, _ => h
  | .print _, _, h, _ => h
  | .var token _, _, h, hne => h.declare_define (hne token List.mem_cons_self)
  | .block _, _, h, _ => h
  | .ifThen _ thenBranch, _, h, hne =>
      lacks_resolve ctx thenBranch h fun t ht => hne t (List.mem_append_right _ ht)
  | .ifElse _ thenBranch elseBranch, _, h, hne =>
      lacks_resolve ctx elseBranch
        (lacks_resolve ctx thenBranch h
          fun t ht => hne t (List.mem_append_right _ (List.mem_append_left _ ht)))
        fun t ht => hne t (List.mem_append_right _ (List.mem_append_right _ ht))
  | .loop _ body, _, h, hne =>
      lacks_resolve ctx body h fun t ht => hne t (List.mem_append_right _ ht)
  | .function (.mk token _ _), _, h, hne => h.declare_define (hne token List.mem_cons_self)
  | .ret _ _, _, h, _ => h
  | .classDecl token none _, _, h, hne => h.declare_define (hne token List.mem_cons_self)
  | .classDecl token (some _) _, _, h, hne => h.declare_define (hne token List.mem_cons_self)

end Lacks

section Resolve

variable {ρ : Renaming}

theorem declare_define_declared
    {name : Token}
    (hnew : name.lexeme ≠ ρ.new)
    (place : Place)
    (scopes : Scopes) :
    ((ρ.scopes place scopes).declare (ρ.declared place name)).define (ρ.declared place name) =
      ρ.scopes place ((scopes.declare name).define name) := by
  simp only [Scopes.declare, Scopes.define, ρ.lexeme_declared hnew, ρ.scopes_add]

theorem declare_define_other
    {place : Place}
    {name : Token}
    (hold : place = some 0 → name.lexeme ≠ ρ.old)
    (hnew : name.lexeme ≠ ρ.new)
    (scopes : Scopes) :
    ((ρ.scopes place scopes).declare name).define name =
      ρ.scopes place ((scopes.declare name).define name) := by
  have hname := ρ.name_of_ne hold hnew
  simp only [Scopes.declare, Scopes.define, ← ρ.scopes_add, hname]

theorem declareParams_declared
    {params : List Token}
    (hnew : ∀ p ∈ params, p.lexeme ≠ ρ.new)
    (place : Place)
    (scopes : Scopes) :
    (ρ.scopes place scopes).declareParams (params.map (ρ.declared place)) =
      ρ.scopes place (scopes.declareParams params) := by
  induction params generalizing scopes with
  | nil =>
      rfl
  | cons p rest ih =>
      simp only [List.map_cons, Scopes.declareParams, Scopes.define,
        ρ.lexeme_declared (hnew p List.mem_cons_self), ρ.scopes_add]
      exact ih (fun q hq => hnew q (List.mem_cons_of_mem _ hq)) _

/-- All findings of parameters are faults. -/
theorem fault_of_mem_paramClashes
    {scopes : Scopes}
    {params : List Token}
    {finding : Finding}
    (h : finding ∈ scopes.paramClashes params) :
    ∃ error, finding = .fault error := by
  induction params generalizing scopes with
  | nil =>
      cases h
  | cons p rest ih =>
      rcases List.mem_append.mp h with h | h
      · unfold Scopes.clash at h
        split at h
        · exact ⟨_, List.mem_singleton.mp h⟩
        · cases h
      · exact ih h

theorem Visit.Good.paramClashes
    {locals : Locals}
    {ctx : Context}
    {scopes : Scopes}
    {decl : FunctionDecl}
    (h : Visit.Good locals ⟨ctx, scopes, .function decl⟩) :
    Scopes.paramClashes ([] :: scopes) decl.params = [] := by
  rw [List.eq_nil_iff_forall_not_mem]
  intro finding hmem
  obtain ⟨error, rfl⟩ := fault_of_mem_paramClashes hmem
  exact h.sound error hmem

theorem paramClashes_declared
    (place : Place)
    {params : List Token}
    {scopes : Scopes}
    (hnew : ∀ p ∈ params, p.lexeme ≠ ρ.new)
    (h : scopes.paramClashes params = []) :
    (ρ.scopes place scopes).paramClashes (params.map (ρ.declared place)) = [] := by
  induction params generalizing scopes with
  | nil =>
      rfl
  | cons p rest ih =>
      have hp := hnew p List.mem_cons_self
      simp only [Scopes.paramClashes, List.append_eq_nil_iff] at h
      have hnone : scopes.innermost? p.lexeme = none := by
        apply scopes.not_mem_clash p
        simp [h.1]
      have hrest := ih (fun q hq => hnew q (List.mem_cons_of_mem _ hq)) h.2
      simp only [List.map_cons, Scopes.paramClashes, clash_declared hp hnone, List.nil_append]
      simpa only [Scopes.define, ρ.lexeme_declared hp, ρ.scopes_add] using hrest

theorem returnFaults_renameOption
    (ctx : Context)
    (keyword : Token)
    (place : Place)
    (value : Option Expr) :
    returnFaults ctx keyword (Expr.renameOption ρ place value) =
      returnFaults ctx keyword value := by
  cases value <;> rfl

theorem selfInheritance_rename
    {name : Token}
    {superclass : Expr}
    {place : Place}
    (hname : name.lexeme ≠ ρ.new)
    (hvar : ∃ id parent, superclass = .var id parent ∧ parent.lexeme ≠ name.lexeme) :
    selfInheritance name (superclass.rename ρ place) = selfInheritance name superclass := by
  obtain ⟨id, parent, rfl, hne⟩ := hvar
  have hne' : (ρ.reference place id parent).lexeme ≠ name.lexeme := by
    rw [Renaming.lexeme_reference]
    split
    · exact fun h => hname h.symm
    · exact hne
  simp only [Expr.rename, selfInheritance, if_neg hne, if_neg hne']

theorem AlikeFunction.name_eq
    {place : Place}
    {decl decl' : FunctionDecl}
    (h : AlikeFunction ρ place decl decl') :
    decl'.name = decl.name := by
  cases h
  rfl

theorem Stmt.name_mem_tokensFunction
    (decl : FunctionDecl) :
    decl.name ∈ Stmt.tokensFunction decl := by
  cases decl
  exact List.mem_cons_self

mutual

/-- Resolving the renamed statement gives the renamed scopes, and finds the same. -/
theorem Alike.resolve
    (hρ : ρ.Proper) :
    ∀ {place : Place} {s s' : Stmt}, Alike ρ place s s' → ∀ {ctx : Context} {scopes : Scopes},
      (∀ v ∈ s.visits ctx scopes, v.Good ρ.locals) → (∀ t ∈ s.tokens, t.lexeme ≠ ρ.new) →
      scopes.Lacks ρ.new →
      s'.resolve ctx (ρ.scopes place scopes) =
        (ρ.scopes place (s.resolve ctx scopes).1, (s.resolve ctx scopes).2)
  | _, _, _, .expression place e, ctx, scopes, hgood, hnew, hlacks => by
      simp only [Stmt.resolve]
      rw [findings_rename place hρ hlacks e (fun v hv => hgood v (List.mem_cons_of_mem _ hv)) hnew]
  | _, _, _, .print place e, ctx, scopes, hgood, hnew, hlacks => by
      simp only [Stmt.resolve]
      rw [findings_rename place hρ hlacks e (fun v hv => hgood v (List.mem_cons_of_mem _ hv)) hnew]
  | _, _, _, .var place name initializer, ctx, scopes, hgood, hnew, hlacks => by
      have hname := hnew name List.mem_cons_self
      have hnone := (hgood _ List.mem_cons_self).varDecl.2
      have hinner : (ρ.scopes place scopes).declare (ρ.declared place name) =
          ρ.scopes place (scopes.declare name) := by
        simp only [Scopes.declare, ρ.lexeme_declared hname, ρ.scopes_add]
      have hfindings := findings_renameOption place hρ (hlacks.add hname false)
        (fun v hv => hgood v (List.mem_cons_of_mem _ hv))
        fun t ht => hnew t (List.mem_cons_of_mem _ ht)
      rw [← Scopes.declare, ← hinner] at hfindings
      simp only [Stmt.resolve, clash_declared hname hnone, clash_eq_nil hnone, hfindings]
      rw [declare_define_declared hname]
  | _, _, _, .block hopens hbody, ctx, scopes, hgood, hnew, hlacks => by
      have hrest := hbody.resolve hρ (fun v hv => hgood v (List.mem_cons_of_mem _ hv)) hnew
        hlacks.push
      rw [ρ.scopes_push hopens] at hrest
      simp only [Stmt.resolve, hrest]
  | place, _, _, .ifThen condition hthen, ctx, scopes, hgood, hnew, hlacks => by
      simp only [Stmt.resolve]
      rw [findings_rename place hρ hlacks condition
          (fun v hv => hgood v (List.mem_cons_of_mem _ (List.mem_append_left _ hv)))
          fun t ht => hnew t (List.mem_append_left _ ht),
        hthen.resolve hρ
          (fun v hv => hgood v (List.mem_cons_of_mem _ (List.mem_append_right _ hv)))
          (fun t ht => hnew t (List.mem_append_right _ ht)) hlacks]
  | place, _, _, .ifElse condition hthen helse, ctx, scopes, hgood, hnew, hlacks => by
      have hlacks' := Stmt.lacks_resolve ctx _ hlacks
        fun t ht => hnew t (List.mem_append_right _ (List.mem_append_left _ ht))
      simp only [Stmt.resolve]
      rw [findings_rename place hρ hlacks condition
          (fun v hv => hgood v (List.mem_cons_of_mem _ (List.mem_append_left _ hv)))
          fun t ht => hnew t (List.mem_append_left _ ht),
        hthen.resolve hρ
          (fun v hv => hgood v (List.mem_cons_of_mem _
            (List.mem_append_right _ (List.mem_append_left _ hv))))
          (fun t ht => hnew t (List.mem_append_right _ (List.mem_append_left _ ht))) hlacks,
        helse.resolve hρ
          (fun v hv => hgood v (List.mem_cons_of_mem _
            (List.mem_append_right _ (List.mem_append_right _ hv))))
          (fun t ht => hnew t (List.mem_append_right _ (List.mem_append_right _ ht))) hlacks']
  | place, _, _, .loop condition hbody, ctx, scopes, hgood, hnew, hlacks => by
      simp only [Stmt.resolve]
      rw [findings_rename place hρ hlacks condition
          (fun v hv => hgood v (List.mem_cons_of_mem _ (List.mem_append_left _ hv)))
          fun t ht => hnew t (List.mem_append_left _ ht),
        hbody.resolve hρ
          (fun v hv => hgood v (List.mem_cons_of_mem _ (List.mem_append_right _ hv)))
          (fun t ht => hnew t (List.mem_append_right _ ht)) hlacks]
  | _, _, _, .function hname hopens hdecl, ctx, scopes, hgood, hnew, hlacks => by
      have hnew' := hnew _ (Stmt.name_mem_tokensFunction _)
      have hnone := (hgood _ List.mem_cons_self).function.2
      have hbody := hdecl.resolve hρ hopens (fun v hv => hgood v (List.mem_cons_of_mem _ hv)) hnew
        (hlacks.declare_define hnew')
      simp only [Stmt.resolve, hdecl.name_eq, declare_define_other hname hnew',
        clash_other hname hnew' hnone, clash_eq_nil hnone, hbody]
  | _, _, _, .ret place keyword value, ctx, scopes, hgood, hnew, hlacks => by
      simp only [Stmt.resolve, returnFaults_renameOption]
      rw [findings_renameOption place hρ hlacks (fun v hv => hgood v (List.mem_cons_of_mem _ hv))
        fun t ht => hnew t (List.mem_cons_of_mem _ ht)]
  | place, _, _, .classDecl none hname hmethods, ctx, scopes, hgood, hnew, hlacks => by
      have hnew' := hnew _ List.mem_cons_self
      have hnone := (hgood _ List.mem_cons_self).classDecl.2
      have hbodies := hmethods.resolve hρ (fun v hv => hgood v (List.mem_cons_of_mem _ hv))
        (fun t ht => hnew t (List.mem_cons_of_mem _ (List.mem_append_right _ ht)))
        ((hlacks.declare_define hnew').methodScopes hρ.new false)
      rw [Option.isSome_none, ρ.scopes_methodScopes] at hbodies
      simp only [Stmt.resolve, Expr.renameOption, declare_define_other hname hnew',
        clash_other hname hnew' hnone, clash_eq_nil hnone, hbodies]
  | place, _, _, .classDecl (some superclass) hname hmethods, ctx, scopes, hgood, hnew, hlacks => by
      have hnew' := hnew _ List.mem_cons_self
      have hself := hgood _ List.mem_cons_self
      have hnone := hself.classDecl.2
      have hparent := findings_rename place hρ (hlacks.declare_define hnew') superclass
        (fun v hv => hgood v (List.mem_cons_of_mem _ (List.mem_append_left _ hv)))
        fun t ht => hnew t (List.mem_cons_of_mem _ (List.mem_append_left _ ht))
      have hbodies := hmethods.resolve hρ
        (fun v hv => hgood v (List.mem_cons_of_mem _ (List.mem_append_right _ hv)))
        (fun t ht => hnew t (List.mem_cons_of_mem _ (List.mem_append_right _ ht)))
        ((hlacks.declare_define hnew').methodScopes hρ.new true)
      rw [Option.isSome_some, ρ.scopes_methodScopes] at hbodies
      simp only [Stmt.resolve, Expr.renameOption, declare_define_other hname hnew',
        clash_other hname hnew' hnone, clash_eq_nil hnone, selfInheritance_rename hnew'
        hself.superclass, hparent, hbodies]

theorem AlikeAll.resolve
    (hρ : ρ.Proper) :
    ∀ {place : Place} {body body' : List Stmt}, AlikeAll ρ place body body' →
      ∀ {ctx : Context} {scopes : Scopes},
      (∀ v ∈ Stmt.visitsAll ctx scopes body, v.Good ρ.locals) →
      (∀ t ∈ Stmt.tokensAll body, t.lexeme ≠ ρ.new) → scopes.Lacks ρ.new →
      Stmt.resolveAll ctx (ρ.scopes place scopes) body' =
        (ρ.scopes place (Stmt.resolveAll ctx scopes body).1,
          (Stmt.resolveAll ctx scopes body).2)
  | _, _, _, .nil place, ctx, scopes, _, _, _ => rfl
  | _, _, _, .cons hfirst hrest, ctx, scopes, hgood, hnew, hlacks => by
      have hfirst' := hfirst.resolve hρ (fun v hv => hgood v (List.mem_append_left _ hv))
        (fun t ht => hnew t (List.mem_append_left _ ht)) hlacks
      have hlacks' := Stmt.lacks_resolve ctx _ hlacks
        fun t ht => hnew t (List.mem_append_left _ ht)
      have hrest' := hrest.resolve hρ (fun v hv => hgood v (List.mem_append_right _ hv))
        (fun t ht => hnew t (List.mem_append_right _ ht)) hlacks'
      simp only [Stmt.resolveAll, hfirst', hrest']

theorem AlikeFunction.resolve
    (hρ : ρ.Proper) :
    ∀ {inner : Place} {decl decl' : FunctionDecl}, AlikeFunction ρ inner decl decl' →
      ∀ {place : Place} {ctx : Context} {scopes : Scopes}, place.Opens inner →
      (∀ v ∈ Stmt.visitsFunction ctx scopes decl, v.Good ρ.locals) →
      (∀ t ∈ Stmt.tokensFunction decl, t.lexeme ≠ ρ.new) → scopes.Lacks ρ.new →
      Stmt.resolveFunction ctx (ρ.scopes place scopes) decl' =
        Stmt.resolveFunction ctx scopes decl
  | inner, _, _, .mk name params hbody, place, ctx, scopes, hopens, hgood, hnew, hlacks => by
      have hparams : ∀ p ∈ params, p.lexeme ≠ ρ.new :=
        fun p hp => hnew p (List.mem_cons_of_mem _ (List.mem_append_left _ hp))
      have hclashes : Scopes.paramClashes ([] :: scopes) params = [] :=
        (hgood _ List.mem_cons_self).paramClashes
      have hbody' := hbody.resolve hρ (fun v hv => hgood v (List.mem_cons_of_mem _ hv))
        (fun t ht => hnew t (List.mem_cons_of_mem _ (List.mem_append_right _ ht)))
        (hlacks.push.declareParams hparams)
      rw [← declareParams_declared hparams, ρ.scopes_push hopens] at hbody'
      have hclashes' := paramClashes_declared inner hparams hclashes
      rw [ρ.scopes_push hopens] at hclashes'
      simp only [Stmt.resolveFunction, hbody', hclashes, hclashes']

theorem AlikeMethods.resolve
    (hρ : ρ.Proper) :
    ∀ {place : Place} {methods methods' : List FunctionDecl},
      AlikeMethods ρ place methods methods' → ∀ {ctx : Context} {scopes : Scopes},
      (∀ v ∈ Stmt.visitsMethods ctx scopes methods, v.Good ρ.locals) →
      (∀ t ∈ Stmt.tokensFunctions methods, t.lexeme ≠ ρ.new) → scopes.Lacks ρ.new →
      Stmt.resolveMethods ctx (ρ.scopes place scopes) methods' =
        Stmt.resolveMethods ctx scopes methods
  | _, _, _, .nil place, ctx, scopes, _, _, _ => rfl
  | _, _, _, .cons hopens hfirst hrest, ctx, scopes, hgood, hnew, hlacks => by
      have hfirst' := hfirst.resolve hρ hopens (fun v hv => hgood v (List.mem_append_left _ hv))
        (fun t ht => hnew t (List.mem_append_left _ ht)) hlacks
      have hrest' := hrest.resolve hρ (fun v hv => hgood v (List.mem_append_right _ hv))
        (fun t ht => hnew t (List.mem_append_right _ ht)) hlacks
      simp only [Stmt.resolveMethods, hfirst.name_eq, hfirst', hrest']

end

/-- Resolving a renamed program gives what resolving the old one gives. -/
theorem ofProgram_alike
    (hρ : ρ.Proper)
    {statements statements' : List Stmt}
    (halike : AlikeAll ρ none statements statements')
    (hgood : ∀ v ∈ Stmt.walk statements, v.Good ρ.locals)
    (hnew : ∀ t ∈ Stmt.tokensAll statements, t.lexeme ≠ ρ.new) :
    Resolution.ofProgram statements' = Resolution.ofProgram statements := by
  have hlacks : Scopes.Lacks [] ρ.new := by
    intro scope hscope
    cases hscope
  have hresolve := halike.resolve hρ hgood hnew hlacks
  simp only [ρ.scopes_none] at hresolve
  simp only [Resolution.ofProgram, hresolve]

end Resolve

end Lox
