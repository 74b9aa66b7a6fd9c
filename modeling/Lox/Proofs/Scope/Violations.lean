import Lox.Proofs.Grammar.WellFormed
import Lox.Proofs.Scope.Surroundings

/-!
# Violations of the scope rules

The scope rules as rules about positions: `Violation` says of a node, by its address alone, that it
breaks one of them.  Name resolution reports exactly these violations, each once and in the order of
the addresses, for every program that can be read, whatever else is wrong with it.

The surroundings of a node decide what is reported at it, and they fit its address; so it remains to
put the reports of all nodes in order, which is an induction over the parts of the program.
-/

namespace Lox

/-- The node at an address breaks a rule. -/
inductive Violation (program : Part) : Address → ScopeError → Prop where
  /-- A local scope has a name already, from a declaration further in front. -/
  | redeclared {p q scope : Address} {name earlier : Token}
      (hdeclares : program.Declares p name)
      (hscope : (program.scopesAround p).head? = some scope)
      (hearlier : program.Declares q earlier)
      (hsame : (program.scopesAround q).head? = some scope)
      (hbefore : q < p)
      (hname : earlier.lexeme = name.lexeme) :
      Violation program p ⟨name, .redeclared⟩
  /-- A local variable is read in its own initializer. -/
  | ownInitializer {p : Address} {id : Nat} {name : Token}
      (hread : program.at? p = some (.expr (.var id name)))
      (hinside : program.Initializing p name.lexeme) :
      Violation program p ⟨name, .ownInitializer⟩
  | topLevelReturn {p : Address} {keyword : Token} {value : Option Expr}
      (hreturn : program.at? p = some (.stmt (.ret keyword value)))
      (houtside : program.innermost? Part.isFunction p = none) :
      Violation program p ⟨keyword, .topLevelReturn⟩
  | initializerReturn {p : Address} {keyword : Token} {value : Expr} {decl : FunctionDecl}
      (hreturn : program.at? p = some (.stmt (.ret keyword (some value))))
      (hinside : program.innermost? Part.isFunction p = some (.function .method decl))
      (hname : decl.name.lexeme = initializerName) :
      Violation program p ⟨keyword, .initializerReturn⟩
  | selfInheritance {p : Address} {id : Nat} {name parent : Token}
      (hsuperclass : program.at? p = some (.superclass name (.var id parent)))
      (hname : parent.lexeme = name.lexeme) :
      Violation program p ⟨parent, .selfInheritance⟩
  | thisOutsideClass {p : Address} {id : Nat} {keyword : Token}
      (hthis : program.at? p = some (.expr (.this id keyword)))
      (houtside : program.innermost? Part.isClassBody p = none) :
      Violation program p ⟨keyword, .thisOutsideClass⟩
  | superOutsideClass {p : Address} {id : Nat} {keyword method : Token}
      (hsuper : program.at? p = some (.expr (.super id keyword method)))
      (houtside : program.innermost? Part.isClassBody p = none) :
      Violation program p ⟨keyword, .superOutsideClass⟩
  | superWithoutSuperclass {p : Address} {id : Nat} {keyword method : Token}
      {methods : List FunctionDecl}
      (hsuper : program.at? p = some (.expr (.super id keyword method)))
      (hinside : program.innermost? Part.isClassBody p = some (.classBody false methods)) :
      Violation program p ⟨keyword, .superWithoutSuperclass⟩

theorem Violation.exists_part
    {program : Part}
    {p : Address}
    {error : ScopeError}
    (h : Violation program p error) :
    ∃ part, program.at? p = some part := by
  cases h with
  | redeclared hdeclares =>
      obtain ⟨part, hpart, -⟩ := Option.bind_eq_some_iff.mp hdeclares
      exact ⟨part, hpart⟩
  | ownInitializer hpart =>
      exact ⟨_, hpart⟩
  | topLevelReturn hpart =>
      exact ⟨_, hpart⟩
  | initializerReturn hpart =>
      exact ⟨_, hpart⟩
  | selfInheritance hpart =>
      exact ⟨_, hpart⟩
  | thisOutsideClass hpart =>
      exact ⟨_, hpart⟩
  | superOutsideClass hpart =>
      exact ⟨_, hpart⟩
  | superWithoutSuperclass hpart =>
      exact ⟨_, hpart⟩

section AtNode

variable {program part : Part}
variable {p : Address}
variable {around : Surroundings}

/-- Nothing is declared directly in the body of a class, nor around it. -/
theorem Part.Shaped.not_declares_inClass
    {q scope : Address}
    {name : Token}
    {holder : Part}
    (hshaped : program.Shaped)
    (hdeclares : program.Declares q name)
    (hscope : (program.scopesAround q).head? = some scope)
    (hholder : program.at? scope = some holder) :
    holder.isClassBody = false ∧ ∀ methods, holder ≠ .inheritance methods := by
  obtain ⟨k, rfl⟩ := hshaped.eq_snoc_of_declares hdeclares hscope
  rw [Declares, at?_snoc, hholder] at hdeclares
  obtain ⟨child, hchild, hdeclared⟩ := Option.bind_eq_some_iff.mp hdeclares
  have hmem : child ∈ holder.children := List.mem_of_getElem? hchild
  constructor
  · cases holder with
    | classBody derived methods =>
        obtain ⟨decl, -, rfl⟩ := List.mem_map.mp hmem
        cases hdeclared
    | _ =>
        rfl
  · rintro methods rfl
    rw [List.mem_singleton.mp hmem] at hdeclared
    cases hdeclared

/-- The innermost scope has the names that are declared in it further in front. -/
theorem Surroundings.Fits.innermost?_isSome
    {token : Token}
    (hshaped : program.Shaped)
    (h : around.Fits program p)
    (hdeclares : program.Declares p token)
    (name : String) :
    (around.scopes.innermost? name).isSome = true ↔
      ∃ scope q earlier, (program.scopesAround p).head? = some scope ∧
        program.Declares q earlier ∧ (program.scopesAround q).head? = some scope ∧ q < p ∧
        earlier.lexeme = name := by
  have hscopes := h.scopes
  have hclass : ∀ scope holder, (program.scopesAround p).head? = some scope →
      program.at? scope = some holder →
      holder.isClassBody = false ∧ ∀ methods, holder ≠ .inheritance methods :=
    fun _ _ => hshaped.not_declares_inClass hdeclares
  generalize program.scopesAround p = list at hscopes hclass ⊢
  generalize around.scopes = scopes at hscopes
  cases hscopes with
  | nil =>
      simp [Scopes.innermost?]
  | @cons names scope outer rest hagrees houter =>
      simp only [Scopes.innermost?, hagrees name, List.head?_cons, Option.some.injEq]
      constructor
      · intro hbefore
        cases hbefore with
        | this hscope =>
            exact absurd (hclass scope _ rfl hscope).1 (by simp [Part.isClassBody])
        | super hscope =>
            exact absurd rfl ((hclass scope _ rfl hscope).2 _)
        | declared hearlier hsame hbefore =>
            exact ⟨_, _, _, rfl, hearlier, hsame, hbefore, rfl⟩
      · rintro ⟨_, q, earlier, rfl, hearlier, hsame, hbefore, rfl⟩
        exact .declared hearlier hsame hbefore

theorem mem_clash
    {scopes : Scopes}
    {name : Token}
    {error : ScopeError} :
    .fault error ∈ scopes.clash name ↔
      (scopes.innermost? name.lexeme).isSome = true ∧ error = ⟨name, .redeclared⟩ := by
  unfold Scopes.clash
  split <;> simp_all

/-- A declaration is faulty if it is a redeclaration. -/
theorem mem_clash_iff
    {name : Token}
    {error : ScopeError}
    (hshaped : program.Shaped)
    (h : around.Fits program p)
    (hdeclares : program.Declares p name) :
    .fault error ∈ around.scopes.clash name ↔
      error = ⟨name, .redeclared⟩ ∧ Violation program p ⟨name, .redeclared⟩ := by
  rw [mem_clash, h.innermost?_isSome hshaped hdeclares]
  constructor
  · rintro ⟨⟨scope, q, earlier, hscope, hearlier, hsame, hbefore, hname⟩, rfl⟩
    exact ⟨rfl, .redeclared hdeclares hscope hearlier hsame hbefore hname⟩
  · rintro ⟨rfl, hviolation⟩
    cases hviolation with
    | redeclared _ hscope hearlier hsame hbefore hname =>
        exact ⟨⟨_, _, _, hscope, hearlier, hsame, hbefore, hname⟩, rfl⟩

theorem mem_unreadable_iff
    {name : Token}
    {error : ScopeError}
    (h : around.Fits program p) :
    .fault error ∈ around.scopes.unreadable name ↔
      error = ⟨name, .ownInitializer⟩ ∧ program.Initializing p name.lexeme := by
  rw [← h.unreadable]
  unfold Scopes.unreadable
  split <;> simp_all

theorem faults_of_declared
    {name : Token}
    (h : part.declared? = some name) :
    part.faults around = around.scopes.clash name := by
  cases part with
  | stmt s =>
      cases s with
      | var token initializer =>
          cases h
          rfl
      | function decl =>
          cases h
          rfl
      | classDecl token superclass methods =>
          cases h
          rfl
      | _ =>
          cases h
  | param token =>
      cases h
      rfl
  | _ =>
      cases h

/-- What the rules forbid at an address is reported at the node there. -/
theorem mem_faults_of_violation
    {error : ScopeError}
    (hshaped : program.Shaped)
    (hpart : program.at? p = some part)
    (h : around.Fits program p)
    (hviolation : Violation program p error) :
    .fault error ∈ part.faults around := by
  cases hviolation with
  | redeclared hdeclares hscope hearlier hsame hbefore hname =>
      have hclash := (mem_clash_iff hshaped h hdeclares).mpr
        ⟨rfl, .redeclared hdeclares hscope hearlier hsame hbefore hname⟩
      rw [Part.Declares, hpart] at hdeclares
      rw [faults_of_declared hdeclares]
      exact hclash
  | ownInitializer hread hinside =>
      cases hpart.symm.trans hread
      exact (mem_unreadable_iff h).mpr ⟨rfl, hinside⟩
  | topLevelReturn hreturn houtside =>
      cases hpart.symm.trans hreturn
      simp [Part.faults, returnFaults, h.function_eq_none_iff.mpr houtside]
  | initializerReturn hreturn hinside hname =>
      cases hpart.symm.trans hreturn
      simp [Part.faults, returnFaults, h.function_eq_initializer_iff.mpr ⟨_, hinside, hname⟩]
  | selfInheritance hsuperclass hname =>
      cases hpart.symm.trans hsuperclass
      simp [Part.faults, selfInheritance, hname]
  | thisOutsideClass hthis houtside =>
      cases hpart.symm.trans hthis
      simp [Part.faults, h.cls_eq_none_iff.mpr houtside]
  | superOutsideClass hsuper houtside =>
      cases hpart.symm.trans hsuper
      simp [Part.faults, h.cls_eq_none_iff.mpr houtside]
  | superWithoutSuperclass hsuper hinside =>
      cases hpart.symm.trans hsuper
      simp [Part.faults, h.cls_eq_plain_iff.mpr ⟨_, hinside⟩]

/-- What is reported at a node is forbidden at its address. -/
theorem violation_of_mem_faults
    {error : ScopeError}
    (hshaped : program.Shaped)
    (hpart : program.at? p = some part)
    (h : around.Fits program p)
    (hmem : .fault error ∈ part.faults around) :
    Violation program p error := by
  unfold Part.faults at hmem
  split at hmem
  · obtain ⟨rfl, hinside⟩ := (mem_unreadable_iff h).mp hmem
    exact .ownInitializer hpart hinside
  · split at hmem
    · rename_i hcls
      cases List.mem_singleton.mp hmem
      exact .thisOutsideClass hpart (h.cls_eq_none_iff.mp hcls)
    · cases hmem
  · split at hmem
    · rename_i hcls
      cases List.mem_singleton.mp hmem
      exact .superOutsideClass hpart (h.cls_eq_none_iff.mp hcls)
    · rename_i hcls
      cases List.mem_singleton.mp hmem
      obtain ⟨methods, hinside⟩ := h.cls_eq_plain_iff.mp hcls
      exact .superWithoutSuperclass hpart hinside
    · cases hmem
  · rename_i keyword value
    rcases List.mem_append.mp hmem with hmem | hmem
    · split at hmem
      · rename_i hfunction
        cases List.mem_singleton.mp hmem
        exact .topLevelReturn hpart (h.function_eq_none_iff.mp hfunction)
      · cases hmem
    · split at hmem
      · rename_i hfunction
        obtain ⟨hvalue, hfunction⟩ := hfunction
        cases List.mem_singleton.mp hmem
        obtain ⟨decl, hinside, hname⟩ := h.function_eq_initializer_iff.mp hfunction
        obtain ⟨value, rfl⟩ := Option.isSome_iff_exists.mp hvalue
        exact .initializerReturn hpart hinside hname
      · cases hmem
  · unfold selfInheritance at hmem
    split at hmem
    · split at hmem
      · rename_i hname
        cases List.mem_singleton.mp hmem
        exact .selfInheritance hpart hname
      · cases hmem
    · cases hmem
  · split at hmem
    · cases hmem
    · rename_i name hdeclared
      have hdeclares : program.Declares p name := by
        rw [Part.Declares, hpart]
        exact hdeclared
      obtain ⟨rfl, hviolation⟩ := (mem_clash_iff hshaped h hdeclares).mp hmem
      exact hviolation

theorem length_faults
    (around : Surroundings)
    (part : Part) :
    (part.faults around).length ≤ 1 := by
  unfold Part.faults
  split
  · unfold Scopes.unreadable
    split <;> simp
  · split <;> simp
  · split <;> simp
  · unfold returnFaults
    split
    · rename_i hfunction
      simp [hfunction]
    · split <;> simp
  · unfold selfInheritance
    split
    · split <;> simp
    · simp
  · split
    · simp
    · unfold Scopes.clash
      split <;> simp

end AtNode

section InOrder

/-- The error that a finding reports. -/
def Finding.error? : Finding → Option ScopeError
  | .bound _ _ => none
  | .fault error => some error

/-- The errors of a part, each with its address below the part, in order. -/
structure Part.Located (around : Surroundings) (part : Part)
    (located : List (Address × ScopeError)) : Prop where
  ordered : located.Pairwise fun v w => v.1 < w.1
  complete : ∀ p error, (p, error) ∈ located ↔
    ∃ child, around.reach? part p = some child ∧ .fault error ∈ child.2.faults child.1
  errors : (part.findings around).filterMap Finding.error? = located.map Prod.snd

/-- The errors of parts, each with its address, where the first part is the child with a number. -/
structure Part.LocatedAll (k : Nat) (parts : List (Surroundings × Part))
    (located : List (Address × ScopeError)) : Prop where
  ordered : located.Pairwise fun v w => v.1 < w.1
  complete : ∀ p error, (p, error) ∈ located ↔
    ∃ i r part child, p = (k + i) :: r ∧ parts[i]? = some part ∧
      part.1.reach? part.2 r = some child ∧ .fault error ∈ child.2.faults child.1
  errors : (findingsAll parts).filterMap Finding.error? = located.map Prod.snd

namespace Part

theorem LocatedAll.nil
    (k : Nat) :
    LocatedAll k [] [] where
  ordered := .nil
  complete := by
    simp
  errors := rfl

theorem Located.cons
    {k : Nat}
    {part : Surroundings × Part}
    {parts : List (Surroundings × Part)}
    {first others : List (Address × ScopeError)}
    (hfirst : part.2.Located part.1 first)
    (hothers : LocatedAll (k + 1) parts others) :
    LocatedAll k (part :: parts) (first.map (fun v => (k :: v.1, v.2)) ++ others) where
  ordered := by
    rw [List.pairwise_append, List.pairwise_map]
    refine ⟨hfirst.ordered.imp ?_, hothers.ordered, ?_⟩
    · intro v w hlt
      exact List.cons_lt_cons_iff.mpr (.inr ⟨rfl, hlt⟩)
    · intro v hv w hw
      obtain ⟨v, -, rfl⟩ := List.mem_map.mp hv
      obtain ⟨i, r, -, -, hp, -⟩ := (hothers.complete w.1 w.2).mp hw
      rw [hp]
      exact List.cons_lt_cons_iff.mpr (.inl (by omega))
  complete := by
    intro p error
    rw [List.mem_append, List.mem_map, hothers.complete]
    constructor
    · rintro (⟨v, hv, heq⟩ | ⟨i, r, part', child, rfl, hpart, hreach, hfault⟩)
      · cases heq
        obtain ⟨child, hreach, hfault⟩ := (hfirst.complete v.1 v.2).mp hv
        exact ⟨0, v.1, part, child, rfl, rfl, hreach, hfault⟩
      · exact ⟨i + 1, r, part', child, by rw [Nat.add_assoc, Nat.add_comm 1 i], hpart, hreach, hfault⟩
    · rintro ⟨i, r, part', child, rfl, hpart, hreach, hfault⟩
      cases i with
      | zero =>
          cases hpart
          exact .inl ⟨(r, error), (hfirst.complete r error).mpr ⟨child, hreach, hfault⟩, rfl⟩
      | succ i =>
          exact .inr ⟨i, r, part', child, by rw [Nat.add_assoc, Nat.add_comm 1 i], hpart, hreach, hfault⟩
  errors := by
    rw [List.map_append, List.map_map, ← hothers.errors]
    have herrors := hfirst.errors
    simp only [findingsAll, List.flatMap_cons, List.filterMap_append, herrors]
    rfl

theorem mem_errors
    {findings : List Finding}
    {error : ScopeError} :
    error ∈ findings.filterMap Finding.error? ↔ .fault error ∈ findings := by
  rw [List.mem_filterMap]
  constructor
  · rintro ⟨finding, hmem, herror⟩
    cases finding with
    | bound id distance =>
        cases herror
    | fault error' =>
        cases herror
        exact hmem
  · intro hmem
    exact ⟨_, hmem, rfl⟩

theorem errors_entries
    (around : Surroundings)
    (part : Part) :
    (part.entries around).filterMap Finding.error? = [] := by
  have hbinding : ∀ (scopes : Scopes) (id : Nat) (name : Token),
      (scopes.binding id name).filterMap Finding.error? = [] := by
    intro scopes id name
    unfold Scopes.binding
    split <;> rfl
  unfold entries
  split
  · exact hbinding _ _ _
  · exact hbinding _ _ _
  · split
    · rfl
    · exact hbinding _ _ _
  · exact hbinding _ _ _
  · rfl

/-- The errors of a part are its own, if there is one, and those of its children. -/
theorem Located.of_children
    {around : Surroundings}
    {part : Part}
    {located : List (Address × ScopeError)}
    (hshaped : part.Shaped)
    (h : LocatedAll 0 (around.inside part) located) :
    part.Located around
      (((part.faults around).filterMap Finding.error?).map (fun error => ([], error)) ++
        located) where
  ordered := by
    have hlength : ((part.faults around).filterMap Finding.error?).length ≤ 1 :=
      (List.length_filterMap_le _ _).trans (length_faults around part)
    rw [List.pairwise_append]
    refine ⟨?_, h.ordered, ?_⟩
    · generalize (part.faults around).filterMap Finding.error? = own at hlength
      match own with
      | [] =>
          exact .nil
      | [error] =>
          exact List.pairwise_singleton _ _
    · intro v hv w hw
      obtain ⟨error, -, rfl⟩ := List.mem_map.mp hv
      obtain ⟨i, r, -, -, hp, -⟩ := (h.complete w.1 w.2).mp hw
      rw [hp]
      exact List.nil_lt_cons _ _
  complete := by
    intro p error
    rw [List.mem_append, h.complete]
    cases p with
    | nil =>
        simp [Surroundings.reach?, ← mem_errors]
    | cons i r =>
        constructor
        · rintro (hmem | ⟨j, r', child, grandchild, heq, hchild, hreach, hfault⟩)
          · simp at hmem
          · rw [Nat.zero_add] at heq
            obtain ⟨rfl, rfl⟩ := List.cons.inj heq
            exact ⟨grandchild, Option.bind_eq_some_iff.mpr ⟨child, hchild, hreach⟩, hfault⟩
        · rintro ⟨grandchild, hreach, hfault⟩
          obtain ⟨child, hchild, hreach⟩ := Option.bind_eq_some_iff.mp hreach
          exact .inr ⟨i, r, child, grandchild, by rw [Nat.zero_add], hchild, hreach, hfault⟩
  errors := by
    rw [findings_eq around hshaped, List.filterMap_append, List.filterMap_append, errors_entries,
      List.append_nil, h.errors, List.map_append, List.map_map]
    simp [Function.comp_def]

/-- The errors of every part can be put in order. -/
theorem exists_located
    (around : Surroundings)
    (part : Part)
    (hshaped : part.Shaped) :
    ∃ located, part.Located around located := by
  have hchildren : ∀ child ∈ around.inside part, ∃ located, child.2.Located child.1 located := by
    intro child hchild
    have hmem := Surroundings.mem_children_of_inside hchild
    have hlt := weight_child part child.2 hmem
    exact exists_located child.1 child.2 (hshaped.child hmem)
  have hall : ∀ k, ∃ located, LocatedAll k (around.inside part) located := by
    generalize around.inside part = parts at hchildren
    induction parts with
    | nil =>
        exact fun k => ⟨[], .nil k⟩
    | cons child rest ih =>
        intro k
        obtain ⟨first, hfirst⟩ := hchildren child List.mem_cons_self
        obtain ⟨others, hothers⟩ := ih (fun c hc => hchildren c (List.mem_cons_of_mem _ hc)) (k + 1)
        exact ⟨_, hfirst.cons hothers⟩
  obtain ⟨located, hlocated⟩ := hall 0
  exact ⟨_, .of_children hshaped hlocated⟩
termination_by part.weight

end Part

end InOrder

/-- Name resolution reports exactly the violations of the scope rules, one for one and in the order
of their addresses. -/
theorem resolution_reports_violations
    (ts : List Token)
    (endLine : Nat) :
    ∃ violations : List (Address × ScopeError),
      violations.Pairwise (fun v w => v.1 < w.1) ∧
      (∀ p error, (p, error) ∈ violations ↔
        Violation (.program (Grammar.readProgram ts endLine).result) p error) ∧
      (Resolution.ofProgram (Grammar.readProgram ts endLine).result).errors =
        violations.map Prod.snd := by
  have hshaped : (Part.program (Grammar.readProgram ts endLine).result).Shaped :=
    (Grammar.readProgram_fits ts endLine).shaped
  generalize (Grammar.readProgram ts endLine).result = statements at hshaped
  obtain ⟨violations, hlocated⟩ := Part.exists_located .topLevel (.program statements) hshaped
  refine ⟨violations, hlocated.ordered, ?_, ?_⟩
  · intro p error
    rw [hlocated.complete]
    constructor
    · rintro ⟨⟨around, part⟩, hreach, hfault⟩
      have hpart : (Part.program statements).at? p = some part := by
        rw [← Surroundings.map_snd_reach? .topLevel, hreach]
        rfl
      have hfits := Surroundings.fits_of_reach? hshaped rfl (.topLevel statements) hreach
      exact violation_of_mem_faults hshaped hpart hfits hfault
    · intro hviolation
      obtain ⟨part, hpart⟩ := hviolation.exists_part
      obtain ⟨around, hreach, hfits⟩ := Surroundings.exists_reach? hshaped hpart
      exact ⟨_, hreach, mem_faults_of_violation hshaped hpart hfits hviolation⟩
  · rw [← hlocated.errors]
    rfl

end Lox
