import Lox.Proofs.Scope.Accepted
import Lox.Proofs.Scope.Surroundings

/-!
# Distances

The table of local references as lexical scoping: the entry of a reference is the number of scopes
around it that do not have its name in front of it, up to the first one that does.  A reference whose
name is in no scope around it has no entry, and nothing but references has one.
-/

namespace Lox

namespace Expr

/-- The number and the name of a reference. -/
def reference? : Expr → Option (Nat × Token)
  | .var id name => some (id, name)
  | .assign id name _ => some (id, name)
  | .this id keyword => some (id, keyword)
  | .super id keyword _ => some (id, keyword)
  | _ => none

def isThis : Expr → Bool
  | .this _ _ => true
  | _ => false

end Expr

namespace Part

/-- So many scopes are to be skipped from an address to the nearest one that has a name in front of
the address. -/
def Distance (program : Part) (p : Address) (name : String) (d : Nat) : Prop :=
  ∃ scope, (program.scopesAround p)[d]? = some scope ∧ program.DeclaredBefore scope p name ∧
    ∀ d' scope', d' < d → (program.scopesAround p)[d']? = some scope' →
      ¬ program.DeclaredBefore scope' p name

end Part

section AtNode

variable {program part : Part}
variable {p : Address}
variable {around : Surroundings}

/-- Distances in the open scopes are distances in the program. -/
theorem Surroundings.Fits.distance?_iff
    (h : around.Fits program p)
    (name : String)
    (d : Nat) :
    around.scopes.distance? name = some d ↔ program.Distance p name d := by
  have hscopes := h.scopes
  unfold Part.Distance
  generalize around.scopes = scopes at hscopes
  generalize program.scopesAround p = list at hscopes
  induction hscopes generalizing d with
  | nil =>
      simp [Scopes.distance?]
  | @cons names scope outer rest hagrees houter ih =>
      unfold Scopes.distance?
      split
      · rename_i hsome
        have hbefore := (hagrees name).mp hsome
        constructor
        · intro hd
          cases hd
          exact ⟨scope, rfl, hbefore, fun d' _ hd' => absurd hd' (Nat.not_lt_zero d')⟩
        · rintro ⟨_, _, _, hnone⟩
          cases d with
          | zero =>
              rfl
          | succ d =>
              exact absurd hbefore (hnone 0 scope (Nat.succ_pos d) rfl)
      · rename_i hnot
        have hbefore : ¬ program.DeclaredBefore scope p name := fun h => hnot ((hagrees name).mpr h)
        cases d with
        | zero =>
            simp [hbefore]
        | succ d =>
            simp only [Option.map_eq_some_iff, Nat.add_right_cancel_iff, exists_eq_right, ih,
              List.getElem?_cons_succ]
            constructor
            · rintro ⟨found, hfound, hdeclared, hnone⟩
              refine ⟨found, hfound, hdeclared, ?_⟩
              intro d' scope' hd' hscope'
              cases d' with
              | zero =>
                  cases hscope'
                  exact hbefore
              | succ d' =>
                  exact hnone d' scope' (Nat.lt_of_succ_lt_succ hd') hscope'
            · rintro ⟨found, hfound, hdeclared, hnone⟩
              refine ⟨found, hfound, hdeclared, ?_⟩
              intro d' scope' hd' hscope'
              exact hnone (d' + 1) scope' (Nat.succ_lt_succ hd') hscope'

theorem of_mem_binding
    {scopes : Scopes}
    {id id' d : Nat}
    {name : Token}
    (h : .bound id d ∈ scopes.binding id' name) :
    id = id' ∧ scopes.distance? name.lexeme = some d := by
  unfold Scopes.binding at h
  split at h
  · simp_all
  · cases h

/-- The entry at a reference is the distance of its name. -/
theorem mem_entries_iff
    {id d : Nat} :
    .bound id d ∈ part.entries around ↔
      ∃ e name, part = .expr e ∧ e.reference? = some (id, name) ∧
        around.scopes.distance? name.lexeme = some d ∧
        (e.isThis = true → around.ctx.cls ≠ .none) := by
  constructor
  · intro hmem
    unfold Part.entries at hmem
    split at hmem
    · obtain ⟨rfl, hdistance⟩ := of_mem_binding hmem
      exact ⟨_, _, rfl, rfl, hdistance, by simp [Expr.isThis]⟩
    · obtain ⟨rfl, hdistance⟩ := of_mem_binding hmem
      exact ⟨_, _, rfl, rfl, hdistance, by simp [Expr.isThis]⟩
    · split at hmem
      · cases hmem
      · rename_i hcls
        obtain ⟨rfl, hdistance⟩ := of_mem_binding hmem
        exact ⟨_, _, rfl, rfl, hdistance, fun _ => hcls⟩
    · obtain ⟨rfl, hdistance⟩ := of_mem_binding hmem
      exact ⟨_, _, rfl, rfl, hdistance, by simp [Expr.isThis]⟩
    · cases hmem
  · rintro ⟨e, name, rfl, hreference, hdistance, hclass⟩
    cases e with
    | var id' name' =>
        cases hreference
        exact Scopes.mem_binding.mpr hdistance
    | assign id' name' value =>
        cases hreference
        exact Scopes.mem_binding.mpr hdistance
    | this id' keyword =>
        cases hreference
        simp only [Part.entries, if_neg (hclass rfl)]
        exact Scopes.mem_binding.mpr hdistance
    | super id' keyword method =>
        cases hreference
        exact Scopes.mem_binding.mpr hdistance
    | _ =>
        cases hreference

end AtNode

section Numbers

namespace Part

/-- The numbers of the references in a part. -/
def ids : Part → List Nat
  | .program statements => Stmt.idsAll statements
  | .expr e => e.ids
  | .stmt s => s.ids
  | .param _ => []
  | .function _ decl => Stmt.idsFunction decl
  | .superclass _ parent => parent.ids
  | .inheritance methods => Stmt.idsFunctions methods
  | .classBody _ methods => Stmt.idsFunctions methods

/-- The number of the reference that a part is. -/
def ownId? : Part → Option Nat
  | .expr e => e.reference?.map Prod.fst
  | _ => none

theorem ids_exprs
    (es : List Expr) :
    (es.map Part.expr).flatMap ids = Expr.idsAll es := by
  induction es with
  | nil =>
      rfl
  | cons e rest ih =>
      exact congrArg (e.ids ++ ·) ih

theorem ids_ofOption
    (value : Option Expr) :
    (ofOption value).flatMap ids = Expr.idsOption value := by
  cases value with
  | none =>
      rfl
  | some e =>
      exact List.append_nil _

theorem ids_body
    (body : List Stmt) :
    (body.map Part.stmt).flatMap ids = Stmt.idsAll body := by
  induction body with
  | nil =>
      rfl
  | cons s rest ih =>
      exact congrArg (s.ids ++ ·) ih

theorem ids_methods
    (methods : List FunctionDecl) :
    (methods.map (Part.function .method)).flatMap ids = Stmt.idsFunctions methods := by
  induction methods with
  | nil =>
      rfl
  | cons decl rest ih =>
      exact congrArg (Stmt.idsFunction decl ++ ·) ih

theorem ids_params
    (params : List Token) :
    (params.map Part.param).flatMap ids = [] := by
  simp [ids]

/-- The references of a part are itself, if it is one, and those of its children. -/
theorem ids_perm
    (part : Part) :
    part.ids.Perm (part.ownId?.toList ++ part.children.flatMap ids) := by
  cases part with
  | program statements =>
      exact .of_eq (ids_body statements).symm
  | expr e =>
      cases e with
      | call callee paren arguments =>
          exact .of_eq (congrArg (callee.ids ++ ·) (ids_exprs arguments).symm)
      | set object name value =>
          simpa [children, ids, ownId?, Expr.ids, Expr.reference?] using List.perm_append_comm
      | _ =>
          simp [children, ids, ownId?, Expr.ids, Expr.reference?]
  | stmt s =>
      cases s with
      | var name initializer =>
          exact .of_eq (ids_ofOption initializer).symm
      | ret keyword value =>
          exact .of_eq (ids_ofOption value).symm
      | block body =>
          exact .of_eq (ids_body body).symm
      | classDecl name superclass methods =>
          cases superclass <;> simp [children, ids, ownId?, Stmt.ids, Expr.idsOption]
      | _ =>
          simp [children, ids, ownId?, Stmt.ids]
  | param name =>
      exact .refl _
  | function sort decl =>
      obtain ⟨name, params, body⟩ := decl
      rw [children, List.flatMap_append, ids_params]
      exact .of_eq (ids_body body).symm
  | superclass name parent =>
      exact .of_eq (List.append_nil _).symm
  | inheritance methods =>
      exact .of_eq (List.append_nil _).symm
  | classBody derived methods =>
      exact .of_eq (ids_methods methods).symm

/-- A part has the references of the parts in it. -/
theorem ids_at?
    {part child : Part}
    {p : Address}
    (hchild : part.at? p = some child) :
    child.ids ⊆ part.ids := by
  induction p generalizing part with
  | nil =>
      cases hchild
      exact List.Subset.refl _
  | cons i p ih =>
      obtain ⟨next, hnext, hchild⟩ := Option.bind_eq_some_iff.mp hchild
      intro id hid
      exact (ids_perm _).mem_iff.mpr (List.mem_append_right _
        (List.mem_flatMap.mpr ⟨next, List.mem_of_getElem? hnext, ih hchild hid⟩))

theorem mem_ids_of_at?
    {part child : Part}
    {p : Address}
    {id : Nat}
    (hchild : part.at? p = some child)
    (hid : child.ownId? = some id) :
    id ∈ part.ids :=
  ids_at? hchild ((ids_perm _).mem_iff.mpr (List.mem_append_left _ (by simp [hid])))

/-- If the references of a part have different numbers, so have those of its children, and none has
the number of the part. -/
theorem nodup_children
    {part : Part}
    (h : part.ids.Nodup) :
    (part.children.flatMap ids).Nodup ∧
      ∀ id, part.ownId? = some id → ∀ child ∈ part.children, id ∉ child.ids := by
  obtain ⟨-, hchildren, hown⟩ := List.nodup_append.mp (part.ids_perm.nodup_iff.mp h)
  refine ⟨hchildren, ?_⟩
  intro id hid child hchild hmem
  exact hown id (by simp [hid]) id (List.mem_flatMap.mpr ⟨child, hchild, hmem⟩) rfl

/-- A number tells the part of a list. -/
theorem index_unique
    {parts : List Part}
    {first second : Part}
    {i j id : Nat}
    (hnodup : (parts.flatMap ids).Nodup)
    (hfirst : parts[i]? = some first)
    (hsecond : parts[j]? = some second)
    (hid : id ∈ first.ids)
    (hid' : id ∈ second.ids) :
    i = j := by
  induction parts generalizing i j with
  | nil =>
      cases hfirst
  | cons part rest ih =>
      rw [List.flatMap_cons, List.nodup_append] at hnodup
      obtain ⟨-, hrest, hdisjoint⟩ := hnodup
      have hlater : ∀ {k : Nat} {later : Part}, rest[k]? = some later → id ∈ later.ids →
          id ∈ rest.flatMap ids :=
        fun hk hid => List.mem_flatMap.mpr ⟨_, List.mem_of_getElem? hk, hid⟩
      cases i with
      | zero =>
          cases hfirst
          cases j with
          | zero =>
              rfl
          | succ j =>
              exact absurd rfl (hdisjoint id hid id (hlater hsecond hid'))
      | succ i =>
          cases j with
          | zero =>
              cases hsecond
              exact absurd rfl (hdisjoint id hid' id (hlater hfirst hid))
          | succ j =>
              exact congrArg (· + 1) (ih hrest hfirst hsecond)

/-- A number tells the address. -/
theorem address_unique
    {part first second : Part}
    {p q : Address}
    {id : Nat}
    (hnodup : part.ids.Nodup)
    (hfirst : part.at? p = some first)
    (hsecond : part.at? q = some second)
    (hid : first.ownId? = some id)
    (hid' : second.ownId? = some id) :
    p = q := by
  induction p generalizing part q with
  | nil =>
      cases hfirst
      cases q with
      | nil =>
          rfl
      | cons j q =>
          obtain ⟨next, hnext, hsecond⟩ := Option.bind_eq_some_iff.mp hsecond
          exact absurd (mem_ids_of_at? hsecond hid')
            ((nodup_children hnodup).2 id hid next (List.mem_of_getElem? hnext))
  | cons i p ih =>
      obtain ⟨next, hnext, hbelow⟩ := Option.bind_eq_some_iff.mp hfirst
      have hmem := mem_ids_of_at? hbelow hid
      cases q with
      | nil =>
          cases hsecond
          exact absurd hmem ((nodup_children hnodup).2 id hid' next (List.mem_of_getElem? hnext))
      | cons j q =>
          obtain ⟨other, hother, hbelow'⟩ := Option.bind_eq_some_iff.mp hsecond
          obtain ⟨hchildren, -⟩ := nodup_children hnodup
          have hindex := index_unique hchildren hnext hother hmem (mem_ids_of_at? hbelow' hid')
          subst hindex
          rw [hnext] at hother
          cases hother
          have hnodup' := (List.nodup_flatMap.mp hchildren).1 next (List.mem_of_getElem? hnext)
          rw [ih hnodup' hbelow hbelow']

end Part

end Numbers

/-- What is found in a part is found at some address in it. -/
theorem Part.mem_findings_iff
    {finding : Finding}
    (around : Surroundings)
    (part : Part)
    (hshaped : part.Shaped) :
    finding ∈ part.findings around ↔
      ∃ p child, around.reach? part p = some child ∧
        (finding ∈ child.2.faults child.1 ∨ finding ∈ child.2.entries child.1) := by
  have hchildren : ∀ child ∈ around.inside part, finding ∈ child.2.findings child.1 ↔
      ∃ p grandchild, child.1.reach? child.2 p = some grandchild ∧
        (finding ∈ grandchild.2.faults grandchild.1 ∨
          finding ∈ grandchild.2.entries grandchild.1) := by
    intro child hchild
    have hmem := Surroundings.mem_children_of_inside hchild
    have hlt := weight_child part child.2 hmem
    exact mem_findings_iff child.1 child.2 (hshaped.child hmem)
  rw [findings_eq around hshaped, List.mem_append, List.mem_append, findingsAll, List.mem_flatMap]
  constructor
  · rintro ((hfault | ⟨child, hchild, hfinding⟩) | hentry)
    · exact ⟨[], _, rfl, .inl hfault⟩
    · obtain ⟨p, grandchild, hreach, hown⟩ := (hchildren child hchild).mp hfinding
      obtain ⟨i, hi⟩ := List.mem_iff_getElem?.mp hchild
      exact ⟨i :: p, grandchild, Option.bind_eq_some_iff.mpr ⟨child, hi, hreach⟩, hown⟩
    · exact ⟨[], _, rfl, .inr hentry⟩
  · rintro ⟨p, child, hreach, hown⟩
    cases p with
    | nil =>
        cases hreach
        exact hown.elim (fun h => .inl (.inl h)) .inr
    | cons i p =>
        obtain ⟨next, hnext, hreach⟩ := Option.bind_eq_some_iff.mp hreach
        have hmem : next ∈ around.inside part := List.mem_of_getElem? hnext
        exact .inl (.inr ⟨next, hmem, (hchildren next hmem).mpr ⟨p, child, hreach, hown⟩⟩)
termination_by part.weight

theorem bound_not_mem_faults
    (around : Surroundings)
    (part : Part)
    (id d : Nat) :
    .bound id d ∉ part.faults around := by
  unfold Part.faults
  split
  · unfold Scopes.unreadable
    split <;> simp
  · split <;> simp
  · split <;> simp
  · unfold returnFaults
    split <;> split <;> simp
  · unfold selfInheritance
    split
    · split <;> simp
    · simp
  · split
    · simp
    · unfold Scopes.clash
      split <;> simp

/-- The entries of the table are the distances of the references. -/
theorem get?_iff_exists_reference
    {statements : List Stmt}
    (hshaped : (Part.program statements).Shaped)
    (hnodup : (Part.program statements).ids.Nodup)
    (id d : Nat) :
    (Resolution.ofProgram statements).locals.get? id = some d ↔
      ∃ p e name, (Part.program statements).at? p = some (.expr e) ∧
        e.reference? = some (id, name) ∧
        (Part.program statements).Distance p name.lexeme d ∧
        (e.isThis = true → (Part.program statements).innermost? Part.isClassBody p ≠ none) := by
  have hentries : (((Stmt.resolveAll .topLevel [] statements).2.filterMap Finding.entry?).map
      Prod.fst).Nodup := by
    rw [resolveAll_eq_flatMap]
    exact nodup_entries ((ids_visits_body .topLevel [] statements).nodup_iff.mpr hnodup)
  have hfound : .bound id d ∈ (Stmt.resolveAll .topLevel [] statements).2 ↔ _ :=
    Part.mem_findings_iff .topLevel (.program statements) hshaped
  rw [Resolution.ofProgram, locals_ofFindings, Locals.get?_ofPairs hentries, mem_entries, hfound]
  constructor
  · rintro ⟨p, ⟨around, part⟩, hreach, hfault | hentry⟩
    · exact absurd hfault (bound_not_mem_faults around part id d)
    · obtain ⟨e, name, rfl, hreference, hdistance, hclass⟩ := mem_entries_iff.mp hentry
      have hpart : (Part.program statements).at? p = some (.expr e) := by
        rw [← Surroundings.map_snd_reach? .topLevel, hreach]
        rfl
      have hfits := Surroundings.fits_of_reach? hshaped rfl (.topLevel statements) hreach
      exact ⟨p, e, name, hpart, hreference, (hfits.distance?_iff _ _).mp hdistance,
        fun hthis => mt hfits.cls_eq_none_iff.mpr (hclass hthis)⟩
  · rintro ⟨p, e, name, hpart, hreference, hdistance, hclass⟩
    obtain ⟨around, hreach, hfits⟩ := Surroundings.exists_reach? hshaped hpart
    exact ⟨p, _, hreach, .inr (mem_entries_iff.mpr ⟨e, name, rfl, hreference,
      (hfits.distance?_iff _ _).mpr hdistance,
      fun hthis => mt hfits.cls_eq_none_iff.mp (hclass hthis)⟩)⟩

/-- The entry of a reference is its distance. -/
theorem get?_iff_distance
    {statements : List Stmt}
    {p : Address}
    {e : Expr}
    {id : Nat}
    {name : Token}
    (hshaped : (Part.program statements).Shaped)
    (hnodup : (Part.program statements).ids.Nodup)
    (hpart : (Part.program statements).at? p = some (.expr e))
    (hreference : e.reference? = some (id, name))
    (d : Nat) :
    (Resolution.ofProgram statements).locals.get? id = some d ↔
      (Part.program statements).Distance p name.lexeme d ∧
        (e.isThis = true →
          (Part.program statements).innermost? Part.isClassBody p ≠ none) := by
  rw [get?_iff_exists_reference hshaped hnodup]
  constructor
  · rintro ⟨p', e', name', hpart', hreference', hdistance, hclass⟩
    have hid : (Part.expr e).ownId? = some id := by
      simp [Part.ownId?, hreference]
    have hid' : (Part.expr e').ownId? = some id := by
      simp [Part.ownId?, hreference']
    have hsame : p = p' := Part.address_unique hnodup hpart hpart' hid hid'
    subst hsame
    rw [hpart] at hpart'
    cases hpart'
    rw [hreference] at hreference'
    cases hreference'
    exact ⟨hdistance, hclass⟩
  · rintro ⟨hdistance, hclass⟩
    exact ⟨p, e, name, hpart, hreference, hdistance, hclass⟩

/-- The table of local references is lexical scoping. -/
theorem locals_get?_iff_distance
    (ts : List Token)
    (endLine : Nat) :
    (∀ (p : Address) (e : Expr) (id : Nat) (name : Token) (d : Nat),
      (Part.program (Grammar.readProgram ts endLine).result).at? p = some (.expr e) →
      e.reference? = some (id, name) →
      ((Resolution.ofProgram (Grammar.readProgram ts endLine).result).locals.get? id = some d ↔
        (Part.program (Grammar.readProgram ts endLine).result).Distance p name.lexeme d ∧
          (e.isThis = true →
            (Part.program (Grammar.readProgram ts endLine).result).innermost? Part.isClassBody p ≠
              none))) ∧
    ∀ id d, (Resolution.ofProgram (Grammar.readProgram ts endLine).result).locals.get? id = some d →
      ∃ p e name, (Part.program (Grammar.readProgram ts endLine).result).at? p = some (.expr e) ∧
        e.reference? = some (id, name) := by
  have hread := Grammar.readProgram_fits ts endLine
  generalize (Grammar.readProgram ts endLine).result = statements at hread
  have hnodup : (Part.program statements).ids.Nodup := hread.fresh.nodup
  constructor
  · intro p e id name d hpart hreference
    exact get?_iff_distance hread.shaped hnodup hpart hreference d
  · intro id d hget
    obtain ⟨p, e, name, hpart, hreference, -⟩ :=
      (get?_iff_exists_reference hread.shaped hnodup id d).mp hget
    exact ⟨p, e, name, hpart, hreference⟩

/-- In `{var a;{print a;var a;}}`, the variable that is printed is the outer one: the inner block has
its own `a` only further behind. -/
theorem locals_get?_iff_distance_shadowed :
    let program := Part.program
      (Grammar.readProgram (Scan.ofSource "{var a;{print a;var a;}}").tokens 1).result
    program.at? [0, 1, 0, 0] = some (.expr (.var 0 ⟨.identifier, "a", 1⟩)) ∧
      program.Distance [0, 1, 0, 0] "a" 1 := by
  intro program
  have hread : (Grammar.readProgram (Scan.ofSource "{var a;{print a;var a;}}").tokens 1).result =
      [.block [.var ⟨.identifier, "a", 1⟩ none, .block [.print (.var 0 ⟨.identifier, "a", 1⟩),
        .var ⟨.identifier, "a", 1⟩ none]]] :=
    Grammar.readProgram_eq_of_same ⟨⟨trivial, ⟨trivial, trivial, trivial⟩, trivial⟩, trivial⟩
      (by decide +kernel)
  have hpart : program.at? [0, 1, 0, 0] = some (.expr (.var 0 ⟨.identifier, "a", 1⟩)) := by
    rw [show program = Part.program _ from congrArg Part.program hread]
    rfl
  have hget : (Resolution.ofProgram
      (Grammar.readProgram (Scan.ofSource "{var a;{print a;var a;}}").tokens 1).result).locals.get? 0
        = some 1 := by
    decide +kernel
  have hentry := (locals_get?_iff_distance (Scan.ofSource "{var a;{print a;var a;}}").tokens 1).1
    [0, 1, 0, 0] (.var 0 ⟨.identifier, "a", 1⟩) 0 ⟨.identifier, "a", 1⟩ 1 hpart rfl
  exact ⟨hpart, (hentry.mp hget).1⟩

end Lox
