import Lox.Proofs.Scope.Visits

/-!
# The table of local references

A table made of entries with different numbers holds exactly these entries.  The numbers of the
references in a tree are those that the walk of name resolution comes to, so if they are all
different, each reference has its own place in the table, and finds there what resolution filed
for it.
-/

namespace Lox

namespace Locals

theorem get?_empty (id : Nat) : empty.get? id = none := by
  simp [get?, empty]

theorem get?_insert
    (l : Locals)
    (id distance k : Nat) :
    (l.insert id distance).get? k = if k = id then some distance else l.get? k := by
  unfold insert get?
  rw [Array.getElem?_setIfInBounds]
  by_cases hk : k = id
  · subst hk
    have hroom : k < l.table.size + (k + 1 - l.table.size) := by
      omega
    simp [hroom]
  · rw [if_neg (fun h => hk h.symm), if_neg hk, Array.getElem?_append]
    split
    · rfl
    · rename_i hsize
      rw [Array.getElem?_eq_none (Nat.le_of_not_lt hsize), Array.getElem?_replicate]
      split <;> rfl

theorem get?_foldl_insert
    {entries : List (Nat × Nat)}
    (hnodup : (entries.map Prod.fst).Nodup)
    (l : Locals)
    (id : Nat) :
    (entries.foldl (fun l entry => l.insert entry.1 entry.2) l).get? id =
      ((entries.find? (·.1 = id)).map Prod.snd).or (l.get? id) := by
  induction entries generalizing l with
  | nil =>
      simp
  | cons entry rest ih =>
      obtain ⟨key, distance⟩ := entry
      simp only [List.map_cons, List.nodup_cons] at hnodup
      rw [List.foldl_cons, ih hnodup.2, get?_insert, List.find?_cons]
      by_cases hid : id = key
      · subst hid
        have hmissing : rest.find? (fun entry => decide (entry.1 = id)) = none := by
          rw [List.find?_eq_none]
          intro entry hentry hkey
          simp only [decide_eq_true_eq] at hkey
          exact hnodup.1 (hkey ▸ List.mem_map_of_mem hentry)
        simp [hmissing]
      · have hkey : key ≠ id := fun h => hid h.symm
        simp [hid, hkey]

/-- An entry that was added is found, if there was none before. -/
theorem get?_foldl_insert_iff
    {entries : List (Nat × Nat)}
    (hnodup : (entries.map Prod.fst).Nodup)
    {l : Locals}
    {id : Nat}
    (hnone : l.get? id = none)
    (distance : Nat) :
    (entries.foldl (fun l entry => l.insert entry.1 entry.2) l).get? id = some distance ↔
      (id, distance) ∈ entries := by
  rw [get?_foldl_insert hnodup, hnone, Option.or_none, Option.map_eq_some_iff]
  constructor
  · rintro ⟨⟨key, d⟩, hfind, rfl⟩
    have hkey := List.find?_some hfind
    simp only [decide_eq_true_eq] at hkey
    subst hkey
    exact List.mem_of_find?_eq_some hfind
  · intro hmem
    refine ⟨(id, distance), ?_, rfl⟩
    induction entries with
    | nil =>
        cases hmem
    | cons entry rest ih =>
        simp only [List.map_cons, List.nodup_cons] at hnodup
        rcases List.mem_cons.mp hmem with rfl | hmem
        · simp
        · have hne : entry.1 ≠ id := fun h => hnodup.1 (h ▸ List.mem_map_of_mem hmem)
          rw [List.find?_cons_of_neg (by simpa using hne)]
          exact ih hnodup.2 hmem

/-- All other entries stay. -/
theorem get?_foldl_insert_of_not_mem
    {entries : List (Nat × Nat)}
    (hnodup : (entries.map Prod.fst).Nodup)
    (l : Locals)
    {id : Nat}
    (hid : id ∉ entries.map Prod.fst) :
    (entries.foldl (fun l entry => l.insert entry.1 entry.2) l).get? id = l.get? id := by
  have hmissing : entries.find? (fun entry => decide (entry.1 = id)) = none := by
    rw [List.find?_eq_none]
    intro entry hentry hkey
    simp only [decide_eq_true_eq] at hkey
    exact hid (hkey ▸ List.mem_map_of_mem hentry)
  rw [get?_foldl_insert hnodup, hmissing]
  rfl

/-- A table of entries with different numbers holds exactly these entries. -/
theorem get?_ofPairs
    {entries : List (Nat × Nat)}
    (hnodup : (entries.map Prod.fst).Nodup)
    (id distance : Nat) :
    (ofPairs entries).get? id = some distance ↔ (id, distance) ∈ entries :=
  get?_foldl_insert_iff hnodup (get?_empty id) distance

end Locals

section Numbers

mutual

/-- The walk over an expression comes to each of its references once. -/
theorem ids_visits
    (ctx : Context)
    (scopes : Scopes) :
    ∀ e : Expr, ((e.visits ctx scopes).flatMap Visit.ids).Perm e.ids
  | .literal _ => by
      simp [Expr.visits, Expr.ids, Visit.ids]
  | .grouping inner => by
      simpa [Expr.visits, Expr.ids, Visit.ids] using ids_visits ctx scopes inner
  | .unary _ right => by
      simpa [Expr.visits, Expr.ids, Visit.ids] using ids_visits ctx scopes right
  | .binary left _ right => by
      simpa [Expr.visits, Expr.ids, Visit.ids] using
        (ids_visits ctx scopes left).append (ids_visits ctx scopes right)
  | .logical left _ right => by
      simpa [Expr.visits, Expr.ids, Visit.ids] using
        (ids_visits ctx scopes left).append (ids_visits ctx scopes right)
  | .var _ _ => by
      simp [Expr.visits, Expr.ids, Visit.ids]
  | .assign id _ value => by
      simpa [Expr.visits, Expr.ids, Visit.ids] using
        List.perm_append_comm.trans ((ids_visits ctx scopes value).cons id)
  | .call callee _ arguments => by
      simpa [Expr.visits, Expr.ids, Visit.ids] using
        (ids_visits ctx scopes callee).append (ids_visitsAll ctx scopes arguments)
  | .get object _ => by
      simpa [Expr.visits, Expr.ids, Visit.ids] using ids_visits ctx scopes object
  | .set object _ value => by
      simpa [Expr.visits, Expr.ids, Visit.ids] using
        List.perm_append_comm.trans
          ((ids_visits ctx scopes object).append (ids_visits ctx scopes value))
  | .this _ _ => by
      simp [Expr.visits, Expr.ids, Visit.ids]
  | .super _ _ _ => by
      simp [Expr.visits, Expr.ids, Visit.ids]

theorem ids_visitsAll
    (ctx : Context)
    (scopes : Scopes) :
    ∀ es : List Expr,
      ((Expr.visitsAll ctx scopes es).flatMap Visit.ids).Perm (Expr.idsAll es)
  | [] => by
      simp [Expr.visitsAll, Expr.idsAll]
  | e :: rest => by
      simpa [Expr.visitsAll, Expr.idsAll] using
        (ids_visits ctx scopes e).append (ids_visitsAll ctx scopes rest)

end

theorem ids_visitsOption
    (ctx : Context)
    (scopes : Scopes)
    (value : Option Expr) :
    ((Expr.visitsOption ctx scopes value).flatMap Visit.ids).Perm (Expr.idsOption value) := by
  cases value with
  | none =>
      simp [Expr.visitsOption, Expr.idsOption]
  | some e =>
      exact ids_visits ctx scopes e

mutual

/-- The walk over a statement comes to each of its references once. -/
theorem ids_visits_stmt
    (ctx : Context)
    (scopes : Scopes) :
    ∀ s : Stmt, ((s.visits ctx scopes).flatMap Visit.ids).Perm s.ids
  | .expression e => by
      simpa [Stmt.visits, Stmt.ids, Visit.ids] using ids_visits ctx scopes e
  | .print e => by
      simpa [Stmt.visits, Stmt.ids, Visit.ids] using ids_visits ctx scopes e
  | .var name initializer => by
      simpa [Stmt.visits, Stmt.ids, Visit.ids] using ids_visitsOption ctx _ initializer
  | .block body => by
      simpa [Stmt.visits, Stmt.ids, Visit.ids] using ids_visits_body ctx _ body
  | .ifThen condition thenBranch => by
      simpa [Stmt.visits, Stmt.ids, Visit.ids] using
        (ids_visits ctx scopes condition).append (ids_visits_stmt ctx _ thenBranch)
  | .ifElse condition thenBranch elseBranch => by
      simpa [Stmt.visits, Stmt.ids, Visit.ids] using
        (ids_visits ctx scopes condition).append
          ((ids_visits_stmt ctx _ thenBranch).append (ids_visits_stmt ctx _ elseBranch))
  | .loop condition body => by
      simpa [Stmt.visits, Stmt.ids, Visit.ids] using
        (ids_visits ctx scopes condition).append (ids_visits_stmt ctx _ body)
  | .function decl => by
      simpa [Stmt.visits, Stmt.ids, Visit.ids] using ids_visits_function _ _ decl
  | .ret keyword value => by
      simpa [Stmt.visits, Stmt.ids, Visit.ids] using ids_visitsOption ctx _ value
  | .classDecl name none methods => by
      simpa [Stmt.visits, Stmt.ids, Visit.ids, Expr.idsOption] using
        ids_visits_methods _ _ methods
  | .classDecl name (some superclass) methods => by
      simpa [Stmt.visits, Stmt.ids, Visit.ids, Expr.idsOption] using
        (ids_visits _ _ superclass).append (ids_visits_methods _ _ methods)

theorem ids_visits_body
    (ctx : Context)
    (scopes : Scopes) :
    ∀ body : List Stmt,
      ((Stmt.visitsAll ctx scopes body).flatMap Visit.ids).Perm (Stmt.idsAll body)
  | [] => by
      simp [Stmt.visitsAll, Stmt.idsAll]
  | s :: rest => by
      simpa [Stmt.visitsAll, Stmt.idsAll] using
        (ids_visits_stmt ctx scopes s).append (ids_visits_body ctx _ rest)

theorem ids_visits_function
    (ctx : Context)
    (scopes : Scopes) :
    ∀ decl : FunctionDecl,
      ((Stmt.visitsFunction ctx scopes decl).flatMap Visit.ids).Perm (Stmt.idsFunction decl)
  | .mk name params body => by
      simpa [Stmt.visitsFunction, Stmt.idsFunction, Visit.ids] using ids_visits_body ctx _ body

theorem ids_visits_methods
    (ctx : Context)
    (scopes : Scopes) :
    ∀ methods : List FunctionDecl,
      ((Stmt.visitsMethods ctx scopes methods).flatMap Visit.ids).Perm
        (Stmt.idsFunctions methods)
  | [] => by
      simp [Stmt.visitsMethods, Stmt.idsFunctions]
  | f :: rest => by
      simpa [Stmt.visitsMethods, Stmt.idsFunctions] using
        (ids_visits_function _ scopes f).append (ids_visits_methods ctx scopes rest)

end

end Numbers

end Lox
