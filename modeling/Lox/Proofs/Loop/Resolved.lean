import Lox.Proofs.Loop.Direct
import Lox.Proofs.Loop.Lowered

/-!
# The `for` loop resolved

Name resolution comes to the parts of a loop by itself, and to those of the tree that the loop is
read as.  If the parts of the loop get numbers that no reference had, its entries can be added to the
table of the program.  All other entries stay, and each part of the loop finds there what it finds in
the tree, but for the scope that the tree has around the body and the increment.
-/

namespace Lox

section Shifted

variable (k : Nat)

mutual

theorem Expr.ids_shifted : ∀ e : Expr, (e.shifted k).ids = e.ids.map (· + k)
  | .literal _ => rfl
  | .grouping inner => inner.ids_shifted
  | .unary _ right => right.ids_shifted
  | .binary left _ right => by
      simp only [shifted, ids, left.ids_shifted, right.ids_shifted, List.map_append]
  | .logical left _ right => by
      simp only [shifted, ids, left.ids_shifted, right.ids_shifted, List.map_append]
  | .var _ _ => rfl
  | .assign _ _ value => by
      simp only [shifted, ids, value.ids_shifted, List.map_cons]
  | .call callee _ arguments => by
      simp only [shifted, ids, callee.ids_shifted, idsAll_shifted arguments, List.map_append]
  | .get object _ => object.ids_shifted
  | .set object _ value => by
      simp only [shifted, ids, object.ids_shifted, value.ids_shifted, List.map_append]
  | .this _ _ => rfl
  | .super _ _ _ => rfl

theorem Expr.idsAll_shifted : ∀ es : List Expr,
    Expr.idsAll (Expr.shiftedAll k es) = (Expr.idsAll es).map (· + k)
  | [] => rfl
  | e :: rest => by
      simp only [shiftedAll, idsAll, e.ids_shifted, idsAll_shifted rest, List.map_append]

end

theorem Expr.idsOption_shifted (value : Option Expr) :
    Expr.idsOption (value.map (Expr.shifted k)) = (Expr.idsOption value).map (· + k) := by
  cases value with
  | none =>
      rfl
  | some e =>
      exact e.ids_shifted k

mutual

theorem Stmt.ids_shifted : ∀ s : Stmt, (s.shifted k).ids = s.ids.map (· + k)
  | .expression e => e.ids_shifted k
  | .print e => e.ids_shifted k
  | .var _ initializer => Expr.idsOption_shifted k initializer
  | .block body => idsAll_shifted body
  | .ifThen condition thenBranch => by
      simp only [shifted, ids, condition.ids_shifted, thenBranch.ids_shifted, List.map_append]
  | .ifElse condition thenBranch elseBranch => by
      simp only [shifted, ids, condition.ids_shifted, thenBranch.ids_shifted,
        elseBranch.ids_shifted, List.map_append]
  | .loop condition body => by
      simp only [shifted, ids, condition.ids_shifted, body.ids_shifted, List.map_append]
  | .function decl => idsFunction_shifted decl
  | .ret _ value => Expr.idsOption_shifted k value
  | .classDecl _ superclass methods => by
      simp only [shifted, ids, Expr.idsOption_shifted, idsFunctions_shifted methods,
        List.map_append]

theorem Stmt.idsAll_shifted : ∀ body : List Stmt,
    Stmt.idsAll (Stmt.shiftedAll k body) = (Stmt.idsAll body).map (· + k)
  | [] => rfl
  | s :: rest => by
      simp only [shiftedAll, idsAll, s.ids_shifted, idsAll_shifted rest, List.map_append]

theorem Stmt.idsFunction_shifted : ∀ decl : FunctionDecl,
    Stmt.idsFunction (Stmt.shiftedFunction k decl) = (Stmt.idsFunction decl).map (· + k)
  | .mk _ _ body => idsAll_shifted body

theorem Stmt.idsFunctions_shifted : ∀ methods : List FunctionDecl,
    Stmt.idsFunctions (Stmt.shiftedMethods k methods) =
      (Stmt.idsFunctions methods).map (· + k)
  | [] => rfl
  | f :: rest => by
      simp only [shiftedMethods, idsFunctions, idsFunction_shifted f, idsFunctions_shifted rest,
        List.map_append]

end

end Shifted

namespace ForLoop

section Walk

variable (ctx : Context)
variable (scopes : Scopes)
variable (l : ForLoop)

/-- The walk over the loop. -/
def visits : List Visit :=
  let inside := l.inside ctx scopes
  (match l.initializer with
    | none => []
    | some first => first.visits ctx ([] :: scopes))
  ++ (Expr.visitsOption ctx inside l.condition
    ++ (l.body.visits ctx inside ++ Expr.visitsOption ctx inside l.increment))

/-- The numbers of the references in the loop. -/
def ids : List Nat :=
  (match l.initializer with
    | none => []
    | some first => first.ids)
  ++ (Expr.idsOption l.condition ++ (l.body.ids ++ Expr.idsOption l.increment))

theorem findings_eq_flatMap :
    l.findings ctx scopes = (l.visits ctx scopes).flatMap Visit.findings := by
  unfold findings initializerFindings visits
  simp only [findingsOption_eq_flatMap, resolve_eq_flatMap, List.flatMap_append,
    List.append_assoc]
  cases l.initializer <;> rfl

theorem ids_visits : ((l.visits ctx scopes).flatMap Visit.ids).Perm l.ids := by
  unfold visits ids
  simp only [List.flatMap_append]
  refine .append ?_ (.append ?_ (.append ?_ ?_))
  · cases l.initializer with
    | none =>
        exact .refl _
    | some first =>
        exact ids_visits_stmt ctx _ first
  · exact ids_visitsOption ctx _ l.condition
  · exact ids_visits_stmt ctx _ l.body
  · exact ids_visitsOption ctx _ l.increment

theorem ids_shifted (k : Nat) : (l.shifted k).ids = l.ids.map (· + k) := by
  unfold ids shifted
  simp only [Expr.idsOption_shifted, Stmt.ids_shifted, List.map_append]
  cases l.initializer with
  | none =>
      rfl
  | some first =>
      simp only [Option.map_some, Stmt.ids_shifted]

theorem ids_tree : l.tree.ids = l.ids := by
  obtain ⟨initializer, condition, increment, body, hbranch⟩ := l
  cases initializer <;> cases condition <;> cases increment <;>
    simp [tree, ids, Grammar.forLoop, Stmt.ids, Stmt.idsAll, Expr.ids, Expr.idsOption]

theorem inside_shifted (k : Nat) : (l.shifted k).inside ctx scopes = l.inside ctx scopes := by
  unfold inside shifted
  cases l.initializer with
  | none =>
      rfl
  | some first =>
      exact Stmt.resolve_shifted k ctx _ first

end Walk

section Table

variable {ctx : Context}
variable {scopes : Scopes}
variable {l : ForLoop}
variable {table : Locals}

theorem nodup_entries
    (hnodup : l.ids.Nodup) :
    (((l.findings ctx scopes).filterMap Finding.entry?).map Prod.fst).Nodup := by
  rw [findings_eq_flatMap]
  exact Lox.nodup_entries ((l.ids_visits ctx scopes).nodup_iff.mpr hnodup)

/-- The references of the loop find in the table what their visits file. -/
theorem filed
    (hnodup : l.ids.Nodup)
    (hfree : ∀ id ∈ l.ids, table.get? id = none) :
    ∀ v ∈ l.visits ctx scopes, v.Filed (l.locals ctx scopes table) := by
  intro v hv id hid d
  have hperm := l.ids_visits ctx scopes
  have hmem : id ∈ l.ids := hperm.mem_iff.mp (List.mem_flatMap.mpr ⟨v, hv, hid⟩)
  unfold locals
  rw [Locals.get?_foldl_insert_iff (nodup_entries hnodup) (hfree id hmem), mem_entries,
    findings_eq_flatMap, bound_mem_flatMap_iff (hperm.nodup_iff.mpr hnodup) hv hid]

/-- All other entries stay. -/
theorem get?_locals
    (hnodup : l.ids.Nodup)
    {id : Nat}
    (hid : id ∉ l.ids) :
    (l.locals ctx scopes table).get? id = table.get? id := by
  refine Locals.get?_foldl_insert_of_not_mem (nodup_entries hnodup) table ?_
  intro hmem
  obtain ⟨⟨key, d⟩, hentry, rfl⟩ := List.mem_map.mp hmem
  rw [mem_entries, findings_eq_flatMap] at hentry
  obtain ⟨v, hv, hbound⟩ := List.mem_flatMap.mp hentry
  exact hid ((l.ids_visits ctx scopes).mem_iff.mp
    (List.mem_flatMap.mpr ⟨v, hv, Visit.mem_ids_of_bound hbound⟩))

end Table

/-- Where the scope is that the tree has around the body and the increment of a loop. -/
def gap (l : ForLoop) : Gap :=
  l.increment.map fun _ => 0

/-- The parts of a loop find the same as in the tree. -/
structure Lowers (L : Tables) (n : Nat) (l : ForLoop) : Prop where
  initializer : ∀ {first}, l.initializer = some first → first.Lowers L n none
  condition : Expr.LowersOption L n none l.condition
  body : l.body.Lowers L n l.gap
  increment : Expr.LowersOption L n l.gap l.increment

section Tree

variable (ctx : Context)
variable (scopes : Scopes)
variable (l : ForLoop)

theorem visits_initializer
    {first : Stmt}
    (hinitializer : l.initializer = some first) :
    ∀ v ∈ first.visits ctx ([] :: scopes), v ∈ l.tree.visits ctx scopes := by
  intro v hv
  unfold tree
  rw [hinitializer]
  exact List.mem_cons_of_mem _ (List.mem_append_left _ hv)

theorem visits_treeLoop :
    ∀ v ∈ l.treeLoop.visits ctx (l.inside ctx scopes), v ∈ l.tree.visits ctx scopes := by
  intro v hv
  unfold tree
  unfold inside at hv
  cases hinitializer : l.initializer with
  | none =>
      rw [hinitializer] at hv
      exact hv
  | some first =>
      rw [hinitializer] at hv
      exact List.mem_cons_of_mem _ (List.mem_append_right _ (List.mem_append_left _ hv))

theorem visits_treeCondition :
    ∀ v ∈ Expr.visitsOption ctx (l.inside ctx scopes) l.condition,
      v ∈ l.tree.visits ctx scopes := by
  intro v hv
  refine l.visits_treeLoop ctx scopes v (List.mem_cons_of_mem _ (List.mem_append_left _ ?_))
  unfold treeCondition
  cases hcondition : l.condition with
  | none =>
      rw [hcondition] at hv
      cases hv
  | some e =>
      rw [hcondition] at hv
      exact hv

theorem visits_roundOf :
    ∀ v ∈ (Grammar.roundOf l.increment l.body).visits ctx (l.inside ctx scopes),
      v ∈ l.tree.visits ctx scopes :=
  fun v hv => l.visits_treeLoop ctx scopes v
    (List.mem_cons_of_mem _ (List.mem_append_right _ hv))

end Tree

/-- A loop that is filed by itself finds the same as in its tree. -/
theorem lowers_of_filed
    {L : Tables}
    {n : Nat}
    {ctx : Context}
    {scopes : Scopes}
    {l : ForLoop}
    (hold : ∀ v ∈ l.tree.visits ctx scopes, v.Good L.old)
    (hnew : ∀ v ∈ (l.shifted n).visits ctx scopes, v.Filed L.new) :
    l.Lowers L n := by
  have hinside := l.inside_shifted ctx scopes n
  simp only [visits, hinside, List.mem_append, or_imp, forall_and] at hnew
  obtain ⟨hfirst, hcondition, hbody, hincrement⟩ := hnew
  have hround := fun v hv => hold v (l.visits_roundOf ctx scopes v hv)
  constructor
  case initializer =>
    intro first hinitializer
    simp only [shifted, hinitializer, Option.map_some] at hfirst
    exact first.lowers_of_filed ctx (.same _) (by simp)
      (fun v hv => hold v (l.visits_initializer ctx scopes hinitializer v hv)) hfirst
  case condition =>
    exact Expr.lowersOption_of_filed ctx (.same _) l.condition
      (fun v hv => hold v (l.visits_treeCondition ctx scopes v hv)) hcondition
  case body =>
    unfold gap
    cases hincr : l.increment with
    | none =>
        rw [hincr] at hround
        exact l.body.lowers_of_filed ctx (.same _) (by simp) hround hbody
    | some e =>
        rw [hincr] at hround
        exact l.body.lowers_of_filed ctx (.here _) (fun _ => l.branch)
          (fun v hv => hround v (List.mem_cons_of_mem _ (List.mem_append_left _ hv))) hbody
  case increment =>
    unfold gap
    cases hincr : l.increment with
    | none =>
        trivial
    | some e =>
        rw [hincr] at hround
        simp only [shifted, hincr, Option.map_some] at hincrement
        obtain ⟨hshaped, -⟩ := (hround _ List.mem_cons_self).shaped
        have hscopes : (l.body.resolve ctx ([] :: l.inside ctx scopes)).1 =
            [] :: l.inside ctx scopes :=
          Stmt.resolve_branch ctx _ l.body hshaped l.branch
        refine e.lowers_of_filed ctx (.here _) ?_ hincrement
        intro v hv
        refine hround v (List.mem_cons_of_mem _ (List.mem_append_right _
          (List.mem_append_left _ (List.mem_cons_of_mem _ ?_))))
        rw [hscopes]
        exact hv

end ForLoop

end Lox
