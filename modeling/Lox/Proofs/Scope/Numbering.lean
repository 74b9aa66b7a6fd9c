import Lox.Proofs.Grammar.Provenance
import Lox.Proofs.Scope.Distances

/-!
# Numbers of references

Every reference in a tree that is read has a number that no other one has, whatever was reported or
left out on the way.  So name resolution, which files what it finds out about references by number,
never files anything over something else.
-/

namespace Lox

/-- Every reference in a part has a number of its own, below the given one. -/
structure Part.Numbered (part : Part) (count : Nat) : Prop where
  unique : ∀ {p q : Address} {e e' : Expr} {id : Nat} {name name' : Token},
    part.at? p = some (.expr e) →
    e.reference? = some (id, name) →
    part.at? q = some (.expr e') →
    e'.reference? = some (id, name') →
    p = q
  below : ∀ {p : Address} {e : Expr} {id : Nat} {name : Token},
    part.at? p = some (.expr e) →
    e.reference? = some (id, name) →
    id < count

theorem Fresh.numbered
    {part : Part}
    {count : Nat}
    (h : Fresh 0 count part.ids) :
    part.Numbered count where
  unique := by
    intro p q e e' id name name' hpart hreference hpart' hreference'
    have hid : (Part.expr e).ownId? = some id := by
      simp [Part.ownId?, hreference]
    have hid' : (Part.expr e').ownId? = some id := by
      simp [Part.ownId?, hreference']
    exact Part.address_unique h.nodup hpart hpart' hid hid'
  below := by
    intro p e id name hpart hreference
    have hid : (Part.expr e).ownId? = some id := by
      simp [Part.ownId?, hreference]
    exact (h.range id (Part.mem_ids_of_at? hpart hid)).2

/-- The entries of the findings make up the table, and none of them replaces another. -/
def Resolution.FiledOnce (findings : List Finding) : Prop :=
  (Resolution.ofFindings findings).locals = .ofPairs (findings.filterMap Finding.entry?) ∧
    ((findings.filterMap Finding.entry?).map Prod.fst).Nodup

theorem filedOnce_program
    {statements : List Stmt}
    (h : (Stmt.idsAll statements).Nodup) :
    Resolution.FiledOnce (Stmt.resolveAll .topLevel [] statements).2 := by
  refine ⟨locals_ofFindings _, ?_⟩
  rw [resolveAll_eq_flatMap]
  exact nodup_entries ((ids_visits_body .topLevel [] statements).nodup_iff.mpr h)

theorem filedOnce_expression
    {e : Expr}
    (h : e.ids.Nodup) :
    Resolution.FiledOnce (e.findings .topLevel []) := by
  refine ⟨locals_ofFindings _, ?_⟩
  rw [findings_eq_flatMap]
  exact nodup_entries ((ids_visits .topLevel [] e).nodup_iff.mpr h)

/-- Whatever the tokens are, the references in what is read have different numbers, all of them less
than how many were given out, and name resolution files each of its entries once. -/
theorem references_are_numbered
    (ts : List Token)
    (endLine : Nat) :
    ((Part.program (Grammar.readProgram ts endLine).result).Numbered
          (Grammar.readProgram ts endLine).idCount ∧
        Resolution.FiledOnce
          (Stmt.resolveAll .topLevel [] (Grammar.readProgram ts endLine).result).2) ∧
      ∀ e, (Grammar.readExpression ts endLine).result = some e →
        (Part.expr e).Numbered (Grammar.readExpression ts endLine).idCount ∧
          Resolution.FiledOnce (e.findings .topLevel []) := by
  constructor
  · have hfits := Grammar.readProgram_fits ts endLine
    have hfresh : Fresh 0 (Grammar.readProgram ts endLine).idCount
        (Part.program (Grammar.readProgram ts endLine).result).ids := hfits.fresh
    exact ⟨hfresh.numbered, filedOnce_program hfits.fresh.nodup⟩
  · intro e he
    have hfits := Grammar.readExpression_exprFits he
    have hfresh : Fresh 0 (Grammar.readExpression ts endLine).idCount
        (Part.expr e).ids := hfits.fresh
    exact ⟨hfresh.numbered, filedOnce_expression hfits.fresh.nodup⟩

/-- In `a = b`, the variable on the left keeps its number when it becomes an assignment. -/
theorem references_are_numbered_assignment :
    (Grammar.readExpression [⟨.identifier, "a", 1⟩, ⟨.punct .equal, "=", 1⟩,
        ⟨.identifier, "b", 1⟩] 1).result =
        some (.assign 0 ⟨.identifier, "a", 1⟩ (.var 1 ⟨.identifier, "b", 1⟩)) ∧
      (Part.expr (.assign 0 ⟨.identifier, "a", 1⟩ (.var 1 ⟨.identifier, "b", 1⟩))).Numbered 2 := by
  have hread : (Grammar.readExpression [⟨.identifier, "a", 1⟩, ⟨.punct .equal, "=", 1⟩,
      ⟨.identifier, "b", 1⟩] 1).result =
      some (.assign 0 ⟨.identifier, "a", 1⟩ (.var 1 ⟨.identifier, "b", 1⟩)) := by
    rfl
  exact ⟨hread, ((references_are_numbered _ 1).2 _ hread).1⟩

end Lox
