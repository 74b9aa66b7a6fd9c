import Lox.Proofs.Loop.FoldedRuns
import Lox.Proofs.Loop.Reached
import Lox.Proofs.Machine.Dispatch

/-!
# A `for` loop runs as it reads

Whatever a `for` statement is read as, running it is running the loop itself: the initializer once, in
a scope that ends with the loop, and then rounds of the body and the increment as long as the
condition holds.  A loop has any of its clauses or none.  The frames that its tree has in addition are
not noticed by anything.
-/

namespace Lox

open Run

/-- With enough fuel, a run ends in this way. -/
def Run.EndsWith {α : Type} (r : Nat → Run α) (m : Machine) (result : Except Stop α)
    (after : Machine) : Prop :=
  ∃ fuel, r fuel m = (result, after) ∧ result ≠ .error .outOfFuel

/-- Two runs that ended the same: they printed the same, and what was there before them is the same
after them.  They ended with the same flow or the same error.  New frames may differ. -/
inductive Run.SameEnd (L : Tables) (m : Machine) :
    Except Stop Flow → Machine → Except Stop Flow → Machine → Prop where
  | ok {φ : Folding} {flow flow' : Flow} {after after' : Machine}
      (hkept : ∀ frame < m.frames.size, φ frame = some (frame, none))
      (hafter : Machine.FoldsAt L φ none after after') (hflow : Flow.Folds L φ flow flow') :
      SameEnd L m (.ok flow) after (.ok flow') after'
  | error {φ : Folding} {stop : Stop} {after after' : Machine}
      (hkept : ∀ frame < m.frames.size, φ frame = some (frame, none))
      (hafter : Machine.FoldsAt L φ none after after') :
      SameEnd L m (.error stop) after (.error stop) after'

namespace Run

/-- A run that ended does so with an approximation of it. -/
theorem Approximates.endsWith
    {α : Type}
    {r r' : Nat → Run α}
    (more : Nat)
    (h : ∀ fuel, (r fuel).Approximates (r' (fuel + more)))
    {m after : Machine}
    {result : Except Stop α}
    (hends : EndsWith r m result after) :
    EndsWith r' m result after := by
  obtain ⟨fuel, hrun, hresult⟩ := hends
  rcases h fuel m with hfuel | heq
  · rw [hrun] at hfuel
    exact absurd hfuel hresult
  · exact ⟨fuel + more, heq.trans hrun, hresult⟩

theorem endsWith_of_isOk
    {α : Type}
    {r : Nat → Run α}
    {m : Machine}
    (fuel : Nat)
    (h : (r fuel m).1.isOk = true) :
    EndsWith r m (r fuel m).1 (r fuel m).2 := by
  refine ⟨fuel, rfl, ?_⟩
  intro hfuel
  rw [hfuel] at h
  cases h

/-- Folded runs that started on one machine. -/
theorem Folds.sameEnd
    {L : Tables}
    {r r' : Run Flow}
    {m : Machine}
    (h : Folds L (.upTo m.frames.size) none r r' m m (Flow.Folds L)) :
    SameEnd L m (r m).1 (r m).2 (r' m).1 (r' m).2 := by
  have hkept {ψ : Folding} (hgrows : (Folding.upTo m.frames.size).Grows ψ) :
      ∀ frame < m.frames.size, ψ frame = some (frame, none) :=
    fun frame hlt => hgrows (Folding.upTo_of_lt hlt)
  cases h with
  | ok hrun hrun' hgrows hm hflow =>
      rw [hrun, hrun']
      exact .ok (hkept hgrows) hm hflow
  | error hrun hrun' hgrows hm =>
      rw [hrun, hrun']
      exact .error (hkept hgrows) hm

theorem SameEnd.outOfFuel_iff
    {L : Tables}
    {m after after' : Machine}
    {result result' : Except Stop Flow}
    (h : SameEnd L m result after result' after') :
    result' = .error .outOfFuel ↔ result = .error .outOfFuel := by
  cases h with
  | ok =>
      constructor <;> exact fun h => nomatch h
  | error =>
      exact Iff.rfl

/-- If runs end the same with any fuel, one of them ends whenever the other one does. -/
theorem endsWith_of_sameEnd
    {L : Tables}
    {r r' : Nat → Run Flow}
    {m : Machine}
    (h : ∀ fuel, SameEnd L m (r fuel m).1 (r fuel m).2 (r' fuel m).1 (r' fuel m).2) :
    (∀ {result after}, EndsWith r m result after →
      ∃ result' after', EndsWith r' m result' after' ∧ SameEnd L m result after result' after') ∧
    ∀ {result' after'}, EndsWith r' m result' after' →
      ∃ result after, EndsWith r m result after ∧ SameEnd L m result after result' after' := by
  constructor
  · rintro result after ⟨fuel, hrun, hresult⟩
    have hsame := h fuel
    rw [hrun] at hsame
    exact ⟨_, _, ⟨fuel, rfl, fun hfuel => hresult (hsame.outOfFuel_iff.mp hfuel)⟩, hsame⟩
  · rintro result' after' ⟨fuel, hrun, hresult⟩
    have hsame := h fuel
    rw [hrun] at hsame
    exact ⟨_, _, ⟨fuel, rfl, fun hfuel => hresult (hsame.outOfFuel_iff.mpr hfuel)⟩, hsame⟩

end Run

section Accepted

variable {source : String}
variable {statements : List Stmt}
variable {locals : Locals}
variable {ctx : Context}
variable {scopes : Scopes}
variable {l : ForLoop}
variable {k : Nat}
variable (haccepts : Session.Accepts source statements locals)
variable (hoccurs : ⟨ctx, scopes, .stmt l.tree⟩ ∈ Stmt.walk statements)
variable (hfresh : ∀ id ∈ Stmt.idsAll statements, id < k)

include haccepts hoccurs

/-- The references of a loop in the program have different numbers. -/
theorem ForLoop.nodup_ids_shifted (k : Nat) : (l.shifted k).ids.Nodup := by
  have hsublist := entire_body .topLevel [] statements hoccurs
  have hvisits : ((l.tree.visits ctx scopes).flatMap Visit.ids).Nodup :=
    haccepts.nodup.sublist (hsublist.flatMap Visit.ids)
  rw [(ids_visits_stmt ctx scopes l.tree).nodup_iff, l.ids_tree] at hvisits
  rw [ForLoop.ids_shifted]
  exact hvisits.map fun a b h => Nat.add_right_cancel h

include hfresh

/-- A loop of an accepted program finds the same by itself and in its tree. -/
theorem ForLoop.lowers_of_accepts :
    l.Lowers ⟨locals, (l.shifted k).locals ctx scopes locals⟩ k := by
  have hfree : ∀ id ∈ (l.shifted k).ids, locals.get? id = none := by
    intro id hid
    rw [ForLoop.ids_shifted] at hid
    obtain ⟨id, -, rfl⟩ := List.mem_map.mp hid
    cases hget : locals.get? (id + k) with
    | none =>
        rfl
    | some d =>
        have hlt := hfresh _ (haccepts.mem_ids_of_get? hget)
        omega
  have hgood : ∀ v ∈ l.tree.visits ctx scopes, v.Good locals := fun v hv =>
    haccepts.good v ((entire_body .topLevel [] statements hoccurs).subset hv)
  exact ForLoop.lowers_of_filed hgood
    (ForLoop.filed (ForLoop.nodup_ids_shifted haccepts hoccurs k) hfree)

/-- A machine that is met in an accepted program, with the table of one of its loops. -/
theorem Machine.Meets.folds
    {clock : Nat → Float}
    {fuel : Nat}
    {x : Sight}
    {m : Machine}
    (hmeets : Machine.Meets ⟨locals, clock⟩ fuel statements x m) :
    Machine.FoldsAt ⟨locals, (l.shifted k).locals ctx scopes locals⟩ (.upTo m.frames.size) none
      m m := by
  obtain ⟨-, hnamed, -, -⟩ := haccepts.named
  obtain ⟨R, hwell⟩ := hmeets.wellFormed
  refine Machine.folds_self (k := .ofRun ⟨locals, clock⟩ fuel statements) ?_
    (hmeets.fine hnamed).proper hwell
  intro id hid
  refine ForLoop.get?_locals (ForLoop.nodup_ids_shifted haccepts hoccurs k) ?_
  intro hmem
  rw [ForLoop.ids_shifted] at hmem
  obtain ⟨id', -, rfl⟩ := List.mem_map.mp hmem
  have hlt : id' + k < k := hfresh _ hid
  omega

end Accepted

end Lox
