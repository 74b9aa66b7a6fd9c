import Lox.Proofs.Machine.Safety
import Lox.Proofs.Machine.Watched

/-!
# Whatever is seen is served

In a program without faults, whatever is seen of a run is seen on a sound machine.  The frames cover
the scopes of what is evaluated or executed there, and results are sound.  A watcher who lets all of
this pass does no harm to safety, so that no such watcher stops a run as whoever waits for one of its
sights does.
-/

namespace Lox

open Run

/-- The frames have what is needed for what begins, and the result of what is over is sound. -/
def Sight.Served (visits : List Visit) (m : Machine) : Sight → Prop
  | .evaluates e => ∃ ctx scopes, (∀ v ∈ e.visits ctx scopes, v ∈ visits) ∧ m.Serves scopes e
  | .executes s => ∃ ctx scopes, (∀ v ∈ Stmt.visits ctx scopes s, v ∈ visits) ∧
      m.frames.Covers m.current scopes
  | .evaluated _ value => value.Sound visits m
  | .executed _ flow => ∀ value, flow = .returned value → value.Sound visits m

section Watched

variable {visits : List Visit}
variable {σ : Setting}
variable {w : Watcher}
variable (hgood : ∀ v ∈ visits, v.Good σ.locals)
variable (hpasses : ∀ {x m}, m.Sound visits → x.Served visits m → w x m = none)

theorem Flow.Settles.returned
    {scopes : Scopes}
    {m : Machine}
    {flow : Flow}
    (h : flow.Settles visits scopes m)
    (value : Value)
    (hflow : flow = .returned value) :
    value.Sound visits m := by
  subst hflow
  exact h

include hpasses

theorem safe_pass
    {locals : Locals}
    {x : Sight}
    {m : Machine}
    (hm : m.Sound visits)
    (hx : x.Served visits m) :
    Safe visits locals (w.pass x) m fun m' _ => m' = m :=
  .of_ok (Watcher.pass_of_eq_none (hpasses hm hx)) (.refl m) hm rfl

/-- What is watched is safe if it is safe unwatched. -/
theorem safe_between
    {α : Type}
    {locals : Locals}
    {r : Run α}
    {x : Sight}
    {y : α → Sight}
    {m : Machine}
    {post : Machine → α → Prop}
    (hm : m.Sound visits)
    (hx : x.Served visits m)
    (hr : Safe visits locals r m post)
    (hy : ∀ {m' a}, post m' a → (y a).Served visits m') :
    Safe visits locals (do
      w.pass x
      let a ← r
      w.pass (y a)
      return a) m post := by
  refine (safe_pass hpasses hm hx).bind ?_
  rintro m₁ _ - hm₁ rfl
  refine hr.bind ?_
  intro m₂ a hlater₂ hm₂ ha
  refine (safe_pass hpasses hm₂ (hy ha)).bind ?_
  rintro m₃ _ - hm₃ rfl
  exact safe_pure hm₃ ha

include hgood

/-- A watcher who lets everything pass that is served does not harm safety. -/
theorem watched_safe
    (fuel : Nat) :
    EvalSafe visits σ.locals (evalWatched σ w fuel) ∧
      ExecSafe visits σ.locals (execWatched σ w fuel) := by
  induction fuel with
  | zero =>
      constructor
      · intro ctx scopes e m hvisits hm hserves
        have hserved : (Sight.evaluates e).Served visits m := ⟨ctx, scopes, hvisits, hserves⟩
        exact (safe_pass hpasses hm hserved).bind fun _ _ _ => safe_outOfFuel
      · intro ctx scopes s m hvisits hm hcovers
        have hserved : (Sight.executes s).Served visits m := ⟨ctx, scopes, hvisits, hcovers⟩
        exact (safe_pass hpasses hm hserved).bind fun _ _ _ => safe_outOfFuel
  | succ fuel ih =>
      constructor
      · intro ctx scopes e m hvisits hm hserves
        exact safe_between hpasses hm ⟨ctx, scopes, hvisits, hserves⟩
          (safe_evalStep hgood ih.1 (safe_execAll ih.2) hvisits hm hserves) id
      · intro ctx scopes s m hvisits hm hcovers
        exact safe_between hpasses hm ⟨ctx, scopes, hvisits, hcovers⟩
          (safe_execStep hgood ih.1 ih.2 fuel hvisits hm hcovers) (Flow.Settles.returned)

omit hpasses

/-- What is part of the run of visited statements is served, on a sound machine. -/
theorem Machine.Meets.served
    {statements : List Stmt}
    {fuel : Nat}
    {x : Sight}
    {m : Machine}
    (hvisits : ∀ v ∈ Stmt.walk statements, v ∈ visits)
    (hmeets : Machine.Meets σ fuel statements x m) :
    m.Sound visits ∧ x.Served visits m := by
  apply Classical.byContradiction
  intro hnever
  -- The watcher stops the run with an error that no safe run stops with.
  let error : RuntimeError := ⟨⟨.identifier, "this", 1⟩, .undefinedVariable "this"⟩
  have hpasses : ∀ {x' m'}, m'.Sound visits → x'.Served visits m' →
      Watcher.waiting x m error x' m' = none := by
    intro x' m' hm' hx'
    refine if_neg ?_
    rintro ⟨rfl, rfl⟩
    exact hnever ⟨hm', hx'⟩
  have hsafe := safe_execAll (watched_safe hgood hpasses fuel).2 hvisits (.start visits) rfl
  obtain ⟨m', hstop⟩ := hmeets error
  obtain ⟨-, hordinary, -⟩ := hsafe.error hstop "this" rfl
  exact hordinary.1 rfl

end Watched

end Lox
