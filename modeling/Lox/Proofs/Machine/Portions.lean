import Lox.Proofs.Machine.Kept
import Lox.Session

/-!
# Programs that are run in portions

The statements of a program can be given to one machine in portions, each of them run where the one
before it has left the machine, though that may have stopped with an error.  Nothing is asked of the
table of local references, nor that resolution found no fault: machines are left proper by runs that
stop, too, so that whatever is met in any portion is as it should be.
-/

namespace Lox

open Run

/-- A machine on which nothing was run but portions of a program, one after the other, however each
of them ended.  Lines that were printed may have been taken away in between. -/
inductive Machine.HasRun (statements : List Stmt) : Machine → Prop where
  | nothing :
      HasRun statements .start
  | portion {m : Machine} {portion : List Stmt}
      (hrun : HasRun statements m)
      (hportion : portion ⊆ statements)
      (σ : Setting)
      (fuel : Nat) :
      HasRun statements (Machine.interpret σ fuel portion m).2
  | output {m : Machine}
      (hrun : HasRun statements m)
      (lines : Array String) :
      HasRun statements { m with output := lines }

/-- A sight on a machine is part of running a portion from another machine. -/
def Machine.MeetsFrom (m₀ : Machine) (σ : Setting) (fuel : Nat) (portion : List Stmt) (x : Sight)
    (m : Machine) : Prop :=
  Shows (fun w => execAll (execWatched σ w fuel) portion) m₀ x m

/-- The course of a portion that is run from a machine; all sights count as part of it. -/
def Course.ofPortion (σ : Setting) (fuel : Nat) (statements portion : List Stmt) (m₀ : Machine) :
    Course where
  program := .program statements
  seen _ _ := True
  last := (execAll (execWatched σ .idle fuel) portion m₀).2

section Portions

variable {statements portion : List Stmt}
variable {m₀ m : Machine}

/-- Between portions a machine is proper, and the global frame is the current one. -/
theorem Machine.HasRun.proper
    {k : Course}
    (hnamed : (Part.program statements).Named)
    (hrun : m.HasRun statements)
    (hprogram : k.program = .program statements)
    (hseen : ∀ x m, k.seen x m) :
    m.Proper k ∧ m.Stands k m.current [] := by
  have hnamed' : k.program.Named := hprogram ▸ hnamed
  induction hrun with
  | nothing =>
      exact ⟨.start k, Machine.start_stands k⟩
  | portion _ hportion σ fuel ih =>
      obtain ⟨hm, hstands⟩ := ih
      let outside : RuntimeError := ⟨⟨.identifier, "", 0⟩, .notCallable⟩
      have hkeeps := keeps_execAll (keeps_watched hnamed' outside σ fuel).2
        (Course.hasBody_of_subset hprogram hportion) hm hstands
      rw [Machine.snd_interpret, ← Course.lax_eq_idle hseen outside]
      exact ⟨hkeeps.proper, hstands.after hkeeps.onward hkeeps.current⟩
  | output _ lines ih =>
      obtain ⟨hm, hstands⟩ := ih
      exact ⟨hm.of_same rfl rfl rfl, hstands.mono (.of_same rfl rfl)⟩

theorem Machine.exists_meetsFrom_of_finding
    {σ : Setting}
    {fuel : Nat}
    {test : Sight → Machine → Bool}
    (error : RuntimeError)
    (hstops : (execAll (execWatched σ (.finding test error) fuel) portion m₀).1.isOk = false)
    (hends : (execAll (exec σ fuel) portion m₀).1.isOk = true) :
    ∃ x m, test x m = true ∧ m₀.MeetsFrom σ fuel portion x m := by
  rw [← (watched_idle σ fuel).2] at hends
  exact (uniform_execAll (uniform_watched σ fuel).2 portion).exists_shows_of_finding error hstops
    hends

/-- Everything that is met in a portion is as it should be. -/
theorem Machine.MeetsFrom.fine
    {σ : Setting}
    {fuel : Nat}
    {x : Sight}
    (hnamed : (Part.program statements).Named)
    (hrun : m₀.HasRun statements)
    (hportion : portion ⊆ statements)
    (h : m₀.MeetsFrom σ fuel portion x m) :
    (Course.ofPortion σ fuel statements portion m₀).Fine x m := by
  let k := Course.ofPortion σ fuel statements portion m₀
  let outside : RuntimeError := ⟨⟨.identifier, "", 0⟩, .notCallable⟩
  have hlax : k.lax outside = .idle := Course.lax_eq_idle (fun _ _ => trivial) outside
  obtain ⟨hm, hstands⟩ := hrun.proper hnamed (rfl : k.program = _) fun _ _ => trivial
  have hkeeps := keeps_execAll (keeps_watched hnamed outside σ fuel).2
    (Course.hasBody_of_subset rfl hportion) hm hstands
  have hsame : ∀ error,
      execAll (execWatched σ (Watcher.idle.orElse (.demanding k.Fine error)) fuel) portion m₀ =
        execAll (execWatched σ .idle fuel) portion m₀ := by
    intro error
    rw [← hlax]
    refine hkeeps.same error ?_
    rw [hlax]
    exact .refl _
  exact (uniform_execAll (uniform_watched σ fuel).2 portion).holds h (fun _ _ _ => rfl) hsame

/-- A step runs its statement without the lines of the steps before, and the others go on where it
has left the machine. -/
theorem Session.stepsFrom_cons
    {host : Host}
    {locals : Locals}
    {s : Stmt}
    {rest : List Stmt}
    {steps : List Step}
    (h : stepsFrom host locals m (s :: rest) = some steps) :
    ∃ (result : Except Stop Unit) (m₁ : Machine) (error : Option RuntimeError)
      (later : List Step),
      Machine.interpret ⟨locals, host.clock⟩ host.fuel [s] { m with output := #[] } =
        (result, m₁) ∧
      (∀ e, error = some e ↔ result = .error (.fault e)) ∧
      stepsFrom host locals m₁ rest = some later ∧
      steps = ⟨s, m₁.output.toList, error⟩ :: later := by
  simp only [stepsFrom] at h
  split at h
  · rename_i m₁ hinterpret
    obtain ⟨later, hlater, rfl⟩ := Option.map_eq_some_iff.mp h
    exact ⟨_, m₁, none, later, hinterpret, by simp, hlater, rfl⟩
  · rename_i e m₁ hinterpret
    obtain ⟨later, hlater, rfl⟩ := Option.map_eq_some_iff.mp h
    exact ⟨_, m₁, some e, later, hinterpret, by simp, hlater, rfl⟩
  · cases h

/-- Where statements are run one by one, each of them is a portion that is run from such a machine,
whatever was reported about the program. -/
theorem Session.exists_hasRun_of_stepsFrom
    {host : Host}
    {locals : Locals}
    {rest : List Stmt}
    {steps : List Step}
    (hrun : m.HasRun statements)
    (hrest : rest ⊆ statements)
    (hsteps : stepsFrom host locals m rest = some steps) :
    ∀ step ∈ steps, ∃ (m₀ m₁ : Machine) (result : Except Stop Unit),
      m₀.HasRun statements ∧ [step.statement] ⊆ statements ∧
      Machine.interpret ⟨locals, host.clock⟩ host.fuel [step.statement] m₀ = (result, m₁) ∧
      step.lines = m₁.output.toList ∧
      ∀ e, step.error = some e ↔ result = .error (.fault e) := by
  induction rest generalizing m steps with
  | nil =>
      cases hsteps
      simp
  | cons s rest ih =>
      obtain ⟨hs, hrest⟩ := List.cons_subset.mp hrest
      have hportion : [s] ⊆ statements := by
        simpa using hs
      obtain ⟨result, m₁, error, later, hinterpret, herror, hlater, rfl⟩ := stepsFrom_cons hsteps
      have hstart := hrun.output #[]
      have hend := hstart.portion hportion ⟨locals, host.clock⟩ host.fuel
      rw [hinterpret] at hend
      intro step hstep
      cases hstep with
      | head =>
          exact ⟨_, m₁, result, hstart, hportion, hinterpret, rfl, herror⟩
      | tail _ hstep =>
          exact ih hend hrest hlater step hstep

end Portions

end Lox
