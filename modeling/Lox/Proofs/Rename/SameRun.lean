import Lox.Proofs.Rename.Simulation
import Lox.Session

/-!
# Renaming a local variable never changes a run

The law of lexical scoping: in an accepted program, a local variable or parameter can be given any
name that the program does not use.  Name resolution finds the same, and a run prints the same lines
and ends in the same way.
-/

namespace Lox

open Run

section Interpret

variable {ρ : Renaming}
variable {statements statements' : List Stmt}

/-- Programs that are alike have the same outcome. -/
theorem interpret_alike
    (hρ : ρ.Proper)
    (hgood : ∀ v ∈ Stmt.walk statements, v.Good ρ.locals)
    (hfresh : ∀ v ∈ Stmt.walk statements, ∀ t ∈ v.node.tokens, t.lexeme ≠ ρ.new)
    (halike : AlikeAll ρ none statements statements')
    (host : Host)
    (log : Log) :
    Session.interpret host ρ.locals statements' log =
      Session.interpret host ρ.locals statements log := by
  have hsafe := (eval_exec_safe (σ := ⟨ρ.locals, host.clock⟩) hgood host.fuel).2
  have hexec := (eval_exec_follows hρ hgood hfresh host.clock host.fuel).2
  have hstart : Machine.Twins (Stmt.walk statements) ρ (fun _ => False) .start .start :=
    ⟨.start _, .start ρ⟩
  have hmarks : Machine.start.frames.Marks (fun _ => False) Machine.globals 0 none :=
    ⟨rfl, rfl, id⟩
  have hrun := follows_execAll hsafe hexec (fun _ hv => hv) hstart rfl hmarks halike
  unfold Session.interpret Machine.interpret
  cases hrun with
  | ok hrun hrun' _ hafter _ =>
      simp only [bind_apply, hrun, hrun', pure_apply, hafter.output]
  | @error stop stop' _ _ hrun hrun' hstop houtput =>
      simp only [bind_apply, hrun, hrun']
      cases stop with
      | outOfFuel =>
          cases stop' with
          | outOfFuel =>
              rfl
          | fault error' =>
              exact hstop.elim
      | fault error =>
          cases stop' with
          | outOfFuel =>
              exact hstop.elim
          | fault error' =>
              obtain ⟨hfault, hline⟩ := hstop
              simp only [Diagnostic.ofRuntime, hfault, hline, houtput]

end Interpret

/-- Renaming a local variable or parameter of an accepted program, together with the references that
the table sends to it, to a name that the program does not use: resolution reports nothing and gives
the same table, and every run prints the same lines and ends with the same outcome and error. -/
theorem renaming_local_keeps_run
    {source : String}
    {statements statements' : List Stmt}
    {locals : Locals}
    {old new : String}
    (haccepts : Session.Accepts source statements locals)
    (hrenames : Stmt.RenamesIn ⟨locals, old, new⟩ statements statements')
    (hkeyword : ∀ k : Keyword, new ≠ k.spelling)
    (hfresh : ∀ t ∈ Stmt.tokensAll statements, t.lexeme ≠ new) :
    (Resolution.ofProgram statements').errors = [] ∧
      (Resolution.ofProgram statements').locals = locals ∧
      ∀ host log, Session.interpret host locals statements' log =
        Session.interpret host locals statements log := by
  have hgood := haccepts.good
  obtain ⟨hold, halike⟩ := RenamesIn.alike hrenames hgood
  have hρ : Renaming.Proper ⟨locals, old, new⟩ := ⟨hold, hkeyword .this, hkeyword .super⟩
  have hplaced : ∀ v ∈ Stmt.walk statements, v.Placed fun t => t.Worded ∧ t.lexeme ≠ new :=
    haccepts.placed (fun _ h => h.1) fun t ht hworded => ⟨hworded, hfresh t ht⟩
  obtain ⟨-, -, -, herrors, hlocals⟩ := haccepts.phases
  rw [ofProgram_alike hρ halike hgood hfresh]
  refine ⟨herrors, hlocals.symm, ?_⟩
  exact interpret_alike hρ hgood (fun v hv t ht => ((hplaced v hv).kept t ht).2) halike

/-- In `{var a;{print a;var a;a=true;}}` the inner variable is renamed, and with it the assignment,
but not the reference before it. -/
theorem renaming_local_keeps_run_shadowing :
    let a : Token := ⟨.identifier, "a", 1⟩
    let b : Token := ⟨.identifier, "b", 1⟩
    let program (inner : Token) : List Stmt :=
      [.block [.var a none, .block [.print (.var 0 a), .var inner none,
        .expression (.assign 1 inner (.literal (.bool true)))]]]
    let locals : Locals := ⟨#[some 1, some 0]⟩
    Session.Accepts "{var a;{print a;var a;a=true;}}" (program a) locals ∧
      (Resolution.ofProgram (program b)).errors = [] ∧
      (Resolution.ofProgram (program b)).locals = locals ∧
      ∀ host log, Session.interpret host locals (program b) log =
        Session.interpret host locals (program a) log := by
  intro a b program locals
  have haccepts : Session.Accepts "{var a;{print a;var a;a=true;}}" (program a) locals :=
    Session.accepts_of_same ⟨⟨trivial, ⟨trivial, trivial, trivial, trivial⟩, trivial⟩, trivial⟩
      (by decide +kernel) (by decide +kernel) (by decide +kernel)
  have hdeclares : Stmt.DeclaresVariable "a" [.print (.var 0 a), .var a none,
      .expression (.assign 1 a (.literal (.bool true)))] :=
    ⟨a, none, by simp, rfl⟩
  have hinner := @Stmt.RenamesIn.mk ⟨locals, "a", "b"⟩ [.var a none] [] _ _ (.block hdeclares)
  have hrenames : Stmt.RenamesIn ⟨locals, "a", "b"⟩ (program a) (program b) :=
    @Stmt.RenamesIn.mk _ [] [] _ _ (.inBlock hinner)
  have hkeyword : ∀ k : Keyword, "b" ≠ k.spelling := by
    intro k
    cases k <;> decide
  exact ⟨haccepts, renaming_local_keeps_run haccepts hrenames hkeyword (by decide)⟩

end Lox
