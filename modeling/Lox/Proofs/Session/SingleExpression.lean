import Lox.Proofs.Machine.Ending
import Lox.Proofs.Machine.Fuel
import Lox.Proofs.Session.History
import Lox.Proofs.Tree.Equality

/-!
# Evaluating a single expression comes to an end

A source that is read as a single expression is evaluated on a machine that knows no function but the
clock.  No function is ever made while it is evaluated, so nothing that is called has a body, and the
evaluation needs only as much fuel as the expression nests.
-/

namespace Lox
namespace Session

/-- An expression comes to the same end with any fuel that is enough. -/
theorem exists_evaluateResolved
    (clock : Nat → Float)
    (locals : Locals)
    (e : Expr)
    (log : Log) :
    ∃ value log', log'.lines = log.lines ∧ (∀ v, value = some v → v.Basic) ∧
      ∀ fuel, e.nesting ≤ fuel →
        evaluateResolved ⟨clock, fuel⟩ locals e log = some (value, log') := by
  have hends := (eval_exec_ends ⟨locals, clock⟩ e.nesting).1 e (Nat.le_refl _) Machine.Inert.start
  have hidles := eval_idles ⟨locals, clock⟩ e.nesting e Machine.start_basic
  have hmore : ∀ fuel, e.nesting ≤ fuel →
      eval ⟨locals, clock⟩ fuel e .start = eval ⟨locals, clock⟩ e.nesting e .start :=
    fun fuel hfuel => ((approximates_of_le _ hfuel).1 e .start).resolve_left hends.ends
  rcases hrun : eval ⟨locals, clock⟩ e.nesting e .start with ⟨result, m⟩
  rw [hrun] at hmore
  have houtput : m.output = #[] := by
    have hidle := hidles.output
    rw [hrun] at hidle
    exact hidle
  cases result with
  | ok value =>
      refine ⟨some value, log.print m.output.toList, by simp [Log.print, houtput], ?_, ?_⟩
      · intro v hv
        cases hv
        exact hidles.ok value (by rw [hrun])
      · intro fuel hfuel
        simp only [evaluateResolved, hmore fuel hfuel]
  | error stop =>
      cases stop with
      | fault error =>
          refine ⟨none, (log.print m.output.toList).report [.ofRuntime error],
            by simp [Log.print, Log.report, houtput], by simp, ?_⟩
          intro fuel hfuel
          simp only [evaluateResolved, hmore fuel hfuel]
      | outOfFuel =>
          exact absurd (by rw [hrun]) hends.ends

/-- A source comes to the same end with any fuel that is enough for the expression it is read as. -/
theorem exists_evaluate
    (source : String) :
    ∃ bound, ∀ clock log, ∃ value log', log'.lines = log.lines ∧
      (∀ v, value = some v → v.Basic) ∧
      ∀ fuel, bound ≤ fuel → evaluate ⟨clock, fuel⟩ source log = some (value, log') := by
  refine ⟨Expr.nestingOption (parseExpression source .empty).1, ?_⟩
  intro clock log
  have hsame : (parseExpression source .empty).1 = (parseExpression source log).1 := by
    simp only [parseExpression, tokenize, readExpression]
  have hlines : (parseExpression source log).2.lines = log.lines := by
    simp only [parseExpression, tokenize, readExpression, Log.report]
  rw [hsame]
  unfold evaluate
  rcases hparse : parseExpression source log with ⟨parsed, log₁⟩
  rw [hparse] at hlines
  cases parsed with
  | none =>
      exact ⟨none, log₁, hlines, by simp, fun _ _ => rfl⟩
  | some e =>
      have hresolve : (resolve (.ofExpression e) log₁).2.lines = log.lines := by
        simpa only [resolve, Log.report] using hlines
      by_cases hstatic : log₁.hasStaticError
      · exact ⟨none, log₁, hlines, by simp, fun _ _ => by simp only [hstatic, if_true]⟩
      · by_cases hscope : (resolve (.ofExpression e) log₁).2.hasStaticError
        · refine ⟨none, (resolve (.ofExpression e) log₁).2, hresolve, by simp, ?_⟩
          intro _ _
          simp only [hstatic, hscope, if_true]
          rfl
        · obtain ⟨value, log', hlog', hbasic, hfuel⟩ := exists_evaluateResolved clock
            (resolve (.ofExpression e) log₁).1 e (resolve (.ofExpression e) log₁).2
          refine ⟨value, log', hlog'.trans hresolve, hbasic, ?_⟩
          intro fuel hle
          simp only [hstatic, hscope]
          exact hfuel fuel hle

/-- What agrees with the expression that a source is read as is that expression. -/
theorem parseExpression_of_same
    {source : String}
    {log : Log}
    {e : Expr}
    (he : e.EveryLiteral Literal.Unsigned)
    (h : Stmt.sameOption (parseExpression source log).1 (some e) = true) :
    (parseExpression source log).1 = some e := by
  simp only [parseExpression, tokenize, readExpression] at h ⊢
  exact Grammar.readExpression_eq_of_same he h

/-- Single expressions end, and so do straight programs.

A source is evaluated with the same outcome by all hosts whose fuel is enough for it, whatever they
read off the clock: there is always such an amount of fuel.  Nothing is printed, and the value, if
there is one, is basic.  It is basic, too, whatever is seen while an expression is evaluated that is
all there is: no function, class or object is ever made, and no frame has other values than basic
ones.  And a program without loops, functions and methods ends with as much fuel as it nests. -/
theorem single_expressions_end :
    (∀ source, ∃ bound, ∀ clock log, ∃ value log', log'.lines = log.lines ∧
      (∀ v, value = some v → v.Basic) ∧
      ∀ fuel, bound ≤ fuel → evaluate ⟨clock, fuel⟩ source log = some (value, log')) ∧
    (∀ (σ : Setting) (fuel : Nat) (e : Expr) (x : Sight) (m : Machine),
      Machine.MeetsAlone σ fuel e x m →
      Machine.start.Still m ∧ ∀ value ∈ x.values, value.Basic) ∧
    ∀ (σ : Setting) (fuel : Nat) (statements : List Stmt),
      Stmt.straightAll statements = true → Stmt.nestingAll statements ≤ fuel →
      (Machine.interpret σ fuel statements .start).1 ≠ .error .outOfFuel :=
  ⟨exists_evaluate, fun _ _ _ _ _ hmeets => hmeets.still,
    fun σ _ _ hstraight hfuel => Machine.interpret_ends σ hstraight hfuel⟩

/-- The evaluation of `clock=clock()` ends, though it calls what it overwrites; when the call is over
nothing was made, and its value is basic; and a program of classes without methods ends. -/
theorem single_expressions_end_clock :
    let σ : Setting := ⟨⟨#[none, none]⟩, fun _ => 0⟩
    let name : Token := ⟨.identifier, "clock", 1⟩
    let call : Expr := .call (.var 1 name) ⟨.punct .rightParen, ")", 1⟩ []
    let m : Machine := { Machine.start with readings := 1 }
    (∃ fuel value log', (∀ v, value = some v → v.Basic) ∧
      evaluate ⟨σ.clock, fuel⟩ "clock=clock()" .empty = some (value, log')) ∧
    ((parseExpression "clock=clock()" .empty).1 = some (.assign 0 name call) ∧
      Machine.MeetsAlone σ 3 (.assign 0 name call) (.evaluated call (.number 0)) m ∧
      Machine.start.Still m ∧ (Value.number 0).Basic) ∧
    ∃ statements, (parse "class A{}class B<A{}print B();" .empty).1 = statements ∧
      (Machine.interpret σ 3 statements .start).1 ≠ .error .outOfFuel := by
  intro σ name call m
  obtain ⟨hevaluate, hmeets, hinterpret⟩ := single_expressions_end
  refine ⟨?_, ?_, _, rfl, ?_⟩
  · obtain ⟨bound, hbound⟩ := hevaluate "clock=clock()"
    obtain ⟨value, log', -, hbasic, hends⟩ := hbound σ.clock .empty
    exact ⟨bound, value, log', hbasic, hends bound (Nat.le_refl _)⟩
  · have hseen : Machine.MeetsAlone σ 3 (.assign 0 name call) (.evaluated call (.number 0)) m := by
      intro error
      refine ⟨m, ?_⟩
      have hwaiting := Watcher.waiting_self (.evaluated call (.number 0)) m error
      have hpass := Watcher.waiting_of_ne (.evaluated call (.number 0)) m error
      generalize Watcher.waiting (.evaluated call (.number 0)) m error = w at hwaiting hpass
      have hcallee : evalWatched σ w 1 (.var 1 name) .start = (.ok (.native .clock), .start) :=
        Watcher.between_of_ok (hpass _ _ (by simp)) rfl (hpass _ _ (by simp [call]))
      have hcall : evalWatched σ w 2 call .start = (.error (.fault error), m) := by
        refine Watcher.between_of_stop (hpass _ _ (by simp)) ?_ hwaiting
        simp only [call, evalStep, Run.bind_apply, hcallee]
        rfl
      refine Watcher.between_of_error (hpass _ _ (by simp)) ?_
      simp only [evalStep, Run.bind_apply, hcall]
    obtain ⟨hstill, hbasic⟩ := hmeets _ _ _ _ _ hseen
    have hread : (parseExpression "clock=clock()" .empty).1 = some (.assign 0 name call) :=
      parseExpression_of_same ⟨trivial, trivial⟩ (by decide +kernel)
    exact ⟨hread, hseen, hstill, hbasic _ List.mem_cons_self⟩
  · exact hinterpret _ 3 _ (by decide +kernel) (by decide +kernel)

end Session
end Lox
