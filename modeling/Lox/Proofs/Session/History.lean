import Lox.Proofs.Machine.LoneExpression
import Lox.Session

/-!
# What a source adds to a log

A source is scanned, read, resolved and run, and each phase adds to one log.  The log may hold
anything before.  It only ever grows: first by all lexical errors, then by all parse errors; by
resolve errors if no static error is there by then; and by printed lines and at most one runtime
error if there is still none.  How a run ended is told by what it added.  Apart from static errors,
what was in the log before has no influence.
-/

namespace Lox

/-- A log followed by another one. -/
def Log.append (log added : Log) : Log :=
  ⟨log.diagnostics ++ added.diagnostics, log.lines ++ added.lines⟩

namespace Session

/-- What the phases before a run find wrong with a source. -/
structure Report where
  lexical : List (Nat × LexFault)
  parse : List SyntaxError
  resolve : List ScopeError

namespace Report

/-- What is wrong with a source as a program. -/
def ofProgram (source : String) : Report :=
  let scan := Scan.ofSource source
  let parsed := Grammar.readProgram scan.tokens scan.endLine
  ⟨scan.faults, parsed.errors, (Resolution.ofProgram parsed.result).errors⟩

/-- What is wrong with a source as an expression. -/
def ofExpression (source : String) : Report :=
  let scan := Scan.ofSource source
  let parsed := Grammar.readExpression scan.tokens scan.endLine
  ⟨scan.faults, parsed.errors,
    parsed.result.elim [] fun e => (Resolution.ofExpression e).errors⟩

/-- The errors found before names are resolved. -/
def early (r : Report) : List Diagnostic :=
  r.lexical.map .ofLexical ++ r.parse.map .ofSyntax

/-- The errors found before anything runs. -/
def all (r : Report) : List Diagnostic :=
  r.early ++ r.resolve.map .ofScope

end Report

/-- What one source adds to a log.  The order of the phases, and that there is at most one runtime
error, are part of the type. -/
structure Additions extends Report where
  runtime : Option RuntimeError
  lines : List String

namespace Additions

/-- The added errors. -/
def diagnostics (a : Additions) : List Diagnostic :=
  a.all ++ a.runtime.toList.map .ofRuntime

/-- All that is added. -/
def log (a : Additions) : Log :=
  ⟨a.diagnostics, a.lines⟩

/-- The gates between the phases: names are resolved only if the log has no static error by then,
and the source is run only if it still has none. -/
structure Gated (a : Additions) (log : Log) (found : Report) : Prop where
  lexical : a.lexical = found.lexical
  parse : a.parse = found.parse
  resolve : a.resolve = if (log.report a.early).hasStaticError then [] else found.resolve
  run : (log.report a.all).hasStaticError = true → a.runtime = none ∧ a.lines = []

end Additions

/-- How what is run ends, whatever is in the log. -/
structure Ending (β : Type) where
  result : β
  runtime : Option RuntimeError
  lines : List String

/-- The result, and the log after it. -/
def Ending.on {β : Type} (x : Ending β) (log : Log) : β × Log :=
  (x.result, log.append ⟨x.runtime.toList.map .ofRuntime, x.lines⟩)

/-- Lets a log through the gates: what is run starts only if no static error is there. -/
def gate {β : Type} (found : Report) (refused : β) (go : Log → Option (β × Log)) (log : Log) :
    Option (β × Log) :=
  if (log.report found.early).hasStaticError then some (refused, log.report found.early)
  else if (log.report found.all).hasStaticError then some (refused, log.report found.all)
  else go (log.report found.all)

section Logs

variable (log : Log)

theorem report_report (diagnostics later : List Diagnostic) :
    (log.report diagnostics).report later = log.report (diagnostics ++ later) := by
  simp [Log.report]

theorem append_assoc (added later : Log) :
    (log.append added).append later = log.append (added.append later) := by
  simp [Log.append]

/-- Reporting static errors leaves a log without static errors only if there are none. -/
theorem hasStaticError_report_eq_false_iff
    {diagnostics : List Diagnostic}
    (hstatic : ∀ d ∈ diagnostics, d.isStatic = true) :
    (log.report diagnostics).hasStaticError = false ↔
      log.hasStaticError = false ∧ diagnostics = [] := by
  cases diagnostics with
  | nil =>
      simp [Log.report]
  | cons d rest =>
      have hd := hstatic d List.mem_cons_self
      simp [Log.report, Log.hasStaticError, hd]

theorem Report.isStatic_of_mem
    (r : Report) :
    ∀ d ∈ r.all, d.isStatic = true := by
  intro d hd
  simp only [Report.all, Report.early, List.mem_append, List.mem_map] at hd
  rcases hd with (⟨_, -, rfl⟩ | ⟨_, -, rfl⟩) | ⟨_, -, rfl⟩ <;> rfl

theorem Report.isStatic_of_mem_early
    (r : Report) :
    ∀ d ∈ r.early, d.isStatic = true :=
  fun d hd => r.isStatic_of_mem d (List.mem_append_left _ hd)

end Logs

namespace Additions

variable (a : Additions)

/-- There are as many runtime errors among the added ones as there should be. -/
theorem countP_diagnostics :
    a.diagnostics.countP (fun d => !d.isStatic) = a.runtime.toList.length := by
  have hall : a.all.countP (fun d => !d.isStatic) = 0 := by
    rw [List.countP_eq_zero]
    intro d hd
    simp [a.isStatic_of_mem d hd]
  rw [diagnostics, List.countP_append, hall]
  cases a.runtime <;> rfl

/-- Runtime errors are not static. -/
theorem hasStaticError_append_log
    (log : Log) :
    (log.append a.log).hasStaticError = (log.report a.all).hasStaticError := by
  cases hruntime : a.runtime with
  | none =>
      simp [Log.append, Log.report, Log.hasStaticError, Additions.log, diagnostics, hruntime]
  | some e =>
      simp [Log.append, Log.report, Log.hasStaticError, Additions.log, diagnostics, hruntime,
        Diagnostic.ofRuntime, Diagnostic.isStatic]

theorem diagnostics_eq_nil_iff :
    a.diagnostics = [] ↔ a.all = [] ∧ a.runtime = none := by
  cases hruntime : a.runtime <;> simp [diagnostics, hruntime]

/-- A static error was either added or there before. -/
theorem not_silent_of_static
    {log : Log}
    (hstatic : (log.report a.all).hasStaticError = true) :
    ¬ (a.diagnostics = [] ∧ log.hasStaticError = false) := by
  rintro ⟨hnil, hlog⟩
  have hclean := (hasStaticError_report_eq_false_iff log a.isStatic_of_mem).mpr
    ⟨hlog, (a.diagnostics_eq_nil_iff.mp hnil).1⟩
  rw [hclean] at hstatic
  cases hstatic

end Additions

section Gate

variable {β : Type}
variable {found : Report}
variable {refused : β}
variable {go : Log → Option (β × Log)}
variable {ending : Option (Ending β)}

/-- A source that is let through has nothing wrong with it. -/
theorem gate_eq_none
    {log : Log}
    (h : gate found refused go log = none) :
    log.hasStaticError = false ∧ found.all = [] := by
  unfold gate at h
  split at h
  · cases h
  · split at h
    · cases h
    · rename_i hall
      rw [Bool.not_eq_true] at hall
      exact (hasStaticError_report_eq_false_iff log found.isStatic_of_mem).mp hall

/-- A source that leaves the gates without static errors has nothing wrong with it. -/
theorem all_eq_nil_of_gate
    {log log' : Log}
    {result : β}
    (h : gate found refused go log = some (result, log'))
    (hclean : log'.hasStaticError = false) :
    found.all = [] := by
  unfold gate at h
  split at h
  · rename_i hearly
    cases h
    rw [hclean] at hearly
    cases hearly
  · split at h
    · rename_i hall
      cases h
      rw [hclean] at hall
      cases hall
    · rename_i hall
      rw [Bool.not_eq_true] at hall
      exact ((hasStaticError_report_eq_false_iff log found.isStatic_of_mem).mp hall).2

/-- What passing the gates adds to a log. -/
theorem gate_eq_some
    {log log' : Log}
    {result : β}
    (hgo : ∀ log, go log = ending.map (·.on log))
    (h : gate found refused go log = some (result, log')) :
    ∃ a : Additions, log' = log.append a.log ∧ a.Gated log found ∧
      ((log.report a.all).hasStaticError = true ∧ result = refused ∨
        (log.report a.all).hasStaticError = false ∧
          ending = some ⟨result, a.runtime, a.lines⟩) := by
  unfold gate at h
  split at h
  · rename_i hearly
    cases h
    refine ⟨⟨⟨found.lexical, found.parse, []⟩, none, []⟩, ?_, ?_, ?_⟩
    · simp [Log.append, Log.report, Additions.log, Additions.diagnostics, Report.all, Report.early]
    · exact ⟨rfl, rfl, (if_pos hearly).symm, fun _ => ⟨rfl, rfl⟩⟩
    · refine .inl ⟨?_, rfl⟩
      rw [← hearly]
      simp [Report.all, Report.early]
  · rename_i hearly
    split at h
    · rename_i hall
      cases h
      refine ⟨⟨found, none, []⟩, ?_, ?_, .inl ⟨hall, rfl⟩⟩
      · simp [Log.append, Log.report, Additions.log, Additions.diagnostics]
      · exact ⟨rfl, rfl, (if_neg hearly).symm, fun _ => ⟨rfl, rfl⟩⟩
    · rename_i hall
      rw [hgo] at h
      obtain ⟨x, rfl, hx⟩ := Option.map_eq_some_iff.mp h
      cases hx
      rw [Bool.not_eq_true] at hall
      refine ⟨⟨found, x.runtime, x.lines⟩, ?_, ?_, .inr ⟨hall, rfl⟩⟩
      · simp [Log.append, Log.report, Additions.log, Additions.diagnostics]
      · refine ⟨rfl, rfl, (if_neg hearly).symm, ?_⟩
        intro hstatic
        rw [hall] at hstatic
        cases hstatic

/-- A log without static errors makes no difference. -/
theorem gate_append
    {log : Log}
    (hgo : ∀ log, go log = ending.map (·.on log))
    (hlog : log.hasStaticError = false) :
    gate found refused go log =
      (gate found refused go .empty).map fun (result, added) => (result, log.append added) := by
  have hsame : ∀ diagnostics, (log.report diagnostics).hasStaticError =
      (Log.empty.report diagnostics).hasStaticError := by
    intro diagnostics
    rw [hasStaticError_report, hasStaticError_report, hlog]
    rfl
  have hreport : ∀ diagnostics, log.report diagnostics =
      log.append (Log.empty.report diagnostics) := by
    intro diagnostics
    simp [Log.report, Log.append, Log.empty]
  unfold gate
  rw [hsame, hsame, hreport, hreport, hgo, hgo]
  split
  · rfl
  · split
    · rfl
    · cases ending with
      | none =>
          rfl
      | some x =>
          simp only [Option.map_some, Ending.on, append_assoc]

end Gate

section Phases

variable (host : Host)
variable (source : String)

/-- How a program ends is told by whether there was a runtime error. -/
theorem exists_ending_interpret
    (locals : Locals)
    (statements : List Stmt) :
    ∃ ending : Option (Ending Outcome),
      (∀ log, interpret host locals statements log = ending.map (·.on log)) ∧
      ∀ x ∈ ending, x.result = if x.runtime.isSome then .runtimeError else .success := by
  unfold interpret
  rcases Machine.interpret ⟨locals, host.clock⟩ host.fuel statements .start with ⟨result, m⟩
  cases result with
  | ok _ =>
      refine ⟨some ⟨.success, none, m.output.toList⟩, ?_, ?_⟩
      · intro log
        simp [Ending.on, Log.print, Log.append]
      · intro x hx
        cases hx
        rfl
  | error stop =>
      cases stop with
      | outOfFuel =>
          exact ⟨none, fun _ => rfl, by simp⟩
      | fault e =>
          refine ⟨some ⟨.runtimeError, some e, m.output.toList⟩, fun _ => rfl, ?_⟩
          intro x hx
          cases hx
          rfl

/-- There is a value if and only if there is no runtime error, and nothing is printed. -/
theorem exists_ending_evaluate
    (locals : Locals)
    (e : Expr) :
    ∃ ending : Option (Ending (Option Value)),
      (∀ log, evaluateResolved host locals e log = ending.map (·.on log)) ∧
      ∀ x ∈ ending, x.lines = [] ∧ (x.result.isSome ↔ x.runtime = none) := by
  have hidles := eval_idles ⟨locals, host.clock⟩ host.fuel e Machine.start_basic
  unfold evaluateResolved
  rcases hrun : eval ⟨locals, host.clock⟩ host.fuel e .start with ⟨result, m⟩
  have houtput : m.output = #[] := by
    have := hidles.output
    rw [hrun] at this
    exact this
  cases result with
  | ok value =>
      refine ⟨some ⟨some value, none, []⟩, ?_, ?_⟩
      · intro log
        simp [Ending.on, Log.print, Log.append, houtput]
      · intro x hx
        cases hx
        simp
  | error stop =>
      cases stop with
      | outOfFuel =>
          exact ⟨none, fun _ => rfl, by simp⟩
      | fault error =>
          refine ⟨some ⟨none, some error, []⟩, ?_, ?_⟩
          · intro log
            simp [Ending.on, Log.print, Log.report, Log.append, houtput]
          · intro x hx
            cases hx
            simp

/-- A program is run behind the gates. -/
theorem run_eq_gate :
    run host source = gate (.ofProgram source) .staticError
      (interpret host (Resolution.ofProgram (parse source .empty).1).locals
        (parse source .empty).1) := by
  funext log
  simp only [run, parse, tokenize, readProgram, resolve, gate, report_report, Report.early,
    Report.all, Report.ofProgram]

theorem Report.early_ofExpression :
    (Report.ofExpression source).early =
      (Scan.ofSource source).faults.map .ofLexical ++
        (Grammar.readExpression (Scan.ofSource source).tokens
          (Scan.ofSource source).endLine).errors.map .ofSyntax := by
  unfold Report.early Report.ofExpression
  dsimp only

/-- What is not read as an expression has a fault. -/
theorem hasStaticError_of_unread
    (hparsed : (Grammar.readExpression (Scan.ofSource source).tokens
      (Scan.ofSource source).endLine).result = none)
    (log : Log) :
    (log.report (Report.ofExpression source).early).hasStaticError = true := by
  have herrors : (Grammar.readExpression (Scan.ofSource source).tokens
      (Scan.ofSource source).endLine).errors ≠ [] := by
    unfold Grammar.readExpression at hparsed ⊢
    split at hparsed
    · cases hparsed
    · simp [Parser.State.report]
  rw [← Bool.not_eq_false, hasStaticError_report_eq_false_iff log (Report.isStatic_of_mem_early _),
    Report.early_ofExpression]
  rintro ⟨-, hnil⟩
  exact herrors (List.map_eq_nil_iff.mp (List.append_eq_nil_iff.mp hnil).2)

/-- An expression is evaluated behind the gates. -/
theorem exists_evaluate_eq_gate :
    ∃ go : Log → Option (Option Value × Log), ∃ ending : Option (Ending (Option Value)),
      evaluate host source = gate (.ofExpression source) none go ∧
      (∀ log, go log = ending.map (·.on log)) ∧
      ∀ x ∈ ending, x.lines = [] ∧ (x.result.isSome ↔ x.runtime = none) := by
  rcases Option.eq_none_or_eq_some (Grammar.readExpression (Scan.ofSource source).tokens
      (Scan.ofSource source).endLine).result with hparsed | ⟨e, hparsed⟩
  · refine ⟨fun _ => none, none, ?_, fun _ => rfl, by simp⟩
    funext log
    rw [gate, if_pos (hasStaticError_of_unread source hparsed log), Report.early_ofExpression]
    unfold evaluate parseExpression tokenize readExpression
    dsimp only
    rw [hparsed]
    dsimp only
    rw [report_report]
  · obtain ⟨ending, hgo, hends⟩ :=
      exists_ending_evaluate host (Resolution.ofExpression e).locals e
    refine ⟨_, ending, ?_, hgo, hends⟩
    have hresolve : (Report.ofExpression source).resolve = (Resolution.ofExpression e).errors := by
      unfold Report.ofExpression
      dsimp only
      rw [hparsed]
      rfl
    funext log
    unfold evaluate parseExpression tokenize readExpression
    dsimp only
    rw [hparsed]
    simp only [resolve, report_report, gate, Report.all, hresolve, Report.early_ofExpression]

end Phases

section Told

variable {a : Additions}
variable {log : Log}
variable {found : Report}
variable (hgated : a.Gated log found)

include hgated

/-- The outcome of a run is told by what was added. -/
theorem outcome_told
    {outcome : Outcome}
    (h : (log.report a.all).hasStaticError = true ∧ outcome = .staticError ∨
      (log.report a.all).hasStaticError = false ∧
        outcome = if a.runtime.isSome then .runtimeError else .success) :
    (outcome = .staticError ↔ (log.append a.log).hasStaticError = true) ∧
      (outcome = .runtimeError ↔ a.diagnostics.countP (fun d => !d.isStatic) = 1) ∧
      (outcome = .success ↔ a.diagnostics = [] ∧ log.hasStaticError = false) := by
  rw [a.hasStaticError_append_log, a.countP_diagnostics]
  rcases h with ⟨hstatic, rfl⟩ | ⟨hstatic, rfl⟩
  · obtain ⟨hruntime, -⟩ := hgated.run hstatic
    exact ⟨by simp [hstatic], by simp [hruntime],
      iff_of_false (by simp) (a.not_silent_of_static hstatic)⟩
  · obtain ⟨hlog, hall⟩ := (hasStaticError_report_eq_false_iff log a.isStatic_of_mem).mp hstatic
    rw [hstatic, a.diagnostics_eq_nil_iff]
    cases a.runtime with
    | none =>
        simp [hlog, hall]
    | some e =>
        simp

/-- Whether there is a value is told by what was added, and the log tells why there is none. -/
theorem value_told
    {value : Option Value}
    (h : (log.report a.all).hasStaticError = true ∧ value = none ∨
      (log.report a.all).hasStaticError = false ∧ (value.isSome ↔ a.runtime = none)) :
    (value.isSome ↔ a.diagnostics = [] ∧ log.hasStaticError = false) ∧
      (value = none →
        (log.append a.log).outcome = if a.runtime.isSome then .runtimeError else .staticError) := by
  rw [Log.outcome, a.hasStaticError_append_log]
  rcases h with ⟨hstatic, rfl⟩ | ⟨hstatic, hvalue⟩
  · obtain ⟨hruntime, -⟩ := hgated.run hstatic
    exact ⟨iff_of_false (by simp) (a.not_silent_of_static hstatic), by simp [hstatic, hruntime]⟩
  · obtain ⟨hlog, hall⟩ := (hasStaticError_report_eq_false_iff log a.isStatic_of_mem).mp hstatic
    refine ⟨by simp [a.diagnostics_eq_nil_iff, hvalue, hlog, hall], ?_⟩
    rintro rfl
    cases hruntime : a.runtime with
    | none =>
        simp [hruntime] at hvalue
    | some e =>
        have hadded : (log.append a.log).hasRuntimeError = true := by
          simp [Log.append, Log.hasRuntimeError, Additions.log, Additions.diagnostics, hruntime,
            Diagnostic.ofRuntime, Diagnostic.isStatic]
        simp [hstatic, hadded]

end Told

/-- Whatever a log holds, running a source only adds to it, phase by phase and behind the gates; how
the run ended is told by what was added; and a log without static errors makes no difference.  The
same goes for evaluating a source as an expression, which moreover prints nothing, gives a value if
and only if nothing is or was wrong, and else leaves a log that tells what went wrong.  A run is
given up only behind the gates. -/
theorem phases_append_behind_gates
    (host : Host)
    (source : String)
    (log : Log) :
    (∀ outcome log', run host source log = some (outcome, log') →
      ∃ a : Additions, log' = log.append a.log ∧ a.Gated log (.ofProgram source) ∧
        (outcome = .staticError ↔ log'.hasStaticError = true) ∧
        (outcome = .runtimeError ↔ a.diagnostics.countP (fun d => !d.isStatic) = 1) ∧
        (outcome = .success ↔ a.diagnostics = [] ∧ log.hasStaticError = false)) ∧
    (run host source log = none →
      (Report.ofProgram source).all = [] ∧ log.hasStaticError = false) ∧
    (log.hasStaticError = false → run host source log =
      (run host source .empty).map fun (outcome, added) => (outcome, log.append added)) ∧
    (∀ value log', evaluate host source log = some (value, log') →
      ∃ a : Additions, log' = log.append a.log ∧ a.Gated log (.ofExpression source) ∧
        a.lines = [] ∧
        (value.isSome ↔ a.diagnostics = [] ∧ log.hasStaticError = false) ∧
        (value = none →
          log'.outcome = if a.runtime.isSome then .runtimeError else .staticError)) ∧
    (log.hasStaticError = false → evaluate host source log =
      (evaluate host source .empty).map fun (value, added) => (value, log.append added)) := by
  obtain ⟨ending, hgo, hends⟩ := exists_ending_interpret host
    (Resolution.ofProgram (parse source .empty).1).locals (parse source .empty).1
  obtain ⟨go, ending', hevaluate, hgo', hends'⟩ := exists_evaluate_eq_gate host source
  rw [run_eq_gate, hevaluate]
  refine ⟨?_, ?_, gate_append hgo, ?_, gate_append hgo'⟩
  · intro outcome log' h
    obtain ⟨a, rfl, hgated, hending⟩ := gate_eq_some hgo h
    refine ⟨a, rfl, hgated, outcome_told hgated (hending.imp id ?_)⟩
    rintro ⟨hstatic, rfl⟩
    exact ⟨hstatic, hends _ rfl⟩
  · intro h
    exact (gate_eq_none h).symm
  · intro value log' h
    obtain ⟨a, rfl, hgated, hending⟩ := gate_eq_some hgo' h
    have hlines : a.lines = [] := by
      rcases hending with ⟨hstatic, -⟩ | ⟨-, rfl⟩
      · exact (hgated.run hstatic).2
      · exact (hends' _ rfl).1
    refine ⟨a, rfl, hgated, hlines, value_told hgated (hending.imp id ?_)⟩
    rintro ⟨hstatic, rfl⟩
    exact ⟨hstatic, (hends' _ rfl).2⟩

/-- An earlier runtime error and an earlier line have no influence on `print true;nope;`. -/
theorem phases_append_behind_gates_later_run :
    let host : Host := ⟨fun _ => 0, 5⟩
    let log : Log := ⟨[.runtime 7 "Superclass must be a class."], ["earlier"]⟩
    let added : Log := ⟨[.runtime 1 "Undefined variable 'nope'."], ["true"]⟩
    log.hasStaticError = false ∧
      run host "print true;nope;" log = some (.runtimeError, log.append added) ∧
      (∃ a : Additions, log.append added = log.append a.log ∧
        a.Gated log (.ofProgram "print true;nope;") ∧
        a.diagnostics.countP (fun d => !d.isStatic) = 1) ∧
      run host "print true;nope;" log = (run host "print true;nope;" .empty).map
        fun (outcome, added) => (outcome, log.append added) := by
  intro host log added
  have hlog : log.hasStaticError = false := by decide
  have hrun : run host "print true;nope;" log = some (.runtimeError, log.append added) := by
    decide +kernel
  obtain ⟨hadds, -, hsame, -⟩ := phases_append_behind_gates host "print true;nope;" log
  obtain ⟨a, ha, hgated, -, hruntime, -⟩ := hadds _ _ hrun
  exact ⟨hlog, hrun, ⟨a, ha, hgated, hruntime.mp rfl⟩, hsame hlog⟩

end Session

end Lox
