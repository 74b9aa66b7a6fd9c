import Lox.Command
import Lox.Proofs.Session.History
import Lox.Proofs.Text.Utf8

/-!
# The exit status tells the truth

Commands end in different ways: some show what is in the log and take their status from it, others
show each error when they meet it, or end with nothing to show.  Which way is taken is decided by the
outcome of a run, by the log, or by whether there is a value.  All this comes to the same: the status
and what is shown are those that the log of the phases calls for.
-/

namespace Lox

namespace Log

variable {log : Log}

theorem outcome_eq_staticError_iff :
    log.outcome = .staticError ↔ ∃ d ∈ log.diagnostics, d.isStatic = true := by
  unfold outcome hasStaticError
  split
  · simp_all
  · split <;> simp_all

theorem outcome_eq_success_iff :
    log.outcome = .success ↔ log.diagnostics = [] := by
  unfold outcome hasStaticError hasRuntimeError
  cases log.diagnostics with
  | nil =>
      simp
  | cons d rest =>
      cases hstatic : d.isStatic with
      | true =>
          simp [hstatic]
      | false =>
          simp only [List.any_cons, hstatic, Bool.not_false, Bool.true_or, if_true]
          split <;> simp

/-- Where errors of one sort are reported only, a runtime error decides the outcome. -/
theorem outcome_eq_runtimeError_iff
    (hapart : log.hasStaticError = true → log.hasRuntimeError = false) :
    log.outcome = .runtimeError ↔ ∃ d ∈ log.diagnostics, d.isStatic = false := by
  have hruntime : log.hasRuntimeError = true ↔ ∃ d ∈ log.diagnostics, d.isStatic = false := by
    simp [hasRuntimeError]
  rw [← hruntime]
  unfold outcome
  split
  · rename_i hstatic
    simp [hapart hstatic]
  · split <;> simp_all

section Static

variable (hstatic : ∀ d ∈ log.diagnostics, d.isStatic = true)

include hstatic

theorem hasRuntimeError_eq_false : log.hasRuntimeError = false := by
  simpa [hasRuntimeError] using hstatic

theorem diagnostics_eq_nil
    (hclean : log.hasStaticError = false) :
    log.diagnostics = [] := by
  refine outcome_eq_success_iff.mp ?_
  simp [outcome, hclean, hasRuntimeError_eq_false hstatic]

theorem outcome_eq_ite :
    log.outcome = if log.hasStaticError then .staticError else .success := by
  simp [outcome, hasRuntimeError_eq_false hstatic]

end Static

end Log

namespace Command

open Session

theorem linesOf_cons
    (text : String)
    (rest : List String) :
    linesOf (text :: rest) = text ++ "\n" ++ linesOf rest := by
  simp [linesOf]

/-- Every text leaves a line. -/
theorem linesOf_eq_empty_iff
    {texts : List String} :
    linesOf texts = "" ↔ texts = [] := by
  cases texts with
  | nil =>
      simp [linesOf]
  | cons text rest =>
      simp [linesOf_cons]

/-- The log of the phases that an action runs, if they end. -/
def Action.log? (host : Host) (source : String) : Action → Option Log
  | .tokenize _ => some (Session.tokenize source .empty).2
  | .parse _ => some (Session.parse source .empty).2
  | .evaluate => (Session.evaluate host source .empty).map (·.2)
  | .run => (Session.run host source .empty).map (·.2)

/-- A report has the status and shows the errors of a log, which has errors of one sort only. -/
structure Report.Tells (report : Report) (log : Log) : Prop where
  exit : report.exit = log.outcome.exitCode
  stderr : report.stderr = linesOf (log.diagnostics.map Diagnostic.text)
  apart : log.hasStaticError = true → log.hasRuntimeError = false

section Tells

variable {report : Report}
variable {log : Log}

theorem Report.finish_tells
    (stdout : String)
    (hapart : log.hasStaticError = true → log.hasRuntimeError = false) :
    (Report.finish stdout log).Tells log :=
  ⟨rfl, rfl, hapart⟩

/-- Ending with nothing to complain of is right only if nothing was reported. -/
theorem Report.done_tells
    (stdout : String)
    (h : log.diagnostics = []) :
    (Report.done stdout).Tells log where
  exit := by
    rw [done, Log.outcome_eq_success_iff.mpr h]
  stderr := by
    rw [done, h]
    rfl
  apart := by
    simp [Log.hasStaticError, h]

theorem Report.Tells.exit_eq_zero_iff
    (h : report.Tells log) :
    report.exit = 0 ↔ report.stderr = "" := by
  rw [h.exit, h.stderr, linesOf_eq_empty_iff, List.map_eq_nil_iff, ← Log.outcome_eq_success_iff]
  cases log.outcome <;> simp [Outcome.exitCode]

theorem Report.Tells.exit_eq_static_iff
    (h : report.Tells log) :
    report.exit = 65 ↔ ∃ d ∈ log.diagnostics, d.isStatic = true := by
  rw [h.exit, ← Log.outcome_eq_staticError_iff]
  cases log.outcome <;> simp [Outcome.exitCode]

theorem Report.Tells.exit_eq_runtime_iff
    (h : report.Tells log) :
    report.exit = 70 ↔ ∃ d ∈ log.diagnostics, d.isStatic = false := by
  rw [h.exit, ← Log.outcome_eq_runtimeError_iff h.apart]
  cases log.outcome <;> simp [Outcome.exitCode]

theorem Report.Tells.exit_ne_one
    (h : report.Tells log) :
    report.exit ≠ 1 := by
  rw [h.exit]
  cases log.outcome <;> simp [Outcome.exitCode]

end Tells

section Tokenize

variable (host : Host)
variable (source : String)

/-- What the two ways of listing terminals write. -/
def listingOf (json : Bool) (terminals : List Terminal) : String :=
  if json then (Text.Json.array (terminals.map Terminal.json)).pretty ++ "\n"
  else linesOf (terminals.map Terminal.listing)

/-- The items are listed in order: tokens on the one side, and errors on the other. -/
theorem Listing.foldl_add
    (items : List Scan.Item)
    (line : Nat)
    (listing : Listing) :
    items.foldl Listing.add listing =
      ⟨listing.stdout ++ linesOf ((Scan.tokens ⟨items, line⟩).map Token.listing),
        listing.stderr ++
          linesOf (((Scan.faults ⟨items, line⟩).map Diagnostic.ofLexical).map Diagnostic.text),
        listing.log.report ((Scan.faults ⟨items, line⟩).map Diagnostic.ofLexical)⟩ := by
  induction items generalizing listing with
  | nil =>
      simp [Scan.tokens, Scan.faults, Log.report, linesOf]
  | cons item rest ih =>
      rw [List.foldl_cons, ih]
      cases item with
      | token t =>
          simp [Listing.add, Scan.tokens, Scan.faults, linesOf_cons, String.append_assoc]
      | fault line cause =>
          simp [Listing.add, Scan.tokens, Scan.faults, linesOf_cons, String.append_assoc, Log.report]

theorem isStatic_of_mem_tokenize :
    ∀ d ∈ (Session.tokenize source .empty).2.diagnostics, d.isStatic = true := by
  intro d hd
  obtain ⟨fault, -, rfl⟩ := List.mem_map.mp hd
  rfl

/-- Both ways of listing tokens show the same terminals and the same errors, with the same status. -/
theorem perform_tokenize
    (json : Bool) :
    ∃ report, Action.perform host source (.tokenize json) = some report ∧
      report.Tells (Session.tokenize source .empty).2 ∧
      report.stdout = listingOf json (Scan.ofSource source).terminals := by
  have hstatic := isStatic_of_mem_tokenize source
  have happart := fun _ : (Session.tokenize source .empty).2.hasStaticError = true =>
    Log.hasRuntimeError_eq_false hstatic
  cases json with
  | false =>
      refine ⟨_, rfl, ⟨?_, ?_, happart⟩, ?_⟩
      · rw [Log.outcome_eq_ite hstatic, Listing.report, Listing.ofScan,
          Listing.foldl_add _ (Scan.ofSource source).endLine]
        rfl
      · rw [Listing.report, Listing.ofScan, Listing.foldl_add _ (Scan.ofSource source).endLine]
        simp [Listing.empty, Session.tokenize, Log.report, Log.empty]
      · rw [Listing.report, Listing.ofScan, Listing.foldl_add _ (Scan.ofSource source).endLine]
        simp [Listing.empty, listingOf, Scan.terminals, Terminal.listing, linesOf, Function.comp_def]
  | true =>
      refine ⟨_, rfl, ?_, ?_⟩
      · split
        · exact Report.finish_tells _ happart
        · rename_i hclean
          rw [Bool.not_eq_true] at hclean
          exact Report.done_tells _ (Log.diagnostics_eq_nil hstatic hclean)
      · split <;> rfl

end Tokenize

section Parse

variable (host : Host)
variable (source : String)

theorem isStatic_of_mem_parse :
    ∀ d ∈ (Session.parse source .empty).2.diagnostics, d.isStatic = true := by
  intro d hd
  refine (Session.Report.ofProgram source).isStatic_of_mem_early d ?_
  simpa [Session.parse, Session.tokenize, Session.readProgram, Log.report, Log.empty,
    Session.Report.early, Session.Report.ofProgram] using hd

theorem perform_parse
    (json : Bool) :
    ∃ report, Action.perform host source (.parse json) = some report ∧
      report.Tells (Session.parse source .empty).2 ∧
      ((Session.parse source .empty).2.hasStaticError = true → report.stdout = "") := by
  have hstatic := isStatic_of_mem_parse source
  unfold Action.perform
  dsimp only
  split
  · refine ⟨_, rfl, Report.finish_tells _ fun _ => Log.hasRuntimeError_eq_false hstatic, ?_⟩
    intro _
    rfl
  · rename_i hclean
    rw [Bool.not_eq_true] at hclean
    refine ⟨_, rfl, Report.done_tells _ (Log.diagnostics_eq_nil hstatic hclean), ?_⟩
    intro herror
    rw [hclean] at herror
    cases herror

end Parse

section Runs

variable {host : Host}
variable {source : String}
variable {report : Report}

/-- Behind the gates, a static error keeps everything else from being reported or printed. -/
theorem alone_of_gated
    {a : Additions}
    {found : Session.Report}
    (hgated : a.Gated .empty found)
    (hstatic : (Log.empty.append a.log).hasStaticError = true) :
    (Log.empty.append a.log).hasRuntimeError = false ∧ (Log.empty.append a.log).lines = [] := by
  rw [a.hasStaticError_append_log] at hstatic
  obtain ⟨hruntime, hlines⟩ := hgated.run hstatic
  constructor
  · refine Log.hasRuntimeError_eq_false fun d hd => a.isStatic_of_mem d ?_
    simpa [Log.append, Log.empty, Additions.log, Additions.diagnostics, hruntime] using hd
  · simp [Log.append, Log.empty, Additions.log, hlines]

/-- How a run ended is how things stand in its log. -/
theorem outcome_eq_of_run
    {outcome : Outcome}
    {log : Log}
    (h : Session.run host source .empty = some (outcome, log)) :
    outcome = log.outcome ∧
      (log.hasStaticError = true → log.hasRuntimeError = false ∧ log.lines = []) := by
  obtain ⟨ending, hgo, hends⟩ := exists_ending_interpret host
    (Resolution.ofProgram (Session.parse source .empty).1).locals (Session.parse source .empty).1
  rw [run_eq_gate] at h
  obtain ⟨a, rfl, hgated, hending⟩ := gate_eq_some hgo h
  obtain ⟨hstatic, hruntime, hsuccess⟩ := outcome_told hgated (hending.imp id fun ⟨hclean, hsome⟩ =>
    ⟨hclean, hends ⟨outcome, a.runtime, a.lines⟩ hsome⟩)
  refine ⟨?_, alone_of_gated hgated⟩
  symm
  cases outcome with
  | success =>
      exact Log.outcome_eq_success_iff.mpr (hsuccess.mp rfl).1
  | staticError =>
      rw [Log.outcome, if_pos (hstatic.mp rfl)]
  | runtimeError =>
      refine (Log.outcome_eq_runtimeError_iff fun h => (alone_of_gated hgated h).1).mpr ?_
      have hpos : 0 < a.diagnostics.countP fun d => !d.isStatic := by
        rw [hruntime.mp rfl]
        exact Nat.one_pos
      simpa [Log.append, Log.empty, Additions.log] using List.countP_pos_iff.mp hpos

theorem tells_of_perform_run
    (h : Action.perform host source .run = some report) :
    ∃ log, Session.run host source .empty = some (log.outcome, log) ∧ report.Tells log ∧
      report.stdout = linesOf log.lines ∧ (log.hasStaticError = true → log.lines = []) := by
  rw [Action.perform, Option.map_eq_some_iff] at h
  obtain ⟨⟨outcome, log⟩, hrun, rfl⟩ := h
  obtain ⟨rfl, halone⟩ := outcome_eq_of_run hrun
  refine ⟨log, hrun, ?_, ?_, fun hstatic => (halone hstatic).2⟩
  · dsimp only
    split
    · rename_i hsuccess
      exact Report.done_tells _ (Log.outcome_eq_success_iff.mp hsuccess)
    · exact Report.finish_tells _ fun hstatic => (halone hstatic).1
  · dsimp only
    split <;> rfl

theorem tells_of_perform_evaluate
    (h : Action.perform host source .evaluate = some report) :
    ∃ value log, Session.evaluate host source .empty = some (value, log) ∧ report.Tells log ∧
      (log.diagnostics ≠ [] → report.stdout = "") := by
  rw [Action.perform, Option.map_eq_some_iff] at h
  obtain ⟨⟨value, log⟩, hrun, rfl⟩ := h
  obtain ⟨go, ending, hevaluate, hgo, hends⟩ := exists_evaluate_eq_gate host source
  have hgate := hrun
  rw [hevaluate] at hgate
  obtain ⟨a, rfl, hgated, hending⟩ := gate_eq_some hgo hgate
  have htold := value_told hgated (hending.imp id fun ⟨hstatic, hsome⟩ =>
    ⟨hstatic, (hends ⟨value, a.runtime, a.lines⟩ hsome).2⟩)
  have hlines : a.lines = [] := by
    rcases hending with ⟨hstatic, -⟩ | ⟨-, hsome⟩
    · exact (hgated.run hstatic).2
    · exact (hends ⟨value, a.runtime, a.lines⟩ hsome).1
  refine ⟨value, _, hrun, ?_, ?_⟩
  · cases value with
    | some value =>
        exact Report.done_tells _ (htold.1.mp rfl).1
    | none =>
        exact Report.finish_tells _ fun hstatic => (alone_of_gated hgated hstatic).1
  · intro hreported
    cases value with
    | some value =>
        exact absurd (htold.1.mp rfl).1 hreported
    | none =>
        simp [Report.finish, Log.append, Log.empty, Additions.log, hlines, linesOf]

/-- A run that ends with a runtime error leaves in the log what was printed before it. -/
theorem lines_of_run_eq_runtimeError
    {log : Log}
    (h : Session.run host source .empty = some (.runtimeError, log)) :
    ∃ e m, Machine.interpret ⟨(Session.analyse source .empty).2.1, host.clock⟩ host.fuel
        (Session.analyse source .empty).1 .start = (.error (.fault e), m) ∧
      log.lines = m.output.toList := by
  rw [run_eq_gate] at h
  unfold gate at h
  split at h
  · cases h
  · split at h
    · cases h
    · unfold Session.interpret at h
      split at h
      · cases h
      · rename_i e m hrun
        cases h
        refine ⟨e, m, ?_, rfl⟩
        simp only [Session.analyse, Session.resolve]
        exact hrun
      · cases h

end Runs

/-- What an action writes on the standard output when something was reported. -/
structure Report.Restrained (report : Report) (host : Host) (source : String) (action : Action) :
    Prop where
  /-- Only listings of tokens are written in spite of static errors. -/
  static : report.exit = 65 → (∀ json, action ≠ .tokenize json) → report.stdout = ""
  /-- A run that fails has written what it printed before. -/
  run : report.exit = 70 → action = .run →
    ∃ e m, Machine.interpret ⟨(Session.analyse source .empty).2.1, host.clock⟩ host.fuel
        (Session.analyse source .empty).1 .start = (.error (.fault e), m) ∧
      report.stdout = linesOf m.output.toList
  evaluate : report.exit = 70 → action = .evaluate → report.stdout = ""

/-- Every action ends as the log of its phases calls for. -/
theorem tells_of_perform
    {host : Host}
    {source : String}
    {action : Action}
    {report : Report}
    (h : action.perform host source = some report) :
    ∃ log, action.log? host source = some log ∧ report.Tells log ∧
      report.Restrained host source action := by
  cases action with
  | tokenize json =>
      obtain ⟨report', hreport, htells, -⟩ := perform_tokenize host source json
      cases hreport.symm.trans h
      exact ⟨_, rfl, htells, ⟨fun _ hother => absurd rfl (hother json), by simp, by simp⟩⟩
  | parse json =>
      obtain ⟨report', hreport, htells, hempty⟩ := perform_parse host source json
      cases hreport.symm.trans h
      refine ⟨_, rfl, htells, ⟨?_, by simp, by simp⟩⟩
      intro hexit _
      apply hempty
      simpa [Log.hasStaticError] using htells.exit_eq_static_iff.mp hexit
  | evaluate =>
      obtain ⟨value, log, hrun, htells, hempty⟩ := tells_of_perform_evaluate h
      have hsilent : report.exit = 65 ∨ report.exit = 70 → report.stdout = "" := by
        intro hexit
        apply hempty
        rintro hnil
        rw [htells.exit_eq_static_iff, htells.exit_eq_runtime_iff, hnil] at hexit
        simp at hexit
      refine ⟨log, ?_, htells, ⟨fun hexit _ => hsilent (.inl hexit), by simp,
        fun hexit _ => hsilent (.inr hexit)⟩⟩
      rw [Action.log?, hrun]
      rfl
  | run =>
      obtain ⟨log, hrun, htells, hstdout, hlines⟩ := tells_of_perform_run h
      refine ⟨log, ?_, htells, ⟨?_, ?_, by simp⟩⟩
      · rw [Action.log?, hrun]
        rfl
      · intro hexit _
        have hstatic : log.hasStaticError = true := by
          simpa [Log.hasStaticError] using htells.exit_eq_static_iff.mp hexit
        rw [hstdout, hlines hstatic]
        rfl
      · intro hexit _
        have houtcome := (Log.outcome_eq_runtimeError_iff htells.apart).mpr
          (htells.exit_eq_runtime_iff.mp hexit)
        rw [houtcome] at hrun
        obtain ⟨e, m, hinterpret, hprinted⟩ := lines_of_run_eq_runtimeError hrun
        exact ⟨e, m, hinterpret, by rw [hstdout, hprinted]⟩

/-- A request on well-formed bytes is its action on the text. -/
theorem Request.perform_of_utf8
    {bytes : List UInt8}
    {source : String}
    (h : bytes.toByteArray = source.toByteArray)
    (host : Host)
    (request : Request) :
    request.perform host (.ok bytes) = request.action.perform host source := by
  simp only [Request.perform, Text.ofBytes_eq_ok_iff.mpr h]

/-- Whatever bytes a file holds and whatever is to be done with it: the status is 1 exactly if the
bytes are not UTF-8, and then nothing is written to the standard output.  Otherwise it is 65 exactly
if a static error was reported and 70 exactly if a runtime error was; all errors are shown, as they
read and in order; and the standard output has nothing that the errors forbid.  It is 0 exactly if
nothing is shown as an error.  Both ways of listing tokens show the same tokens and the same errors. -/
theorem exit_status_tells_truth
    (host : Host)
    (request : Request)
    (bytes : List UInt8)
    (report : Report)
    (hreport : request.perform host (.ok bytes) = some report) :
    (report.exit = 1 ↔ ¬ bytes.toByteArray.IsValidUTF8) ∧
    (report.exit = 1 → report.stdout = "") ∧
    (report.exit = 0 ↔ report.stderr = "") ∧
    ∀ source : String, bytes.toByteArray = source.toByteArray →
      (∃ log, request.action.log? host source = some log ∧
        (report.exit = 65 ↔ ∃ d ∈ log.diagnostics, d.isStatic = true) ∧
        (report.exit = 70 ↔ ∃ d ∈ log.diagnostics, d.isStatic = false) ∧
        report.stderr = linesOf (log.diagnostics.map Diagnostic.text) ∧
        report.Restrained host source request.action) ∧
      ∀ json, request.action = .tokenize json → ∀ mode, ∃ report',
        { request with action := .tokenize mode }.perform host (.ok bytes) = some report' ∧
        report'.exit = report.exit ∧ report'.stderr = report.stderr ∧
        report'.stdout = listingOf mode (Scan.ofSource source).terminals := by
  by_cases hvalid : bytes.toByteArray.IsValidUTF8
  · let text : String := ⟨bytes.toByteArray, hvalid⟩
    have htext : bytes.toByteArray = text.toByteArray := rfl
    have hperform := hreport
    rw [Request.perform_of_utf8 htext] at hperform
    obtain ⟨log, hlog, htells, hrestrained⟩ := tells_of_perform hperform
    refine ⟨iff_of_false htells.exit_ne_one (not_not_intro hvalid),
      fun hexit => absurd hexit htells.exit_ne_one, htells.exit_eq_zero_iff, ?_⟩
    intro source hsource
    obtain rfl : text = source := String.toByteArray_inj.mp (htext.symm.trans hsource)
    refine ⟨⟨log, hlog, htells.exit_eq_static_iff, htells.exit_eq_runtime_iff, htells.stderr,
      hrestrained⟩, ?_⟩
    intro json haction mode
    rw [haction] at hlog
    obtain ⟨report', hreport', htells', hstdout⟩ := perform_tokenize host text mode
    refine ⟨report', ?_, ?_, ?_, hstdout⟩
    · rw [Request.perform_of_utf8 htext]
      exact hreport'
    · cases hlog
      rw [htells'.exit, htells.exit]
    · cases hlog
      rw [htells'.stderr, htells.stderr]
  · obtain ⟨fault, hfault⟩ := Text.ofBytes_eq_error_iff.mpr hvalid
    simp only [Request.perform, hfault] at hreport
    cases hreport
    refine ⟨iff_of_true rfl hvalid, fun _ => rfl, ?_, ?_⟩
    · simp [Report.failed]
    · intro source hsource
      rw [hsource] at hvalid
      exact absurd source.isValidUTF8 hvalid

/-- `print true;nope;` is run up to its error. -/
theorem exit_status_tells_truth_runtime :
    let host : Host := ⟨fun _ => 0, 5⟩
    let request : Request := ⟨.run, "a.lox", false⟩
    let bytes : List UInt8 :=
      [112, 114, 105, 110, 116, 32, 116, 114, 117, 101, 59, 110, 111, 112, 101, 59]
    ∃ report, request.perform host (.ok bytes) = some report ∧ report.exit = 70 ∧
      bytes.toByteArray.IsValidUTF8 ∧ report.stderr ≠ "" ∧
      ∃ e m, Machine.interpret ⟨(Session.analyse "print true;nope;" .empty).2.1, host.clock⟩ host.fuel
          (Session.analyse "print true;nope;" .empty).1 .start = (.error (.fault e), m) ∧
        report.stdout = linesOf m.output.toList := by
  intro host request bytes
  have hsource : bytes.toByteArray = "print true;nope;".toByteArray :=
    Text.ofBytes_eq_ok_iff.mp rfl
  have hexits : (request.perform host (.ok bytes)).map Report.exit = some 70 := by
    rw [Request.perform_of_utf8 hsource]
    decide +kernel
  obtain ⟨report, hreport, hexit⟩ := Option.map_eq_some_iff.mp hexits
  obtain ⟨hone, -, hzero, hvalid⟩ := exit_status_tells_truth host request bytes report hreport
  obtain ⟨⟨log, -, -, -, -, hrestrained⟩, -⟩ := hvalid _ hsource
  refine ⟨report, hreport, hexit, ?_, ?_, hrestrained.run hexit rfl⟩
  · rw [hexit] at hone
    exact not_not.mp (mt hone.mpr (by decide))
  · intro hsilent
    rw [hexit] at hzero
    exact absurd (hzero.mpr hsilent) (by decide)

end Command
end Lox
