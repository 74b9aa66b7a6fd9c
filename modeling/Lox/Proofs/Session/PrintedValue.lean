import Lox.Proofs.Grammar.AcceptStatement
import Lox.Proofs.Grammar.ReadStatement
import Lox.Proofs.Machine.Fuel
import Lox.Proofs.Session.History
import Lox.Proofs.Token.Separation

/-!
# Evaluating a source and printing it

A source can be evaluated as a single expression, or stand in a print statement of a program.  The
two go different ways through every phase: the statement has more tokens around those of the
expression, is read by another rule, resolved among the statements of a program and executed.  They
come to the same: the program prints the value, or stops with the same error on the same line.
-/

namespace Lox

/-- A print statement whose expression is the given source.  The semicolon stands on a line of its
own, since the source may end in a comment. -/
def Session.printing (source : String) : String :=
  "print " ++ source ++ "\n;"

namespace Scan

variable {source : String}

theorem cut_print
    (cs : List Char) :
    Piece.cut ("print ".toList ++ cs) =
      ⟨.token (.keyword .print), "print".toList⟩ :: ⟨.blank, [' ']⟩ :: Piece.cut cs := by
  have hword : Piece.lead 'p' ("rint ".toList ++ cs) =
      (⟨.token (.keyword .print), "print".toList⟩, ' ' :: cs) := by
    rfl
  have hblank : Piece.lead ' ' cs = (⟨.blank, [' ']⟩, cs) := by
    rfl
  calc
    Piece.cut ("print ".toList ++ cs) = Piece.cut ('p' :: ("rint ".toList ++ cs)) := by rfl
    _ = _ := by rw [Piece.cut_cons, hword, Piece.cut_cons, hblank]

/-- The items of a print statement are those of its source between a keyword and a semicolon, on the
same lines. -/
theorem items_printing
    (hfaults : (ofSource source).faults = []) :
    (ofSource (Session.printing source)).items =
      .token ⟨.keyword .print, "print", 1⟩ ::
        ((ofSource source).items ++
          [.token ⟨.punct .semicolon, ";", (ofSource source).endLine + 1⟩]) := by
  have hchars : (Session.printing source).toList =
      "print ".toList ++ (source.toList ++ ['\n', ';']) := by
    simp [Session.printing]
  have hcut : Piece.cut (source.toList ++ ['\n', ';']) =
      Piece.cut source.toList ++ [⟨.blank, ['\n']⟩, ⟨.token (.punct .semicolon), [';']⟩] :=
    Piece.cut_append_newline (isOpen_eq_false_of_faults hfaults) [';']
  unfold ofSource ofChars
  rw [hchars, cut_print, hcut]
  rw [ofPieces, ofPieces]
  dsimp only
  rw [ofPieces_append]
  rfl

theorem tokens_printing
    (hfaults : (ofSource source).faults = []) :
    (ofSource (Session.printing source)).tokens =
      ⟨.keyword .print, "print", 1⟩ ::
        ((ofSource source).tokens ++ [⟨.punct .semicolon, ";", (ofSource source).endLine + 1⟩]) := by
  unfold tokens
  rw [items_printing hfaults]
  simp

theorem faults_printing
    (hfaults : (ofSource source).faults = []) :
    (ofSource (Session.printing source)).faults = [] := by
  have hsource := hfaults
  unfold faults at hfaults ⊢
  rw [items_printing hsource]
  simp [hfaults]

end Scan

namespace Session

/-- What a source that is evaluated without static errors was read as. -/
structure Sound (source : String) (e : Expr) : Prop where
  faults : (Scan.ofSource source).faults = []
  reads : ∃ count, Grammar.ExprReads 0 0 (Scan.ofSource source).tokens e count
  resolves : (Resolution.ofExpression e).errors = []

section Sound

variable {host : Host}
variable {source : String}
variable {e : Expr}

/-- An evaluation without static errors passed all phases. -/
theorem exists_sound_of_evaluate
    {value : Option Value}
    {log : Log}
    (h : evaluate host source .empty = some (value, log))
    (hstatic : log.hasStaticError = false) :
    ∃ e, Sound source e ∧
      evaluateResolved host (Resolution.ofExpression e).locals e .empty = some (value, log) := by
  obtain ⟨go, -, hgate, -⟩ := exists_evaluate_eq_gate host source
  have hclean : (Report.ofExpression source).all = [] :=
    all_eq_nil_of_gate (hgate ▸ h) hstatic
  obtain ⟨hearly, hresolve⟩ := List.append_eq_nil_iff.mp hclean
  rw [Report.early_ofExpression] at hearly
  obtain ⟨hlexical, hparse⟩ := List.append_eq_nil_iff.mp hearly
  have hfaults := List.map_eq_nil_iff.mp hlexical
  obtain ⟨e, hparsed, hreads⟩ :=
    Grammar.reads_of_readExpression (List.map_eq_nil_iff.mp hparse)
  have herrors : (Resolution.ofExpression e).errors = [] := by
    unfold Report.ofExpression at hresolve
    dsimp only at hresolve
    rw [hparsed] at hresolve
    exact List.map_eq_nil_iff.mp hresolve
  refine ⟨e, ⟨hfaults, ⟨_, hreads⟩, herrors⟩, ?_⟩
  have hread := hreads.readExpression (Scan.ofSource source).endLine
  unfold evaluate parseExpression tokenize readExpression at h
  dsimp only at h
  rw [hread, hfaults] at h
  unfold resolve at h
  dsimp only at h
  rw [herrors] at h
  exact h

/-- A print statement of a sound source is read as such. -/
theorem Sound.parse
    (h : Sound source e) :
    parse (printing source) .empty = ([.print e], .empty) := by
  obtain ⟨count, hreads⟩ := h.reads
  have hread : Grammar.readProgram (Scan.ofSource (printing source)).tokens
      (Scan.ofSource (printing source)).endLine = ⟨[.print e], [], count⟩ := by
    rw [Scan.tokens_printing h.faults]
    have hprint := Grammar.DeclReads.statement (.print ⟨.keyword .print, "print", 1⟩
      ⟨.punct .semicolon, ";", (Scan.ofSource source).endLine + 1⟩ rfl hreads rfl)
    have hall := Grammar.DeclsRead.cons hprint (.nil count)
    rw [List.append_nil] at hall
    exact hall.readProgram _
  unfold Session.parse tokenize readProgram
  dsimp only
  rw [hread, Scan.faults_printing h.faults]
  rfl

/-- Resolving a print statement is resolving its expression. -/
theorem ofProgram_print
    (e : Expr) :
    Resolution.ofProgram [.print e] = Resolution.ofExpression e := by
  simp [Resolution.ofProgram, Resolution.ofExpression, Stmt.resolveAll, Stmt.resolve]

theorem Sound.run
    (h : Sound source e)
    (host : Host) :
    run host (printing source) .empty =
      interpret host (Resolution.ofExpression e).locals [.print e] .empty := by
  unfold Session.run
  rw [h.parse]
  dsimp only
  rw [ofProgram_print]
  unfold resolve
  dsimp only
  rw [h.resolves]
  rfl

end Sound

/-- Running a print statement is evaluating its expression and printing the value. -/
theorem interpret_print
    (σ : Setting)
    (fuel : Nat)
    (e : Expr)
    (m : Machine) :
    Machine.interpret σ (fuel + 1) [.print e] m =
      match eval σ fuel e m with
      | (.ok v, m') => (.ok (), { m' with output := m'.output.push (v.display m'.objects) })
      | (.error stop, m') => (.error stop, m') := by
  simp only [Machine.interpret, Run.execAll, exec, execStep, Run.bind_apply]
  rcases eval σ fuel e m with ⟨_ | v, m'⟩ <;> rfl

/-- A resolved expression does the same in a print statement. -/
theorem interpret_print_of_evaluate
    {clock : Nat → Float}
    {fuel more : Nat}
    {locals : Locals}
    {e : Expr}
    {value : Option Value}
    {log : Log}
    (h : evaluateResolved ⟨clock, fuel⟩ locals e .empty = some (value, log))
    (hmore : fuel < more) :
    (∀ v, value = some v → ∀ objects,
      interpret ⟨clock, more⟩ locals [.print e] .empty =
        some (.success, ⟨[], [v.display objects]⟩)) ∧
    (value = none → ∃ line message,
      log.diagnostics = [.runtime line message] ∧
      interpret ⟨clock, more⟩ locals [.print e] .empty =
        some (.runtimeError, ⟨[.runtime line message], []⟩)) := by
  obtain ⟨deeper, rfl⟩ : ∃ k, more = k + 1 := ⟨more - 1, by omega⟩
  have hidles := eval_idles ⟨locals, clock⟩ fuel e Machine.start_basic
  have hdeeper := (approximates_of_le ⟨locals, clock⟩ (Nat.le_of_lt_succ hmore)).1 e .start
  unfold evaluateResolved at h
  unfold interpret
  dsimp only at h ⊢
  rw [interpret_print]
  rcases heval : eval ⟨locals, clock⟩ fuel e .start with ⟨result, m⟩
  have houtput : m.output = #[] := by
    have hidle := hidles.output
    rw [heval] at hidle
    exact hidle
  rw [heval] at h hdeeper
  cases result with
  | ok v =>
      cases h
      have hbasic := hidles.ok v (by rw [heval])
      rw [hdeeper.resolve_left (by simp)]
      refine ⟨?_, by simp⟩
      intro v' hv objects
      cases hv
      simp [Log.print, Log.empty, houtput, hbasic.display_eq m.objects objects]
  | error stop =>
      cases stop with
      | outOfFuel =>
          cases h
      | fault error =>
          cases h
          rw [hdeeper.resolve_left (by simp)]
          refine ⟨by simp, fun _ => ⟨error.found.line, error.fault.message, ?_, ?_⟩⟩
          · rfl
          · simp [Log.print, Log.report, Log.empty, houtput, Diagnostic.ofRuntime]

/-- A source that is evaluated without static errors does the same in a print statement: the program
prints its value and nothing else, or stops with its runtime error and prints nothing.  The
statement nests one level deeper, and any fuel beyond that will do. -/
theorem run_printing_of_evaluate
    {clock : Nat → Float}
    {fuel : Nat}
    {source : String}
    {value : Option Value}
    {log : Log}
    (h : evaluate ⟨clock, fuel⟩ source .empty = some (value, log))
    (hstatic : log.hasStaticError = false)
    {more : Nat}
    (hmore : fuel < more) :
    (∀ v, value = some v → ∀ objects,
      run ⟨clock, more⟩ ("print " ++ source ++ "\n;") .empty =
        some (.success, ⟨[], [v.display objects]⟩)) ∧
    (value = none → ∃ line message,
      log.diagnostics = [.runtime line message] ∧
      run ⟨clock, more⟩ ("print " ++ source ++ "\n;") .empty =
        some (.runtimeError, ⟨[.runtime line message], []⟩)) := by
  obtain ⟨e, hsound, hevaluate⟩ := exists_sound_of_evaluate h hstatic
  have hrun := hsound.run ⟨clock, more⟩
  unfold printing at hrun
  rw [hrun]
  exact interpret_print_of_evaluate hevaluate hmore

/-- The comment at the end of the source does not hide the semicolon. -/
theorem run_printing_of_evaluate_comment :
    run ⟨fun _ => 0, 4⟩ ("print " ++ "nope // no" ++ "\n;") .empty =
        some (.runtimeError, ⟨[.runtime 1 "Undefined variable 'nope'."], []⟩) ∧
      run ⟨fun _ => 0, 4⟩ ("print " ++ "true // yes" ++ "\n;") .empty =
        some (.success, ⟨[], ["true"]⟩) := by
  let host : Host := ⟨fun _ => 0, 3⟩
  constructor
  · have hnope : (evaluate host "nope // no" .empty).map (fun p => (p.1.isNone, p.2)) =
        some (true, ⟨[.runtime 1 "Undefined variable 'nope'."], []⟩) := by
      decide +kernel
    obtain ⟨⟨value, log⟩, hevaluate, hfound⟩ := Option.map_eq_some_iff.mp hnope
    obtain ⟨hnone, rfl⟩ := Prod.mk.inj hfound
    obtain ⟨-, herror⟩ := run_printing_of_evaluate hevaluate rfl (Nat.lt_succ_self 3)
    obtain ⟨line, message, hlog, hrun⟩ := herror (Option.isNone_iff_eq_none.mp hnone)
    cases hlog
    exact hrun
  · have htrue : (evaluate host "true // yes" .empty).map
          (fun p => (p.1.map (Value.display #[]), p.2)) =
        some (some "true", .empty) := by
      decide +kernel
    obtain ⟨⟨value, log⟩, hevaluate, hfound⟩ := Option.map_eq_some_iff.mp htrue
    obtain ⟨hvalue, rfl⟩ := Prod.mk.inj hfound
    obtain ⟨v, rfl, hdisplay⟩ := Option.map_eq_some_iff.mp hvalue
    obtain ⟨hprints, -⟩ := run_printing_of_evaluate hevaluate rfl (Nat.lt_succ_self 3)
    rw [← hdisplay]
    exact hprints v rfl #[]

end Session

end Lox
