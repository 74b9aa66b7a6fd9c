import Lox.Proofs.Session.History
import Lox.Proofs.Unlined.Evaluation
import Lox.Proofs.Unlined.Reading

/-!
# Layout does not matter

Two sources that scan to the same tokens and faults, lines apart, are the same program: they are
read as the same trees, up to the lines of tokens, with the same numbers; they have the same table of
local references; they print the same lines and end the same way; and the errors they report differ
in nothing but lines.  So it is for a source with blanks, line breaks or closed comments added
between its tokens.
-/

namespace Lox

namespace Scan

/-- What a piece yields, without its line. -/
def Item.unlined : Item → Item
  | .token t => .token t.unlined
  | .fault _ cause => .fault 0 cause

/-- A scan without lines. -/
def unlined (s : Scan) : Scan :=
  ⟨s.items.map Item.unlined, 0⟩

theorem tokens_unlined (s : Scan) : s.unlined.tokens = s.tokens.map Token.unlined := by
  simp only [tokens, unlined, List.filterMap_map, List.map_filterMap]
  congr 1
  funext item
  cases item <;> rfl

theorem faults_unlined (s : Scan) :
    s.unlined.faults = s.faults.map fun entry => (0, entry.2) := by
  simp only [faults, unlined, List.filterMap_map, List.map_filterMap]
  congr 1
  funext item
  cases item <;> rfl

/-- Lines apart, what pieces yield does not depend on where they stand. -/
theorem map_unlined_ofPieces
    (line : Nat)
    (pieces : List Piece) :
    (ofPieces line pieces).items.map Item.unlined = pieces.filterMap (·.item? 0) := by
  have hitem : ∀ (p : Piece) (line : Nat), (p.item? line).map Item.unlined = p.item? 0 := by
    rintro ⟨shape, text⟩ line
    cases shape with
    | stray =>
        cases text <;> rfl
    | _ =>
        rfl
  induction pieces generalizing line with
  | nil =>
      rfl
  | cons p rest ih =>
      have hfirst := hitem p (line + p.lineBreaks)
      simp only [ofPieces, List.map_append, ih, List.filterMap_cons, ← hfirst]
      cases p.item? (line + p.lineBreaks) <;> rfl

/-- Blanks and closed comments between the other pieces make no difference. -/
theorem map_unlined_eq_of_pieces
    {source source' : String}
    (h : (Piece.cut source.toList).filter (fun p => (p.item? 0).isSome) =
      (Piece.cut source'.toList).filter (fun p => (p.item? 0).isSome)) :
    (ofSource source).items.map Item.unlined = (ofSource source').items.map Item.unlined := by
  have hfilter : ∀ pieces : List Piece, pieces.filterMap (·.item? 0) =
      (pieces.filter fun p => (p.item? 0).isSome).filterMap (·.item? 0) := by
    intro pieces
    rw [List.filterMap_filter]
    congr 1
    funext p
    cases p.item? 0 <;> rfl
  simp only [ofSource, ofChars, map_unlined_ofPieces]
  rw [hfilter, h, ← hfilter]

end Scan

namespace Diagnostic

/-- An error without its line: its kind, what it points to, and what it says. -/
def unlined : Diagnostic → Diagnostic
  | .lexical _ message => .lexical 0 message
  | .parse found message => .parse found.unlined message
  | .resolve found message => .resolve found.unlined message
  | .runtime _ message => .runtime 0 message

@[simp] theorem isStatic_unlined (d : Diagnostic) : d.unlined.isStatic = d.isStatic := by
  cases d <;> rfl

theorem message_unlined (d : Diagnostic) : d.unlined.message = d.message := by
  cases d <;> rfl

theorem location?_unlined (d : Diagnostic) : d.unlined.location? = d.location? := by
  cases d with
  | parse found message | resolve found message =>
      cases found <;> rfl
  | _ =>
      rfl

end Diagnostic

namespace Log

/-- A log whose errors have no lines. -/
def unlined (log : Log) : Log :=
  ⟨log.diagnostics.map Diagnostic.unlined, log.lines⟩

theorem hasStaticError_unlined (log : Log) : log.unlined.hasStaticError = log.hasStaticError := by
  simp only [hasStaticError, unlined, List.any_map]
  congr 1
  funext d
  exact d.isStatic_unlined

theorem report_unlined (log : Log) (diagnostics : List Diagnostic) :
    (log.report diagnostics).unlined = log.unlined.report (diagnostics.map Diagnostic.unlined) := by
  simp [report, unlined]

theorem print_unlined (log : Log) (lines : List String) :
    (log.print lines).unlined = log.unlined.print lines := rfl

end Log

namespace Session

/-- What is wrong with a source, without lines. -/
def Report.unlined (r : Report) : Report :=
  ⟨r.lexical.map fun entry => (0, entry.2), r.parse.map SyntaxError.unlined,
    r.resolve.map ScopeError.unlined⟩

/-- A result, and a log without lines. -/
def forgetLines {β : Type} (entry : β × Log) : β × Log :=
  (entry.1, entry.2.unlined)

theorem Report.early_unlined (r : Report) : r.unlined.early = r.early.map Diagnostic.unlined := by
  simp only [early, unlined, List.map_append, List.map_map]
  rfl

theorem Report.all_unlined (r : Report) : r.unlined.all = r.all.map Diagnostic.unlined := by
  rw [all, early_unlined, all, List.map_append]
  simp only [unlined, List.map_map]
  rfl

/-- The gates open and close without regard to lines. -/
theorem gate_unlined
    {β : Type}
    {go go' : Log → Option (β × Log)}
    (hgo : ∀ log, (go log).map forgetLines = go' log.unlined)
    (found : Report)
    (refused : β)
    (log : Log) :
    (gate found refused go log).map forgetLines = gate found.unlined refused go' log.unlined := by
  unfold gate
  rw [found.early_unlined, found.all_unlined, ← Log.report_unlined, ← Log.report_unlined,
    Log.hasStaticError_unlined, Log.hasStaticError_unlined]
  split
  · rfl
  · split
    · rfl
    · exact hgo _

theorem start_unlined : Machine.start.unlined = Machine.start := by
  have hroot : Frames.root.unlined = Frames.root := by
    simp [Frames.root, Frames.unlined, Frame.unlined, mapBindings]
  have hframes := Frames.define_unlined .root Machine.globals "clock" (.native .clock)
  rw [hroot] at hframes
  simp only [Machine.start, Machine.unlined, ← hframes, Array.map_empty]
  rfl

theorem interpret_unlined
    (host : Host)
    (locals : Locals)
    (statements : List Stmt)
    (log : Log) :
    (interpret host locals statements log).map forgetLines =
      interpret host locals (statements.map Stmt.unlined) log.unlined := by
  have hrun := interpret_mirrors ⟨locals, host.clock⟩ host.fuel statements .start
  rw [start_unlined] at hrun
  unfold interpret
  rw [hrun]
  rcases Machine.interpret ⟨locals, host.clock⟩ host.fuel statements .start with ⟨result, m⟩
  cases result with
  | ok _ =>
      rfl
  | error stop =>
      cases stop with
      | outOfFuel =>
          rfl
      | fault e =>
          simp only [Option.map_some, forgetLines, Log.report_unlined, Log.print_unlined]
          rfl

section Pair

variable {source source' : String}
variable (h : (Scan.ofSource source).items.map Scan.Item.unlined =
  (Scan.ofSource source').items.map Scan.Item.unlined)

include h

theorem unlined_eq_of_items : (Scan.ofSource source).unlined = (Scan.ofSource source').unlined := by
  rw [Scan.unlined, h]
  rfl

theorem readProgram_eq_of_items :
    (Grammar.readProgram (Scan.ofSource source).tokens (Scan.ofSource source).endLine).unlined
        (List.map Stmt.unlined) =
      (Grammar.readProgram (Scan.ofSource source').tokens (Scan.ofSource source').endLine).unlined
        (List.map Stmt.unlined) := by
  rw [← Grammar.readProgram_unlined, ← Grammar.readProgram_unlined, ← Scan.tokens_unlined,
    ← Scan.tokens_unlined, unlined_eq_of_items h]

theorem readExpression_eq_of_items :
    (Grammar.readExpression (Scan.ofSource source).tokens (Scan.ofSource source).endLine).unlined
        (Option.map Expr.unlined) =
      (Grammar.readExpression (Scan.ofSource source').tokens
        (Scan.ofSource source').endLine).unlined (Option.map Expr.unlined) := by
  rw [← Grammar.readExpression_unlined, ← Grammar.readExpression_unlined, ← Scan.tokens_unlined,
    ← Scan.tokens_unlined, unlined_eq_of_items h]

theorem parse_eq_of_items
    (log : Log) :
    (parse source log).1.map Stmt.unlined = (parse source' log).1.map Stmt.unlined := by
  have hresult := congrArg Parse.result (readProgram_eq_of_items h)
  rw [Parse.result_unlined, Parse.result_unlined] at hresult
  unfold parse tokenize readProgram
  dsimp only
  exact hresult

theorem parseExpression_eq_of_items
    (log : Log) :
    (parseExpression source log).1.map Expr.unlined =
      (parseExpression source' log).1.map Expr.unlined := by
  have hresult := congrArg Parse.result (readExpression_eq_of_items h)
  rw [Parse.result_unlined, Parse.result_unlined] at hresult
  unfold parseExpression tokenize readExpression
  dsimp only
  exact hresult

theorem locals_eq_of_items
    (log : Log) :
    (Resolution.ofProgram (parse source log).1).locals =
      (Resolution.ofProgram (parse source' log).1).locals := by
  have hlocals := congrArg (fun statements => (Resolution.ofProgram statements).locals)
    (parse_eq_of_items h log)
  simpa only [Resolution.ofProgram_unlined] using hlocals

/-- Lines apart, the same is wrong with both sources. -/
theorem report_eq_of_items :
    (Report.ofProgram source).unlined = (Report.ofProgram source').unlined := by
  have hfaults := congrArg Scan.faults (unlined_eq_of_items h)
  have herrors := congrArg Parse.errors (readProgram_eq_of_items h)
  have hresolve := congrArg (fun statements => (Resolution.ofProgram statements).errors)
    (parse_eq_of_items h .empty)
  simp only [Resolution.ofProgram_unlined] at hresolve
  unfold parse tokenize readProgram at hresolve
  dsimp only at hresolve
  rw [Scan.faults_unlined, Scan.faults_unlined] at hfaults
  rw [Parse.errors_unlined, Parse.errors_unlined] at herrors
  unfold Report.ofProgram Report.unlined
  dsimp only
  rw [hfaults, herrors, hresolve]

theorem run_eq_of_items
    (host : Host)
    (log : Log) :
    (run host source log).map forgetLines = (run host source' log).map forgetLines := by
  rw [run_eq_gate, run_eq_gate,
    gate_unlined (interpret_unlined host _ _), gate_unlined (interpret_unlined host _ _),
    report_eq_of_items h, locals_eq_of_items h, parse_eq_of_items h]

end Pair

/-- Line numbers never influence behaviour.  Two sources whose tokens and lexical faults agree in
everything except lines are read as the same trees up to lines, numbers of references included, and
have the same table of local references; run from any log, both run without end or both end the same
way, with the same lines printed, and with errors that differ in nothing but lines. -/
theorem run_independent_of_lines
    {source source' : String}
    (h : (Scan.ofSource source).items.map Scan.Item.unlined =
      (Scan.ofSource source').items.map Scan.Item.unlined)
    (host : Host)
    (log : Log) :
    (parse source log).1.map Stmt.unlined = (parse source' log).1.map Stmt.unlined ∧
    (parseExpression source log).1.map Expr.unlined =
      (parseExpression source' log).1.map Expr.unlined ∧
    (Resolution.ofProgram (parse source log).1).locals =
      (Resolution.ofProgram (parse source' log).1).locals ∧
    ((run host source log).map fun (outcome, log') =>
        (outcome, log'.lines, log'.diagnostics.map Diagnostic.unlined)) =
      (run host source' log).map fun (outcome, log') =>
        (outcome, log'.lines, log'.diagnostics.map Diagnostic.unlined) := by
  refine ⟨parse_eq_of_items h log, parseExpression_eq_of_items h log, locals_eq_of_items h log, ?_⟩
  have hrun := congrArg (Option.map fun (outcome, log') =>
    (outcome, Log.lines log', Log.diagnostics log')) (run_eq_of_items h host log)
  rw [Option.map_map, Option.map_map] at hrun
  exact hrun

/-- A comment and line breaks move an error to another line, and do nothing else. -/
theorem run_independent_of_lines_comment :
    let host : Host := ⟨fun _ => 0, 5⟩
    run host "print true;nope;" .empty =
        some (.runtimeError, ⟨[.runtime 1 "Undefined variable 'nope'."], ["true"]⟩) ∧
      (run host "print /* yes */ true;\n\nnope;" .empty).map (fun (outcome, log) =>
          (outcome, log.lines, log.diagnostics.map Diagnostic.unlined)) =
        some (.runtimeError, ["true"], [.runtime 0 "Undefined variable 'nope'."]) := by
  intro host
  have hrun : run host "print true;nope;" .empty =
      some (.runtimeError, ⟨[.runtime 1 "Undefined variable 'nope'."], ["true"]⟩) := by
    decide +kernel
  have hitems : (Scan.ofSource "print true;nope;").items.map Scan.Item.unlined =
      (Scan.ofSource "print /* yes */ true;\n\nnope;").items.map Scan.Item.unlined :=
    Scan.map_unlined_eq_of_pieces (by decide +kernel)
  obtain ⟨-, -, -, hsame⟩ := run_independent_of_lines hitems host .empty
  refine ⟨hrun, ?_⟩
  rw [← hsame, hrun]
  rfl

end Session

end Lox
