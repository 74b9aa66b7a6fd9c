import Lox.Proofs.Grammar.Provenance
import Lox.Proofs.Machine.Blame
import Lox.Proofs.Scope.Distances
import Lox.Proofs.Token.Lines
import Lox.Session

/-!
# Where diagnostics point to

Every error that is reported for a source points into that source.  Its line is one of the lines of
the source, and unless it is lexical, it is the line of a token: parse errors cite terminals of the
scan, resolve errors cite tokens that the tree keeps, and runtime errors blame tokens that code keeps
wherever it was carried to.
-/

namespace Lox

/-- A text that points to a terminal: to the end of the text, or else to a lexeme, in quotes. -/
structure Terminal.PointedAt (t : Terminal) (location : String) : Prop where
  atEnd : location = " at end" ↔ ∃ line, t = .eof line
  quoted : ∀ token, t = .token token → location = " at '" ++ token.lexeme ++ "'"

namespace Diagnostic

/-- A diagnostic is tied to a token of a source, or to its end.  Lexical errors are not. -/
def CitesToken (source : String) (d : Diagnostic) : Prop :=
  ∃ t ∈ (Scan.ofSource source).terminals, t.line = d.line ∧
    match d with
    | .parse _ _ | .resolve _ _ => ∃ location, d.location? = some location ∧ t.PointedAt location
    | _ => True

/-- A diagnostic points into a source. -/
structure PointsInto (source : String) (d : Diagnostic) : Prop where
  first : 1 ≤ d.line
  last : d.line ≤ 1 + source.toList.count '\n'
  token : (∀ line message, d ≠ .lexical line message) → d.CitesToken source

end Diagnostic

section Faults

theorem Part.declared_mem_tokens
    {part : Part}
    {name : Token}
    (h : part.declared? = some name) :
    name ∈ part.tokens := by
  unfold declared? at h
  split at h
  · cases h
    exact List.mem_cons_self
  · rename_i decl
    cases h
    obtain ⟨name, params, body⟩ := decl
    exact List.mem_cons_self
  · cases h
    exact List.mem_cons_self
  · cases h
    exact List.mem_cons_self
  · cases h

theorem Scopes.found_of_clash
    {scopes : Scopes}
    {name : Token}
    {error : ScopeError}
    (h : .fault error ∈ scopes.clash name) :
    error.found = name := by
  unfold Scopes.clash at h
  split at h
  · cases List.mem_singleton.mp h
    rfl
  · cases h

/-- What is found wrong at a part is found at a token of the part. -/
theorem Part.found_mem_of_faults
    {around : Surroundings}
    {part : Part}
    {error : ScopeError}
    (h : .fault error ∈ part.faults around) :
    error.found ∈ part.tokens := by
  unfold Part.faults at h
  split at h
  · unfold Scopes.unreadable at h
    split at h <;> simp_all [tokens, Expr.tokens]
  · split at h <;> simp_all [tokens, Expr.tokens]
  · split at h <;> simp_all [tokens, Expr.tokens]
  · unfold returnFaults at h
    split at h <;> split at h <;> simp_all [tokens, Stmt.tokens]
  · unfold selfInheritance at h
    split at h
    · split at h <;> simp_all [tokens, Expr.tokens]
    · cases h
  · split at h
    · cases h
    · rename_i name hname
      rw [Scopes.found_of_clash h]
      exact declared_mem_tokens hname

theorem fault_not_mem_entries
    (around : Surroundings)
    (part : Part)
    (error : ScopeError) :
    .fault error ∉ part.entries around := by
  have hbinding : ∀ id name, .fault error ∉ around.scopes.binding id name := by
    intro id name
    unfold Scopes.binding
    split <;> simp
  unfold Part.entries
  split
  · exact hbinding _ _
  · exact hbinding _ _
  · split
    · simp
    · exact hbinding _ _
  · exact hbinding _ _
  · simp

/-- Resolution finds faults at tokens of the tree. -/
theorem Part.found_mem_of_findings
    {around : Surroundings}
    {part : Part}
    (hshaped : part.Shaped)
    {error : ScopeError}
    (h : .fault error ∈ part.findings around) :
    error.found ∈ part.tokens := by
  obtain ⟨p, ⟨around', child⟩, hreach, hfault | hentry⟩ :=
    (Part.mem_findings_iff around part hshaped).mp h
  · have hchild : part.at? p = some child := by
      rw [← Surroundings.map_snd_reach? around, hreach]
      rfl
    exact Part.tokens_at? hchild (Part.found_mem_of_faults hfault)
  · exact absurd hentry (fault_not_mem_entries around' child error)

theorem mem_errors_ofFindings
    {findings : List Finding}
    {error : ScopeError}
    (h : error ∈ (Resolution.ofFindings findings).errors) :
    .fault error ∈ findings := by
  obtain ⟨finding, hmem, hfault⟩ := List.mem_filterMap.mp h
  cases finding with
  | bound id d =>
      cases hfault
  | fault error' =>
      cases hfault
      exact hmem

end Faults

namespace Session

variable {source : String}

section Kinds

theorem mem_terminals_of
    {scan : Scan}
    {t : Terminal}
    (h : t.Of scan.tokens scan.endLine) :
    t ∈ scan.terminals := by
  cases t with
  | token t =>
      exact List.mem_append_left _ (List.mem_map_of_mem h)
  | eof line =>
      have hline : line = scan.endLine := h
      rw [hline]
      exact List.mem_append_right _ List.mem_cons_self

/-- The end of the text is told from every lexeme, also from `end`. -/
theorem pointedAt_location
    (t : Terminal) :
    t.PointedAt t.location := by
  cases t with
  | token t =>
      refine ⟨iff_of_false ?_ (by simp), ?_⟩
      · intro h
        have hchars := congrArg String.toList h
        simp [Terminal.location] at hchars
      · intro token htoken
        cases htoken
        rfl
  | eof line =>
      exact ⟨iff_of_true rfl ⟨line, rfl⟩, by simp⟩

theorem pointsInto_ofLexical
    {entry : Nat × LexFault}
    (h : entry ∈ (Scan.ofSource source).faults) :
    (Diagnostic.ofLexical entry).PointsInto source where
  first := (Scan.line_of_mem_faults h).1
  last := (Scan.line_of_mem_faults h).2
  token hlexical := absurd rfl (hlexical _ _)

theorem pointsInto_ofSyntax
    {e : SyntaxError}
    (h : e.found.Of (Scan.ofSource source).tokens (Scan.ofSource source).endLine) :
    (Diagnostic.ofSyntax e).PointsInto source where
  first := (Scan.line_of_mem_terminals (mem_terminals_of h)).1
  last := (Scan.line_of_mem_terminals (mem_terminals_of h)).2
  token _ := ⟨e.found, mem_terminals_of h, rfl, _, rfl, pointedAt_location e.found⟩

theorem pointsInto_ofScope
    {e : ScopeError}
    (h : e.found ∈ (Scan.ofSource source).tokens) :
    (Diagnostic.ofScope e).PointsInto source where
  first := (Scan.line_of_mem_terminals (mem_terminals_of (t := .token e.found) h)).1
  last := (Scan.line_of_mem_terminals (mem_terminals_of (t := .token e.found) h)).2
  token _ := ⟨.token e.found, mem_terminals_of h, rfl, _, rfl, pointedAt_location _⟩

theorem pointsInto_ofRuntime
    {e : RuntimeError}
    (h : e.found ∈ (Scan.ofSource source).tokens) :
    (Diagnostic.ofRuntime e).PointsInto source where
  first := (Scan.line_of_mem_terminals (mem_terminals_of (t := .token e.found) h)).1
  last := (Scan.line_of_mem_terminals (mem_terminals_of (t := .token e.found) h)).2
  token _ := ⟨.token e.found, mem_terminals_of h, rfl, trivial⟩

end Kinds

end Session

/-- A log gains only diagnostics that point into a source, and loses none. -/
def Log.GainsFrom (source : String) (log log' : Log) : Prop :=
  ∃ added, log'.diagnostics = log.diagnostics ++ added ∧ ∀ d ∈ added, d.PointsInto source

namespace Log.GainsFrom

variable {source : String}
variable {log log' log'' : Log}

theorem trans
    (h : log.GainsFrom source log')
    (h' : log'.GainsFrom source log'') :
    log.GainsFrom source log'' := by
  obtain ⟨added, hadded, hpoints⟩ := h
  obtain ⟨later, hlater, hpoints'⟩ := h'
  refine ⟨added ++ later, ?_, List.forall_mem_append.mpr ⟨hpoints, hpoints'⟩⟩
  rw [hlater, hadded, List.append_assoc]

theorem print
    (lines : List String) :
    log.GainsFrom source (log.print lines) :=
  ⟨[], (List.append_nil _).symm, by simp⟩

theorem report
    {α : Type}
    {errors : List α}
    {render : α → Diagnostic}
    (h : ∀ e ∈ errors, (render e).PointsInto source) :
    log.GainsFrom source (log.report (errors.map render)) :=
  ⟨errors.map render, rfl, List.forall_mem_map.mpr h⟩

end Log.GainsFrom

namespace Session

variable {host : Host}
variable (source : String)
variable (log : Log)

section Static

theorem gainsFrom_tokenize : log.GainsFrom source (tokenize source log).2 :=
  .report fun _ => pointsInto_ofLexical

theorem gainsFrom_readProgram :
    log.GainsFrom source (readProgram (Scan.ofSource source) log).2 := by
  refine .report fun e he => pointsInto_ofSyntax ?_
  exact (Grammar.readProgram_cites (P := fun _ => True) (fun _ _ => trivial) trivial _).1 e he

theorem gainsFrom_readExpression :
    log.GainsFrom source (readExpression (Scan.ofSource source) log).2 :=
  .report fun e he => pointsInto_ofSyntax
    ((Grammar.readExpression_cites (P := fun _ => True) (fun _ _ => trivial) _).1 e he)

theorem gainsFrom_parse : log.GainsFrom source (parse source log).2 :=
  (gainsFrom_tokenize source log).trans (gainsFrom_readProgram source _)

theorem gainsFrom_parseExpression : log.GainsFrom source (parseExpression source log).2 :=
  (gainsFrom_tokenize source log).trans (gainsFrom_readExpression source _)

theorem gainsFrom_resolve
    (part : Part)
    (hshaped : part.Shaped)
    (htokens : part.tokens ⊆ (Scan.ofSource source).tokens)
    (around : Surroundings) :
    log.GainsFrom source (resolve (.ofFindings (part.findings around)) log).2 := by
  refine .report fun e he => pointsInto_ofScope (htokens ?_)
  exact Part.found_mem_of_findings hshaped (mem_errors_ofFindings he)

end Static

section Running

variable (locals : Locals)

theorem gainsFrom_interpret
    {statements : List Stmt}
    (htokens : Stmt.tokensAll statements ⊆ (Scan.ofSource source).tokens)
    {outcome : Outcome}
    {log' : Log}
    (h : interpret host locals statements log = some (outcome, log')) :
    log.GainsFrom source log' := by
  have hall := Run.blames_execAll
    (eval_exec_blames (Scan.ofSource source).tokens ⟨locals, host.clock⟩ host.fuel).2 htokens
  have hblames : (Machine.interpret ⟨locals, host.clock⟩ host.fuel statements).Blames
      (Scan.ofSource source).tokens fun _ => True :=
    hall.bind fun _ _ => Run.blames_pure trivial
  obtain ⟨-, -, hfault⟩ := hblames .start .start
  unfold interpret at h
  split at h
  · cases h
    exact .print _
  · rename_i e m hrun
    cases h
    have he := pointsInto_ofRuntime (hfault e (congrArg Prod.fst hrun))
    exact (Log.GainsFrom.print _).trans (.report (List.forall_mem_singleton.mpr he))
  · cases h

theorem gainsFrom_evaluateResolved
    {e : Expr}
    (htokens : e.tokens ⊆ (Scan.ofSource source).tokens)
    {value : Option Value}
    {log' : Log}
    (h : evaluateResolved host locals e log = some (value, log')) :
    log.GainsFrom source log' := by
  obtain ⟨-, -, hfault⟩ :=
    (eval_exec_blames (Scan.ofSource source).tokens ⟨locals, host.clock⟩ host.fuel).1 e htokens
      .start .start
  unfold evaluateResolved at h
  split at h
  · cases h
    exact .print _
  · rename_i error m hrun
    cases h
    have he := pointsInto_ofRuntime (hfault error (congrArg Prod.fst hrun))
    exact (Log.GainsFrom.print _).trans (.report (List.forall_mem_singleton.mpr he))
  · cases h

end Running

section Phases

variable {log' : Log}

theorem gainsFrom_run
    {outcome : Outcome}
    (h : run host source log = some (outcome, log')) :
    log.GainsFrom source log' := by
  have hparse := gainsFrom_parse source log
  have hfits := Grammar.readProgram_fits (Scan.ofSource source).tokens
    (Scan.ofSource source).endLine
  unfold run at h
  split at h
  rename_i statements parsed hparsed
  -- The tree that was read is a variable from here on, so that reading is not unfolded.
  obtain ⟨hread, -⟩ := Prod.mk.inj hparsed
  rw [hparsed] at hparse
  rw [hread] at hfits
  have hresolve := hparse.trans (gainsFrom_resolve source _ (.program statements) hfits.shaped
    hfits.kept .topLevel)
  split at h
  · cases h
    exact hparse
  · split at h
    rename_i locals resolved hresolved
    obtain ⟨rfl, rfl⟩ := Prod.mk.inj hresolved
    split at h
    · cases h
      exact hresolve
    · exact hresolve.trans (gainsFrom_interpret source _ _ hfits.kept h)

theorem gainsFrom_evaluate
    {value : Option Value}
    (h : evaluate host source log = some (value, log')) :
    log.GainsFrom source log' := by
  have hparse := gainsFrom_parseExpression source log
  unfold evaluate at h
  split at h
  · rename_i parsed hparsed
    cases h
    rw [hparsed] at hparse
    exact hparse
  · rename_i e parsed hparsed
    rw [hparsed] at hparse
    obtain ⟨hread, -⟩ := Prod.mk.inj hparsed
    obtain ⟨hshaped, hkept⟩ := Grammar.readExpression_fits hread
    have hresolve := hparse.trans (gainsFrom_resolve source _ (.expr e) hshaped hkept .topLevel)
    split at h
    · cases h
      exact hparse
    · split at h
      rename_i locals resolved hresolved
      obtain ⟨rfl, rfl⟩ := Prod.mk.inj hresolved
      split at h
      · cases h
        exact hresolve
      · exact hresolve.trans (gainsFrom_evaluateResolved source _ _ hkept h)

end Phases

/-- Every error that is reported when a source is run, or evaluated as an expression, points into
the source, whatever the log holds before and wherever the code that fails was carried to. -/
theorem diagnostics_point_into_source
    (host : Host)
    (source : String)
    (log : Log) :
    (∀ outcome log', run host source log = some (outcome, log') →
      ∃ added, log'.diagnostics = log.diagnostics ++ added ∧ ∀ d ∈ added, d.PointsInto source) ∧
    ∀ value log', evaluate host source log = some (value, log') →
      ∃ added, log'.diagnostics = log.diagnostics ++ added ∧ ∀ d ∈ added, d.PointsInto source := by
  constructor
  · intro outcome log' h
    exact gainsFrom_run source log h
  · intro value log' h
    exact gainsFrom_evaluate source log h

/-- The body of a function fails on its own line, however late it is called, and `1 +` fails at the
end of the text. -/
theorem diagnostics_point_into_source_late :
    let host : Host := ⟨fun _ => 0, 20⟩
    let source := "fun f() \x7b\nnope;\n\x7d\nf();"
    let fault := Diagnostic.runtime 2 "Undefined variable 'nope'."
    let unread := Diagnostic.parse (.eof 2) "Expected expression."
    (run host source .empty = some (.runtimeError, ⟨[fault], []⟩) ∧ fault.PointsInto source) ∧
      (evaluate host "1 +\n" .empty).map Prod.snd = some ⟨[unread], []⟩ ∧
      unread.PointsInto "1 +\n" := by
  intro host source fault unread
  have hrun : run host source .empty = some (.runtimeError, ⟨[fault], []⟩) := by
    decide +kernel
  have hevaluate : (evaluate host "1 +\n" .empty).map Prod.snd = some ⟨[unread], []⟩ := by
    decide +kernel
  obtain ⟨⟨value, log⟩, hsome, rfl⟩ := Option.map_eq_some_iff.mp hevaluate
  obtain ⟨added, hadded, hpoints⟩ :=
    (diagnostics_point_into_source host source .empty).1 _ _ hrun
  obtain ⟨added', hadded', hpoints'⟩ :=
    (diagnostics_point_into_source host "1 +\n" .empty).2 _ _ hsome
  obtain rfl : [fault] = added := hadded
  obtain rfl : [unread] = added' := hadded'
  exact ⟨⟨hrun, hpoints fault List.mem_cons_self⟩, hevaluate, hpoints' unread List.mem_cons_self⟩

end Session

end Lox
