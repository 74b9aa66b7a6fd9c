import Lox.Proofs.Grammar.Concatenation
import Lox.Proofs.Grammar.Provenance

/-!
# What a failed statement costs

A statement is simple if it has no braces and no statements with keywords in it, and is no `for` loop.
The only semicolon that a parser reads in one is the one at its end, and then the statement is
complete.  So a failure is always noticed in front of that semicolon or at it, and recovery leads to
what stands behind it.  The tokens there are read as they are read alone.
-/

namespace Lox
namespace Grammar

open Lox.Parser

/-- The tokens of a simple statement behind its first one, with the semicolon at the end. -/
inductive Plain : List Token → Prop where
  | stop (semicolon : Token) :
      semicolon.kind = .punct .semicolon →
      Plain [semicolon]
  | more {rest : List Token} (t : Token) :
      t.kind ≠ .punct .semicolon →
      t.kind ≠ .punct .leftBrace →
      startsStatement t.kind = false →
      Plain rest →
      Plain (t :: rest)

/-- The tokens of a simple statement, with the semicolon at the end. -/
inductive Simple : List Token → Prop where
  | plain {ts : List Token} :
      Plain ts →
      Simple ts
  | keyword {ts : List Token} (word : Token) :
      startsStatement word.kind = true →
      word.kind ≠ .keyword .for_ →
      Plain ts →
      Simple (word :: ts)

namespace Plain

variable {ts rest : List Token}

theorem append_semicolon
    {semicolon : Token}
    (hsemicolon : semicolon.kind = .punct .semicolon)
    (hmarks : ∀ t ∈ ts, t.kind ≠ .punct .semicolon ∧ t.kind ≠ .punct .leftBrace)
    (hwords : ∀ t ∈ ts, startsStatement t.kind = false) :
    Plain (ts ++ [semicolon]) := by
  induction ts with
  | nil =>
      exact .stop semicolon hsemicolon
  | cons t ts ih =>
      rw [List.forall_mem_cons] at hmarks hwords
      exact .more t hmarks.1.1 hmarks.1.2 hwords.1 (ih hmarks.2 hwords.2)

theorem avoids
    {kinds : List Token.Kind}
    (h : Plain ts)
    (hkinds : ∀ kind ∈ kinds, kind = .punct .leftBrace ∨ startsStatement kind = true) :
    Avoids kinds ts := by
  cases h with
  | stop semicolon hsemicolon =>
      apply avoids_cons
      intro hmem
      have hkind := hkinds _ hmem
      rw [hsemicolon] at hkind
      exact absurd hkind (by decide)
  | more t _ hbrace hword _ =>
      apply avoids_cons
      intro hmem
      rcases hkinds _ hmem with hkind | hkind
      · exact hbrace hkind
      · rw [hword] at hkind
        cases hkind

theorem tail
    {t : Token}
    (h : Plain (t :: ts))
    (ht : t.kind ≠ .punct .semicolon) :
    Plain ts := by
  cases h with
  | stop _ hsemicolon =>
      exact absurd hsemicolon ht
  | more _ _ _ _ hts =>
      exact hts

/-- Who reads no semicolon stays in front of the one at the end. -/
theorem of_reads
    {front : List Token}
    (h : Plain (front ++ rest))
    (hfront : ∀ t ∈ front, t.kind ≠ .punct .semicolon) :
    Plain rest := by
  induction front with
  | nil =>
      exact h
  | cons t front ih =>
      rw [List.forall_mem_cons] at hfront
      exact ih (h.tail hfront.1) hfront.2

theorem dropToStatement_append (h : Plain ts) : dropToStatement (ts ++ rest) = rest := by
  induction h with
  | stop semicolon hsemicolon =>
      simp [dropToStatement, startsStatement, hsemicolon]
  | more t hsemicolon hbrace hword _ ih =>
      simp [dropToStatement, hword, hsemicolon, ih]

/-- Recovery leads behind the semicolon, from wherever it starts. -/
theorem dropFailed_append (h : Plain ts) : dropFailed (ts ++ rest) = rest := by
  cases h with
  | stop semicolon hsemicolon =>
      simp [dropFailed, hsemicolon]
  | more t hsemicolon hbrace hword hts =>
      simp [dropFailed, hsemicolon, hts.dropToStatement_append]

end Plain

section Ends

variable {α β : Type}

/-- On the tokens of a simple statement, the parser stays in front of the semicolon. -/
def Spares (p : Parser α) : Prop :=
  ∀ s : State, Plain s.rest → Plain (p s).2.rest

/-- Either all tokens of a simple statement were read, or there was a failure in front of the
semicolon. -/
def Ended : Except SyntaxError α × State → Prop
  | (.ok _, s) => s.rest = []
  | (.error _, s) => Plain s.rest

/-- On the tokens of a simple statement, the parser reads all of them or fails in front of the
semicolon. -/
def Finishes (p : Parser α) : Prop :=
  ∀ s : State, Plain s.rest → Ended (p s)

/-- Any other kind. -/
def NotSemicolon (kind : Token.Kind) : Prop :=
  kind ≠ .punct .semicolon

theorem spares_of_walks
    {f : α → β}
    {p : Parser α}
    {w : Nat → Walk β}
    {bound : Nat → α → Nat}
    (h : ∀ m, Walks (.whole [] 0) NotSemicolon m f p w (bound m)) :
    Spares p := by
  intro s hs
  obtain ⟨front, hfront, hkinds⟩ := (h (s.rest.length + 1) s (Nat.lt_succ_self _)).1.reads
  rw [hfront] at hs
  exact hs.of_reads hkinds

theorem Spares.bind
    {p : Parser α}
    {q : α → Parser β}
    (hp : Spares p)
    (hq : ∀ a, Finishes (q a)) :
    Finishes (p >>= q) := by
  intro s hs
  have hplain := hp s hs
  rw [bind_apply]
  rcases hrun : p s with ⟨result, s'⟩
  rw [hrun] at hplain
  cases result with
  | error e =>
      exact hplain
  | ok a =>
      exact hq a s' hplain

/-- Behind all tokens, nothing can fail that needs none. -/
theorem Finishes.bind
    {p : Parser α}
    {q : α → Parser β}
    (hp : Finishes p)
    (hq : ∀ a s, s.rest = [] → Ended (q a s)) :
    Finishes (p >>= q) := by
  intro s hs
  have hended := hp s hs
  rw [bind_apply]
  rcases hrun : p s with ⟨result, s'⟩
  rw [hrun] at hended
  cases result with
  | error e =>
      exact hended
  | ok a =>
      exact hq a s' hended

theorem ended_pure
    (a : α)
    (s : State)
    (h : s.rest = []) :
    Ended ((pure a : Parser α) s) :=
  h

theorem finishes_expect_semicolon
    (fault : SyntaxFault) :
    Finishes (expect (.punct .semicolon) fault) := by
  rintro ⟨rest, endLine, nextId, errors⟩ hs
  cases hs with
  | stop semicolon hsemicolon =>
      rw [expect_hit hsemicolon]
      rfl
  | @more rest t hsemicolon hbrace hword hrest =>
      have hmiss : Avoids [.punct .semicolon] (t :: rest) := avoids_cons (by simpa using hsemicolon)
      rw [expect_miss hmiss]
      exact .more t hsemicolon hbrace hword hrest

/-- There is no brace to be found. -/
theorem finishes_expect_leftBrace
    (fault : SyntaxFault)
    (q : Token → Parser α) :
    Finishes (expect (.punct .leftBrace) fault >>= q) := by
  rintro s hs
  have hmiss : Avoids [.punct .leftBrace] s.rest := hs.avoids (by simp)
  rw [bind_apply, expect_miss hmiss]
  exact hs

theorem spares_expression : Spares expression :=
  spares_of_walks fun _ => walks_expression (A := NotSemicolon) fun _ h => h

theorem spares_expect
    {kind : Token.Kind}
    (hkind : kind ≠ .punct .semicolon)
    (fault : SyntaxFault) :
    Spares (expect kind fault) :=
  spares_of_walks fun _ => walks_expect (A := NotSemicolon) hkind fault

theorem spares_accept
    {kind : Token.Kind}
    (hkind : kind ≠ .punct .semicolon) :
    Spares (accept kind) :=
  spares_of_walks fun _ => walks_accept (A := NotSemicolon) hkind

theorem spares_optionalExpression
    (kind : Token.Kind) :
    Spares (optionalExpression kind) :=
  spares_of_walks fun _ => walks_optionalExpression (A := NotSemicolon) (fun _ h => h) kind

theorem spares_superclass : Spares superclass :=
  spares_of_walks fun _ => walks_superclass (A := NotSemicolon) fun _ h => h

theorem spares_parameters :
    Spares (parenthesized (expect .identifier .parameterName) .tooManyParameters) :=
  spares_of_walks fun _ => walks_parameterList (A := NotSemicolon) fun _ h => h

theorem finishes_variableDeclaration : Finishes variableDeclaration := by
  refine (spares_expect (by decide) _).bind fun name => ?_
  refine (spares_accept (by decide)).bind fun defined => ?_
  cases defined with
  | true =>
      exact spares_expression.bind fun _ => (finishes_expect_semicolon _).bind fun _ => ended_pure _
  | false =>
      exact (finishes_expect_semicolon _).bind fun _ => ended_pure _

theorem finishes_expressionStatement : Finishes expressionStatement :=
  spares_expression.bind fun _ => (finishes_expect_semicolon _).bind fun _ => ended_pure _

theorem finishes_printStatement : Finishes printStatement :=
  spares_expression.bind fun _ => (finishes_expect_semicolon _).bind fun _ => ended_pure _

theorem finishes_returnStatement
    (keyword : Token) :
    Finishes (returnStatement keyword) :=
  (spares_optionalExpression _).bind fun _ => (finishes_expect_semicolon _).bind fun _ =>
    ended_pure _

theorem finishes_function
    (inner : Parser (Option Stmt))
    (sort : FunctionSort) :
    Finishes (function inner sort) := by
  refine (spares_expect (by decide) _).bind fun _ => (spares_expect (by decide) _).bind fun _ => ?_
  refine spares_parameters.bind fun _ => (spares_expect (by decide) _).bind fun _ => ?_
  exact finishes_expect_leftBrace _ _

theorem finishes_classDeclaration
    (inner : Parser (Option Stmt)) :
    Finishes (classDeclaration inner) :=
  (spares_expect (by decide) _).bind fun _ => spares_superclass.bind fun _ =>
    finishes_expect_leftBrace _ _

section Nested

variable {nested : Parser Stmt}
variable (hnested : Finishes nested)

include hnested

theorem finishes_whileStatement : Finishes (whileStatement nested) :=
  (spares_expect (by decide) _).bind fun _ => spares_expression.bind fun _ =>
    (spares_expect (by decide) _).bind fun _ => hnested.bind fun _ => ended_pure _

/-- No `else` follows at the end. -/
theorem finishes_ifStatement : Finishes (ifStatement nested) := by
  refine (spares_expect (by decide) _).bind fun _ => spares_expression.bind fun _ => ?_
  refine (spares_expect (by decide) _).bind fun _ => hnested.bind fun _ => ?_
  rintro ⟨rest, endLine, nextId, errors⟩ rfl
  rw [bind_apply, accept_miss (avoids_nil _)]
  rfl

end Nested

section Attempts

variable {nested : Parser Stmt}
variable {inner : Parser (Option Stmt)}
variable {ts : List Token}
variable {endLine i : Nat}
variable {errors : List SyntaxError}

theorem attempt_statement
    (h : Avoids [.keyword .class_, .keyword .fun_, .keyword .var] ts) :
    attempt nested inner ⟨ts, endLine, i, errors⟩ =
      statement nested inner ⟨ts, endLine, i, errors⟩ := by
  have hclass : Avoids [.keyword .class_] ts := h.mono (by simp)
  have hfun : Avoids [.keyword .fun_] ts := h.mono (by simp)
  have hvar : Avoids [.keyword .var] ts := h.mono (by simp)
  simp [attempt, bind_apply, accept_miss hclass, accept_miss hfun, accept_miss hvar]

theorem finishes_statement : Finishes (statement nested inner) := by
  intro s hs
  have hmiss : Avoids statementKinds s.rest := hs.avoids (by decide)
  rw [statement, bind_apply, acceptAny?_miss hmiss]
  exact finishes_expressionStatement s hs

theorem finishes_statementWithin
    {depth : Nat}
    (hdepth : 0 < depth) :
    Finishes (statementWithin depth) := by
  obtain ⟨depth, rfl⟩ := Nat.exists_eq_succ_of_ne_zero (Nat.ne_of_gt hdepth)
  exact finishes_statement

/-- Behind the keyword that a simple statement can start with, it is read like a plain one. -/
theorem ended_attempt_keyword
    (hnested : Finishes nested)
    {word : Token}
    (hword : startsStatement word.kind = true)
    (hfor : word.kind ≠ .keyword .for_)
    (hts : Plain ts) :
    Ended (attempt nested inner ⟨word :: ts, endLine, i, errors⟩) := by
  have hclass : word.kind ≠ .keyword .class_ → Avoids [.keyword .class_] (word :: ts) :=
    fun h => avoids_cons (by simpa using h)
  have hfun : word.kind ≠ .keyword .fun_ → Avoids [.keyword .fun_] (word :: ts) :=
    fun h => avoids_cons (by simpa using h)
  simp only [startsStatement, decide_eq_true_eq, List.mem_cons, List.not_mem_nil, or_false] at hword
  rcases hword with hkind | hkind | hkind | hkind | hkind | hkind | hkind | hkind
  · rw [attempt, bind_apply, accept_hit hkind]
    exact finishes_classDeclaration inner _ hts
  · have hfunction := (finishes_function inner .function).bind fun decl =>
      ended_pure (Stmt.function decl)
    rw [attempt, bind_apply, accept_miss (hclass (by simp [hkind]))]
    simp only [Bool.false_eq_true, if_false]
    rw [bind_apply, accept_hit hkind]
    exact hfunction _ hts
  · rw [attempt, bind_apply, accept_miss (hclass (by simp [hkind]))]
    simp only [Bool.false_eq_true, if_false]
    rw [bind_apply, accept_miss (hfun (by simp [hkind]))]
    simp only [Bool.false_eq_true, if_false]
    rw [bind_apply, accept_hit hkind]
    exact finishes_variableDeclaration _ hts
  · exact absurd hkind hfor
  all_goals
    rw [attempt_statement (avoids_cons (by simp [hkind])), statement, bind_apply,
      acceptAny?_hit (by simp [statementKinds, hkind])]
    simp only [hkind]
  · exact finishes_ifStatement hnested _ hts
  · exact finishes_whileStatement hnested _ hts
  · exact finishes_printStatement _ hts
  · exact finishes_returnStatement word _ hts

theorem Simple.ended_attempt
    (h : Simple ts)
    (hnested : Finishes nested) :
    Ended (attempt nested inner ⟨ts, endLine, i, errors⟩) := by
  cases h with
  | plain hts =>
      rw [attempt_statement (hts.avoids (by decide))]
      exact finishes_statement _ hts
  | keyword word hword hfor hts =>
      exact ended_attempt_keyword hnested hword hfor hts

end Attempts

end Ends

theorem Simple.ne_nil
    {ts : List Token}
    (h : Simple ts) :
    ts ≠ [] := by
  cases h with
  | plain hts =>
      cases hts <;> exact List.cons_ne_nil _ _
  | keyword word _ _ _ =>
      exact List.cons_ne_nil _ _

section Failures

variable {ts : List Token}
variable {line : Nat}
variable {e : SyntaxError}
variable {s : State}
variable (hsimple : Simple ts)
variable (hfails : attempt (statementWithin ts.length) (declarationWithin ts.length)
  ⟨ts, line, 0, []⟩ = (.error e, s))
variable (hplain : Plain s.rest)
variable (rest : List Token)
variable (endLine i : Nat)
variable (errors : List SyntaxError)

include hsimple hfails hplain

/-- A failure in front of a semicolon is the same whatever stands behind that semicolon. -/
theorem attempt_in_front :
    attempt (statementWithin (ts ++ rest).length) (declarationWithin (ts ++ rest).length)
        ⟨ts ++ rest, endLine, i, errors⟩ =
      (.error e, ⟨s.rest ++ rest, endLine, s.nextId + i, errors ++ s.errors⟩) := by
  let c : Passage := ⟨ts ++ rest, endLine, rest, i, errors⟩
  have hne : ts ++ rest ≠ [] := by
    simp [hsimple.ne_nil]
  have hwalks := walks_attemptWithin (c := c) (A := fun _ => True) (fun _ => trivial) hne ts.length
  have hwalks' := walks_attemptWithin (c := .whole (ts ++ rest) endLine) (A := fun _ => True)
    (fun _ => trivial) hne (ts ++ rest).length
  have hzero : Stmt.shifted 0 = id := by
    funext a
    exact a.shifted_zero
  have hshows : c.Shows s := by
    intro hnil
    rw [hnil] at hplain
    cases hplain
  have hsame := hwalks.extend (s := ⟨ts, line, 0, []⟩) hwalks' hzero (Nat.lt_succ_self _)
    (by simp [c, Passage.extend]) rfl (by rw [hfails]; exact hshows)
  rw [hfails] at hsame
  simpa [c, Passage.extend, Except.map] using hsame

/-- The declaration that fails costs the tokens up to the semicolon. -/
theorem declaration_in_front :
    declarationWithin ((ts ++ rest).length + 1) ⟨ts ++ rest, endLine, i, errors⟩ =
      (.ok none, ⟨rest, endLine, s.nextId + i, errors ++ (s.errors ++ [e])⟩) := by
  have hattempt := attempt_in_front hsimple hfails hplain rest endLine i errors
  change declaration _ _ _ = _
  rw [declaration_eq, recovering, hattempt]
  simp [State.report, hplain.dropFailed_append]

theorem readProgram_in_front :
    Grammar.readProgram (ts ++ rest) endLine =
      ⟨(Grammar.readProgram rest endLine).result.map (Stmt.shifted s.nextId),
        (s.errors ++ [e]) ++ (Grammar.readProgram rest endLine).errors,
        s.nextId + (Grammar.readProgram rest endLine).idCount⟩ := by
  have hfirst := declaration_in_front hsimple hfails hplain rest endLine 0 []
  rw [readProgram_first (by simp [hsimple.ne_nil]) hfirst]
  simp

end Failures

/-- If nothing is left of a simple statement, it failed in front of its semicolon. -/
theorem Simple.exists_failure
    {ts : List Token}
    {line : Nat}
    (h : Simple ts)
    (hbroken : (Grammar.readProgram ts line).result = []) :
    ∃ e s, attempt (statementWithin ts.length) (declarationWithin ts.length) ⟨ts, line, 0, []⟩ =
      (.error e, s) ∧ Plain s.rest := by
  have hended : Ended (attempt (statementWithin ts.length) (declarationWithin ts.length)
      ⟨ts, line, 0, []⟩) :=
    h.ended_attempt (finishes_statementWithin (List.length_pos_iff.mpr h.ne_nil))
  rcases hrun : attempt (statementWithin ts.length) (declarationWithin ts.length)
    ⟨ts, line, 0, []⟩ with ⟨result, s⟩
  rw [hrun] at hended
  cases result with
  | error e =>
      exact ⟨e, s, rfl, hended⟩
  | ok a =>
      have hfirst : declarationWithin (ts.length + 1) ⟨ts, line, 0, []⟩ = (.ok (some a), s) := by
        change declaration _ _ _ = _
        rw [declaration_eq, recovering, hrun]
      rw [readProgram_first h.ne_nil hfirst] at hbroken
      cases hbroken

theorem simple_append_semicolon
    {ts : List Token}
    {semicolon : Token}
    (hsemicolon : semicolon.kind = .punct .semicolon)
    (hmarks : ∀ t ∈ ts, t.kind ≠ .punct .semicolon ∧ t.kind ≠ .punct .leftBrace)
    (hwords : ∀ t ∈ ts.tail, startsStatement t.kind = false)
    (hfor : Avoids [.keyword .for_] ts) :
    Simple (ts ++ [semicolon]) := by
  cases ts with
  | nil =>
      exact .plain (.stop semicolon hsemicolon)
  | cons first tail =>
      rw [List.tail_cons] at hwords
      have hplain : Plain (tail ++ [semicolon]) :=
        .append_semicolon hsemicolon (fun t ht => hmarks t (List.mem_cons_of_mem first ht)) hwords
      have hmark := hmarks first List.mem_cons_self
      cases hfirst : startsStatement first.kind with
      | false =>
          exact .plain (.more first hmark.1 hmark.2 hfirst hplain)
      | true =>
          exact .keyword first hfirst (by simpa using hfor first tail rfl) hplain

/-- A broken simple statement behind a program without faults costs only itself.  Behind its semicolon
everything is read as it is read alone; only the references are numbered after those in front.  All
that is reported beyond what is reported there is what is reported for the broken statement alone,
at tokens of it. -/
theorem readProgram_broken_statement
    {front broken : List Token}
    {semicolon : Token}
    {line line' : Nat}
    (hfront : (Grammar.readProgram front line).errors = [])
    (hsemicolon : semicolon.kind = .punct .semicolon)
    (hmarks : ∀ t ∈ broken, t.kind ≠ .punct .semicolon ∧ t.kind ≠ .punct .leftBrace)
    (hwords : ∀ t ∈ broken.tail, startsStatement t.kind = false)
    (hfirst : Avoids [.keyword .for_, .keyword .else_] broken)
    (hbroken : (Grammar.readProgram (broken ++ [semicolon]) line').result = [])
    (rest : List Token)
    (endLine : Nat) :
    let before := Grammar.readProgram front line
    let failed := Grammar.readProgram (broken ++ [semicolon]) line'
    let behind := Grammar.readProgram rest endLine
    Grammar.readProgram (front ++ (broken ++ semicolon :: rest)) endLine =
        ⟨before.result ++ behind.result.map (Stmt.shifted (before.idCount + failed.idCount)),
          failed.errors ++ behind.errors,
          before.idCount + failed.idCount + behind.idCount⟩ ∧
      failed.errors ≠ [] ∧
      ∀ e ∈ failed.errors, ∃ t ∈ broken ++ [semicolon], e.found = .token t := by
  have hfor : Avoids [.keyword .for_] broken := hfirst.mono (by simp)
  have helse : Avoids [.keyword .else_] (broken ++ semicolon :: rest) := by
    cases broken with
    | nil =>
        exact avoids_cons (by simp [hsemicolon])
    | cons t tail =>
        exact avoids_cons ((hfirst.mono (by simp)) t tail rfl)
  have hsimple := simple_append_semicolon hsemicolon hmarks hwords hfor
  obtain ⟨e, s, hfails, hplain⟩ := hsimple.exists_failure hbroken
  have halone : ∀ last, Grammar.readProgram (broken ++ [semicolon]) last =
      ⟨[], s.errors ++ [e], s.nextId⟩ := by
    intro last
    have hnothing : Grammar.readProgram [] last = ⟨[], [], 0⟩ := rfl
    have hprogram := readProgram_in_front hsimple hfails hplain [] last
    rw [List.append_nil, hnothing] at hprogram
    simpa using hprogram
  have hbehind := readProgram_in_front hsimple hfails hplain rest endLine
  rw [List.append_assoc, List.singleton_append] at hbehind
  have hcites : ∀ last, ∀ e' ∈ s.errors ++ [e], e'.found.Of (broken ++ [semicolon]) last := by
    intro last
    have hread : ∀ e' ∈ (Grammar.readProgram (broken ++ [semicolon]) last).errors,
        e'.found.Of (broken ++ [semicolon]) last :=
      (readProgram_cites (P := fun _ => True) (fun _ _ => trivial) trivial last).1
    rwa [halone] at hread
  intro before failed behind
  have hfailed : failed = ⟨[], s.errors ++ [e], s.nextId⟩ := halone line'
  rw [hfailed]
  refine ⟨?_, by simp, ?_⟩
  · rw [readProgram_append hfront helse, hbehind]
    simp [before, behind, Stmt.shifted_shifted, Function.comp_def, Nat.add_comm, Nat.add_assoc,
      Nat.add_left_comm]
  · intro e' he'
    -- no end of the text is on two lines at once
    have hone := hcites 0 e' he'
    have htwo := hcites 1 e' he'
    cases hfound : e'.found with
    | token t =>
        rw [hfound] at hone
        exact ⟨t, hone, rfl⟩
    | eof last =>
        rw [hfound] at hone htwo
        exact absurd (hone.symm.trans htwo) (by decide)

/-- Here an operand is missing, and the reference in front of the operator has used up a number. -/
theorem readProgram_broken_statement_operand :
    (Grammar.readProgram [⟨.identifier, "x", 1⟩, ⟨.punct .semicolon, ";", 1⟩] 1).errors = [] ∧
      (Grammar.readProgram [⟨.identifier, "y", 2⟩, ⟨.punct .plus, "+", 2⟩,
        ⟨.punct .semicolon, ";", 2⟩] 2).result = [] ∧
      (Grammar.readProgram [⟨.identifier, "x", 1⟩, ⟨.punct .semicolon, ";", 1⟩,
        ⟨.identifier, "y", 2⟩, ⟨.punct .plus, "+", 2⟩, ⟨.punct .semicolon, ";", 2⟩,
        ⟨.identifier, "z", 3⟩, ⟨.punct .semicolon, ";", 3⟩] 3) =
          ⟨[.expression (.var 0 ⟨.identifier, "x", 1⟩),
            .expression (.var 2 ⟨.identifier, "z", 3⟩)],
            [⟨.token ⟨.punct .semicolon, ";", 2⟩, .expression⟩], 3⟩ := by
  have hfront : (Grammar.readProgram [⟨.identifier, "x", 1⟩, ⟨.punct .semicolon, ";", 1⟩] 1).errors =
      [] := by
    decide
  have hbroken : (Grammar.readProgram ([⟨.identifier, "y", 2⟩, ⟨.punct .plus, "+", 2⟩] ++
      [⟨.punct .semicolon, ";", 2⟩]) 2).result = [] := by
    rfl
  refine ⟨hfront, hbroken, ?_⟩
  have hread := readProgram_broken_statement hfront rfl (by decide) (by decide)
    (avoids_cons (by decide)) hbroken [⟨.identifier, "z", 3⟩, ⟨.punct .semicolon, ";", 3⟩] 3
  exact hread.1.trans rfl

end Grammar
end Lox
