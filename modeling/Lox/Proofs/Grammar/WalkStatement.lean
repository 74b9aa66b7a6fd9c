import Lox.Proofs.Grammar.WalkExpression
import Lox.Proofs.Grammar.WellFormed

/-!
# Walking along statements

The walks for statements and declarations do what the parsers for them do, failures and the way on
behind them included.  A declaration always takes a token if there is one: it is a token of the
declaration if reading succeeds, and else one that is dropped.
-/

namespace Lox
namespace Grammar

open Lox.Parser

/-- A declaration or statement that may fail, over parsers for nested ones. -/
def attempt (nested : Parser Stmt) (inner : Parser (Option Stmt)) : Parser Stmt := do
  if ← accept (.keyword .class_) then
    classDeclaration inner
  else if ← accept (.keyword .fun_) then
    return .function (← function inner .function)
  else if ← accept (.keyword .var) then
    variableDeclaration
  else
    statement nested inner

theorem declaration_eq
    (nested : Parser Stmt)
    (inner : Parser (Option Stmt)) :
    declaration nested inner = recovering (attempt nested inner) := by
  rfl

section Recovery

theorem advances_dropFailed
    {A : Token.Kind → Prop}
    (hA : ∀ kind, A kind)
    (s : State)
    (e : SyntaxError) :
    s.Advances A { s.report e with rest := dropFailed s.rest } where
  reads := by
    obtain ⟨front, hfront⟩ := (dropFailed_suffix_tail s.rest).trans (List.tail_suffix s.rest)
    exact ⟨front, hfront.symm, fun x _ => hA x.kind⟩
  endLine := rfl

variable {c : Passage}
variable {s : State}

/-- At the end of the text the walk does not move. -/
theorem arrives_moveToStatement_nil
    (hrest : s.rest = [])
    (hshows : c.Shows s) :
    c.Arrives s Walk.moveToStatement (.ok ()) s := by
  refine .unfold Walk.moveToStatement.eq_2 ?_
  refine (Passage.runs_atEnd hshows).bind_arrives ?_
  rw [hrest]
  exact .of_runs (.pure ())

/-- Behind a token of a failed declaration, the walk moves to where the next statement can start. -/
theorem arrives_moveToStatement
    {x : Token}
    (rest : List Token)
    (hrest : s.rest = rest)
    (hpassed : c.Passed s x)
    (hshows : c.Shows { s with rest := dropFailed (x :: rest) }) :
    c.Arrives s Walk.moveToStatement (.ok ()) { s with rest := dropFailed (x :: rest) } := by
  induction rest generalizing s x with
  | nil =>
      have hnothing : dropFailed [x] = [] := by
        simp [dropFailed, dropToStatement]
      rw [hnothing] at hshows ⊢
      have hsame : { s with rest := [] } = s := by
        rw [← hrest]
      rw [hsame] at hshows ⊢
      exact arrives_moveToStatement_nil hrest hshows
  | cons y rest ih =>
      have hfront : c.Shows s := Passage.shows_of_rest hrest
      have hsame : { s with rest := y :: rest } = s := by
        rw [← hrest]
      refine .unfold Walk.moveToStatement.eq_2 ?_
      refine (Passage.runs_atEnd hfront).bind_arrives ?_
      rw [hrest]
      refine (Passage.runs_previous hpassed).bind_arrives ?_
      by_cases hend : x.kind = .punct .semicolon
      · simp only [if_pos hend]
        rw [dropFailed, if_pos hend, hsame]
        exact .of_runs (.pure ())
      · simp only [if_neg hend]
        refine (Passage.runs_peek hfront).bind_arrives ?_
        have hnext : s.next = .token y := by
          simp [State.next, hrest]
        rw [hnext]
        dsimp only
        rw [dropFailed, if_neg hend, dropToStatement] at hshows ⊢
        by_cases hstarts : startsStatement y.kind = true
        · simp only [if_pos hstarts]
          rw [hsame]
          exact .of_runs (.pure ())
        · simp only [if_neg hstarts] at hshows ⊢
          refine (Passage.runs_advance hrest).bind_arrives ?_
          have hbehind : c.Passed { s with rest } y := by
            obtain ⟨front, htokens⟩ := hpassed
            exact ⟨front ++ [x], by simp [htokens, hrest]⟩
          have hgoesOn : dropFailed (y :: rest) =
              if y.kind = .punct .semicolon then rest else dropToStatement rest := rfl
          have hothers := ih (s := { s with rest }) (x := y) rfl hbehind
          rw [hgoesOn] at hothers
          exact hothers hshows

/-- A failed declaration is reported, and the walk goes on behind what belongs to it. -/
theorem arrives_recovered
    {e : SyntaxError}
    (hshows : c.Shows { s.report e with rest := dropFailed s.rest })
    (htokens : c.tokens ≠ []) :
    c.Arrives s (fun fuel => Walk.recovered fuel (.error e)) (.ok none)
      { s.report e with rest := dropFailed s.rest } := by
  refine (Passage.runs_file e).bind_arrives ?_
  cases hrest : s.rest with
  | nil =>
      have hsame : { s.report e with rest := dropFailed [] } = s.report e := by
        simp [State.report, dropFailed, hrest]
      rw [hrest, hsame] at hshows
      rw [hsame]
      obtain ⟨t, hadvance⟩ := Passage.exists_runs_advance (s := s.report e) hrest hshows htokens
      refine hadvance.bind_arrives ?_
      refine (arrives_moveToStatement_nil (s := s.report e) hrest hshows).bind ?_
      exact .of_runs (.pure none)
  | cons t rest =>
      rw [hrest] at hshows
      intro k hk
      have hpassed : c.Passed { s.report e with rest } t := hk.passed hrest
      refine Passage.Runs.bind_arrives (s := s.report e) (Passage.runs_advance hrest) ?_ k hk
      refine (arrives_moveToStatement rest rfl hpassed hshows).bind ?_
      exact .of_runs (.pure none)

theorem arrives_declaration
    {s' s'' : State}
    {r : Except SyntaxError Stmt}
    {r' : Except SyntaxError (Option Stmt)}
    (hattempt : c.Arrives s Walk.attempt r s')
    (hrecovered : c.Arrives s' (fun fuel => Walk.recovered fuel r) r' s'') :
    c.Arrives s Walk.declaration r' s'' := by
  refine .unfold Walk.declaration.eq_2 ?_
  intro k hk
  obtain ⟨k', ⟨enough, hrun⟩, hk', hreach⟩ := hattempt k hk
  obtain ⟨k'', ⟨enough', hrun'⟩, hk'', hreach'⟩ := hrecovered k' hk'
  refine ⟨k'', ⟨max enough enough', ?_⟩, hk'', hreach.trans hreach'⟩
  intro fuel hfuel
  rw [Nat.max_le] at hfuel
  simp only [hrun fuel hfuel.1]
  exact hrun' fuel hfuel.2

end Recovery

section Clauses

variable {c : Passage}
variable {A : Token.Kind → Prop}
variable (hA : ∀ kind, kind ≠ .punct .semicolon → A kind)
variable {m : Nat}

include hA

theorem walks_optionalExpression
    (kind : Token.Kind) :
    Walks c A m (Option.map (Expr.shifted c.ids)) (optionalExpression kind)
      (fun fuel => Walk.optionalExpression fuel kind) fun _ => m :=
  (walks_check kind).bind fun _ => .ite (fun _ => .pure rfl (Nat.le_refl m)) fun _ =>
    (walks_expression hA).bind fun _ => .pure rfl (Nat.le_refl m)

theorem walks_superclass :
    Walks c A m (Option.map (Expr.shifted c.ids)) superclass
      (fun _ => Walk.superclass) fun _ => m := by
  refine (walks_accept (hA _ (by decide))).bind fun derived => ?_
  cases derived with
  | false =>
      exact .pure rfl (Nat.le_refl m)
  | true =>
      refine (walks_expect (hA _ (by decide)) _).bind fun name => walks_fresh.bind fun id => ?_
      refine .pure rfl ?_
      simp only [cond_true]
      omega

theorem walks_parameterList :
    Walks c A m id (parenthesized (expect .identifier .parameterName) .tooManyParameters)
      Walk.parameterList fun _ => m := by
  have hname := walks_expect (c := c) (A := A) (m := m) (hA .identifier (by decide))
    SyntaxFault.parameterName
  rw [← List.map_id_fun]
  exact walks_parenthesized (fun fuel before => Walk.parameters.eq_2 before fuel)
    (hA _ (by decide)) (hname.mono (Nat.le_refl m) fun _ => Nat.sub_le m 1)

end Clauses

section Statements

variable {c : Passage}
variable {A : Token.Kind → Prop}
variable (hA : ∀ kind, A kind)
variable {m n : Nat}

theorem runs_bodyEnds
    (s : State)
    (hrest : s.rest = [])
    (hshows : c.Shows s) :
    c.Runs s Walk.bodyEnds (.ok true) s := by
  have hcheck := Passage.runs_check hshows (.punct .rightBrace)
  rw [check_miss (hrest ▸ avoids_nil _)] at hcheck
  refine hcheck.bind ?_
  have hend := Passage.runs_atEnd hshows
  rw [hrest] at hend
  exact hend

theorem walks_bodyEnds : Walks c A m id bodyEnds (fun _ => Walk.bodyEnds) fun _ => m := by
  rintro ⟨rest, endLine, nextId, errors⟩ hs
  cases rest with
  | nil =>
      exact ⟨.refl _, fun _ _ => hs, fun hshows => .of_runs (runs_bodyEnds _ rfl hshows)⟩
  | cons t rest =>
      have hvalue : bodyEnds ⟨t :: rest, endLine, nextId, errors⟩ =
          (.ok (t.kind = .punct .rightBrace), ⟨t :: rest, endLine, nextId, errors⟩) := rfl
      rw [hvalue]
      refine ⟨.refl _, fun _ _ => hs, fun hshows => .of_runs ?_⟩
      refine (Passage.runs_check hshows _).bind ?_
      by_cases hcloses : t.kind = .punct .rightBrace
      · simp only [hcloses]
        exact .pure true
      · simp only [hcloses]
        exact Passage.runs_atEnd hshows

include hA

theorem walks_variableDeclaration :
    Walks c A m (Stmt.shifted c.ids) variableDeclaration Walk.variableDeclaration
      fun _ => m - 1 := by
  refine (walks_expect (hA _) _).bind fun name => (walks_accept (hA _)).bind fun defined => ?_
  cases defined with
  | true =>
      refine (walks_expression fun kind _ => hA kind).bind fun _ => ?_
      refine (walks_expect (hA _) _).bind fun _ => .pure rfl ?_
      simp only [cond_true]
      omega
  | false =>
      refine (walks_expect (hA _) _).bind fun _ => .pure rfl ?_
      simp only [cond_false]
      omega

theorem walks_expressionStatement :
    Walks c A m (Stmt.shifted c.ids) expressionStatement Walk.expressionStatement
      fun _ => m - 1 :=
  (walks_expression fun kind _ => hA kind).bind fun _ => (walks_expect (hA _) _).bind fun _ =>
    .pure rfl (Nat.le_refl _)

theorem walks_printStatement :
    Walks c A m (Stmt.shifted c.ids) printStatement Walk.printStatement fun _ => m - 1 :=
  (walks_expression fun kind _ => hA kind).bind fun _ => (walks_expect (hA _) _).bind fun _ =>
    .pure rfl (Nat.le_refl _)

theorem walks_returnStatement
    (keyword : Token) :
    Walks c A m (Stmt.shifted c.ids) (returnStatement keyword)
      (fun fuel => Walk.returnStatement fuel keyword) fun _ => m - 1 :=
  (walks_optionalExpression (fun kind _ => hA kind) _).bind fun _ =>
    (walks_expect (hA _) _).bind fun _ => .pure rfl (Nat.le_refl _)

theorem walks_forInitializer :
    Walks c A m (Option.map (Stmt.shifted c.ids)) forInitializer Walk.forInitializer
      fun _ => m := by
  refine (walks_accept (hA _)).bind fun missing => ?_
  cases missing with
  | true =>
      exact .pure rfl (Nat.sub_le m 1)
  | false =>
      refine (walks_accept (hA _)).bind fun declared => ?_
      cases declared with
      | true =>
          refine (walks_variableDeclaration hA).bind fun _ => .pure rfl ?_
          simp only [cond_true, cond_false]
          omega
      | false =>
          refine (walks_expressionStatement hA).bind fun _ => .pure rfl ?_
          simp only [cond_false]
          omega

variable {nested : Parser Stmt}
variable (hnested : Walks c A m (Stmt.shifted c.ids) nested Walk.statement fun _ => m)
variable {inner : Parser (Option Stmt)}
variable (hinner : ∀ n ≤ m, Walks c A n (Option.map (Stmt.shifted c.ids)) inner Walk.declaration
  fun _ => max (n - 1) 1)

section Nested

omit hA in
theorem shifted_forLoop
    (k : Nat)
    (initializer : Option Stmt)
    (condition increment : Option Expr)
    (body : Stmt) :
    (forLoop initializer condition increment body).shifted k =
      forLoop (initializer.map (Stmt.shifted k)) (condition.map (Expr.shifted k))
        (increment.map (Expr.shifted k)) (body.shifted k) := by
  cases initializer <;> cases condition <;> cases increment <;> rfl

include hnested

theorem walks_forStatement :
    Walks c A m (Stmt.shifted c.ids) (forStatement nested) Walk.forStatement fun _ => m := by
  refine .unfold Walk.forStatement.eq_2 ?_
  refine (walks_expect (hA _) _).bind fun _ => (walks_forInitializer hA).bind fun _ => ?_
  refine (walks_optionalExpression (fun kind _ => hA kind) _).bind fun _ => ?_
  refine (walks_expect (hA _) _).bind fun _ => ?_
  refine (walks_optionalExpression (fun kind _ => hA kind) _).bind fun _ => ?_
  refine (walks_expect (hA _) _).bind fun _ => ?_
  refine (hnested.stays (by omega)).bind fun _ => .pure (shifted_forLoop _ _ _ _ _) ?_
  omega

theorem walks_ifStatement :
    Walks c A m (Stmt.shifted c.ids) (ifStatement nested) Walk.ifStatement fun _ => m := by
  refine .unfold Walk.ifStatement.eq_2 ?_
  refine (walks_expect (hA _) _).bind fun _ => ?_
  refine (walks_expression fun kind _ => hA kind).bind fun _ => ?_
  refine (walks_expect (hA _) _).bind fun _ => ?_
  refine (hnested.stays (by omega)).bind fun _ => (walks_accept (hA _)).bind fun other => ?_
  cases other with
  | true =>
      refine (hnested.stays ?_).bind fun _ => .pure rfl ?_
      · simp only [cond_true]
        omega
      · simp only [cond_true]
        omega
  | false =>
      refine .pure rfl ?_
      simp only [cond_false]
      omega

theorem walks_whileStatement :
    Walks c A m (Stmt.shifted c.ids) (whileStatement nested) Walk.whileStatement fun _ => m := by
  refine .unfold Walk.whileStatement.eq_2 ?_
  refine (walks_expect (hA _) _).bind fun _ => ?_
  refine (walks_expression fun kind _ => hA kind).bind fun _ => ?_
  refine (walks_expect (hA _) _).bind fun _ => ?_
  refine (hnested.stays (by omega)).bind fun _ => .pure rfl ?_
  omega

end Nested

section Inner

include hinner

omit hA in
theorem walks_declarations
    (count : Nat)
    (hm : n ≤ m)
    (hcount : n ≤ count + 1) :
    Walks c A n (List.map (Option.map (Stmt.shifted c.ids))) (manyUntil bodyEnds inner count)
      Walk.declarations fun _ => n :=
  walks_manyUntil Walk.declarations.eq_2 (fun _ => walks_bodyEnds) runs_bodyEnds hinner count hm
    hcount

theorem walks_block
    (hm : n ≤ m) :
    Walks c A n (List.map (Stmt.shifted c.ids)) (block inner) Walk.block fun _ => n := by
  refine .unfold Walk.block.eq_2 ?_
  refine .remaining fun count hcount => ?_
  have hbody := walks_declarations hinner (n := count + 1) count (by omega) (Nat.le_refl _)
  refine hbody.bind fun body => (walks_expect (hA _) _).bind fun _ => .pure ?_ (by omega)
  simp [List.map_filterMap, List.filterMap_map]

theorem walks_function
    (sort : FunctionSort)
    (hm : n ≤ m) :
    Walks c A n (Stmt.shiftedFunction c.ids) (function inner sort)
      (fun fuel => Walk.function fuel sort) fun _ => n - 1 := by
  refine .unfold (Walk.function.eq_2 sort) ?_
  refine (walks_expect (hA _) _).bind fun name => (walks_expect (hA _) _).bind fun _ => ?_
  refine (walks_parameterList fun kind _ => hA kind).bind fun params => ?_
  refine (walks_expect (hA _) _).bind fun _ => ?_
  refine (walks_expect (hA _) _).bind fun _ => ?_
  refine (walks_block hA hinner (by omega)).bind fun body => .pure ?_ (by omega)
  simp [Stmt.shiftedFunction, Stmt.shiftedAll_eq_map]

theorem walks_methods
    (count : Nat)
    (hm : n ≤ m)
    (hcount : n ≤ count + 1) :
    Walks c A n (List.map (Stmt.shiftedFunction c.ids))
      (manyUntil bodyEnds (function inner .method) count) Walk.methods fun _ => n := by
  refine walks_manyUntil Walk.methods.eq_2 (fun _ => walks_bodyEnds) runs_bodyEnds ?_ count hm
    hcount
  intro n hn
  exact (walks_function hA hinner .method hn).mono (Nat.le_refl _) fun _ => Nat.le_max_left _ _

theorem walks_classDeclaration :
    Walks c A m (Stmt.shifted c.ids) (classDeclaration inner) Walk.classDeclaration
      fun _ => m := by
  refine .unfold Walk.classDeclaration.eq_2 ?_
  refine (walks_expect (hA _) _).bind fun name => ?_
  refine (walks_superclass fun kind _ => hA kind).bind fun parent => ?_
  refine (walks_expect (hA _) _).bind fun _ => .remaining fun count hcount => ?_
  have hmembers := walks_methods hA hinner (n := count + 1) count (by omega) (Nat.le_refl _)
  refine hmembers.bind fun members => (walks_expect (hA _) _).bind fun _ => .pure ?_ (by omega)
  simp [Stmt.shifted, Stmt.shiftedMethods_eq_map]

end Inner

include hnested hinner

theorem walks_statement :
    Walks c A (m + 1) (Stmt.shifted c.ids) (statement nested inner) Walk.statement
      fun _ => m := by
  refine .unfold Walk.statement.eq_2 ?_
  refine (walks_acceptAny? fun kind _ => hA kind).bind fun found => ?_
  cases found with
  | none =>
      exact walks_expressionStatement hA
  | some t =>
      have hprint : Walks c A m (Stmt.shifted c.ids) printStatement Walk.printStatement
          fun _ => m :=
        (walks_printStatement hA).stays (Nat.le_refl m)
      obtain ⟨kind, lexeme, line⟩ := t
      cases kind with
      | keyword word =>
          cases word with
          | for_ =>
              exact walks_forStatement hA hnested
          | if_ =>
              exact walks_ifStatement hA hnested
          | while_ =>
              exact walks_whileStatement hA hnested
          | return_ =>
              exact (walks_returnStatement hA _).stays (Nat.le_refl m)
          | _ =>
              exact hprint
      | punct mark =>
          cases mark with
          | leftBrace =>
              refine (walks_block hA hinner (Nat.le_refl m)).bind fun body => .pure ?_ (Nat.le_refl m)
              rw [Stmt.shifted, Stmt.shiftedAll_eq_map]
          | _ =>
              exact hprint
      | _ =>
          exact hprint

theorem walks_attempt :
    Walks c A (m + 1) (Stmt.shifted c.ids) (attempt nested inner) Walk.attempt fun _ => m := by
  refine .unfold Walk.attempt.eq_2 ?_
  refine (walks_accept (hA _)).bind fun isClass => ?_
  cases isClass with
  | true =>
      exact walks_classDeclaration hA hinner
  | false =>
      refine (walks_accept (hA _)).bind fun isFunction => ?_
      cases isFunction with
      | true =>
          refine (walks_function hA hinner .function (Nat.le_refl m)).bind fun decl => .pure rfl ?_
          exact Nat.sub_le m 1
      | false =>
          refine (walks_accept (hA _)).bind fun isVariable => ?_
          cases isVariable with
          | true =>
              exact (walks_variableDeclaration hA).stays (Nat.le_refl m)
          | false =>
              exact walks_statement hA hnested hinner

/-- A failed declaration is left behind in the same way. -/
theorem walks_declaration
    (htokens : c.tokens ≠ []) :
    Walks c A (m + 1) (Option.map (Stmt.shifted c.ids)) (declaration nested inner)
      Walk.declaration fun _ => max m 1 := by
  intro s hs
  obtain ⟨hadvances, hleaves, hruns⟩ := walks_attempt hA hnested hinner s hs
  rw [declaration_eq, recovering]
  rcases hrun : attempt nested inner s with ⟨result, s'⟩
  rw [hrun] at hadvances hleaves hruns
  cases result with
  | ok a =>
      refine ⟨hadvances, ?_, fun hshows => arrives_declaration (hruns hshows) (.of_runs (.pure _))⟩
      intro a' ha'
      exact Nat.lt_of_lt_of_le (hleaves a rfl) (Nat.le_max_left m 1)
  | error e =>
      have hdrops : s'.Advances A { s'.report e with rest := dropFailed s'.rest } :=
        advances_dropFailed hA s' e
      refine ⟨hadvances.trans hdrops, ?_, fun hshows => ?_⟩
      · intro a ha
        have hle : s'.rest.length ≤ s.rest.length := hadvances.length_le
        have hdropped := (dropFailed_suffix_tail s'.rest).length_le
        rw [List.length_tail] at hdropped
        simp only
        omega
      · have hfailed := hruns (hshows.of_advances hdrops)
        exact arrives_declaration hfailed (arrives_recovered hshows htokens)

end Statements

section Programs

variable {c : Passage}
variable {A : Token.Kind → Prop}
variable (hA : ∀ kind, A kind)
variable (htokens : c.tokens ≠ [])

include hA htokens

theorem walks_within
    (depth : Nat)
    {m : Nat}
    (hm : m ≤ depth) :
    Walks c A m (Stmt.shifted c.ids) (statementWithin depth) Walk.statement (fun _ => m - 1) ∧
      Walks c A m (Option.map (Stmt.shifted c.ids)) (declarationWithin depth) Walk.declaration
        fun _ => max (m - 1) 1 := by
  induction depth generalizing m with
  | zero =>
      obtain rfl : m = 0 := Nat.le_zero.mp hm
      exact ⟨.none, .none⟩
  | succ depth ih =>
      cases m with
      | zero =>
          exact ⟨.none, .none⟩
      | succ m =>
          have hnested : Walks c A m (Stmt.shifted c.ids) (statementWithin depth) Walk.statement
              fun _ => m :=
            (ih (Nat.le_of_succ_le_succ hm)).1.mono (Nat.le_refl m) fun _ => Nat.sub_le m 1
          have hinner : ∀ n ≤ m, Walks c A n (Option.map (Stmt.shifted c.ids))
              (declarationWithin depth) Walk.declaration fun _ => max (n - 1) 1 :=
            fun n hn => (ih (Nat.le_trans hn (Nat.le_of_succ_le_succ hm))).2
          exact ⟨walks_statement hA hnested hinner, walks_declaration hA hnested hinner htokens⟩

theorem walks_attemptWithin
    (depth : Nat) :
    Walks c A (depth + 1) (Stmt.shifted c.ids)
      (attempt (statementWithin depth) (declarationWithin depth)) Walk.attempt fun _ => depth := by
  have hnested := (walks_within hA htokens depth (Nat.le_refl depth)).1
  exact walks_attempt hA (hnested.mono (Nat.le_refl depth) fun _ => Nat.sub_le depth 1)
    fun _ hn => (walks_within hA htokens depth hn).2

/-- Declarations up to the end of the text, when neither nesting nor their number is bounded too
tightly. -/
theorem walks_toEnd
    (depth count : Nat)
    {m : Nat}
    (hdepth : m ≤ depth)
    (hcount : m ≤ count + 1) :
    Walks c A m (List.map (Option.map (Stmt.shifted c.ids)))
      (manyUntil atEnd (declarationWithin depth) count) Walk.program fun _ => m := by
  refine walks_manyUntil Walk.program.eq_2 (fun _ => walks_atEnd) ?_ ?_ count (Nat.le_refl m) hcount
  · intro s hrest hshows
    have hend := Passage.runs_atEnd hshows
    rw [hrest] at hend
    exact hend
  · intro n hn
    exact (walks_within hA htokens depth (Nat.le_trans hn hdepth)).2

end Programs

end Grammar
end Lox
