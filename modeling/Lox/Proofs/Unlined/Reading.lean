import Lox.Grammar.Statement
import Lox.Proofs.Unlined.Trees

/-!
# Reading tokens without lines

No rule of the grammar looks at the line of a token.  `Mirrors` is the judgement for this: a parser
does to tokens without lines what another one does to tokens with lines, and then the lines of what
it gives are forgotten.  It follows failing parsers too, since reading goes on behind a failure.
-/

namespace Lox

/-- A fault in the token list, noticed at a terminal without a line. -/
def SyntaxError.unlined (e : SyntaxError) : SyntaxError :=
  ⟨e.found.unlined, e.fault⟩

namespace Parser

variable {α β γ δ : Type}

/-- Where a parser stands, without lines. -/
def State.unlined (s : State) : State :=
  ⟨s.rest.map Token.unlined, 0, s.nextId, s.errors.map SyntaxError.unlined⟩

/-- What a parser ends with, without lines. -/
def forget (f : α → β) : Except SyntaxError α × State → Except SyntaxError β × State
  | (.ok a, s) => (.ok (f a), s.unlined)
  | (.error e, s) => (.error e.unlined, s.unlined)

/-- Without lines, the second parser does what the first one does with them; `f` forgets the lines
of what is read. -/
def Mirrors (f : α → β) (p : Parser α) (p' : Parser β) : Prop :=
  ∀ s : State, p' s.unlined = forget f (p s)

theorem State.next_unlined (s : State) : s.unlined.next = s.next.unlined := by
  unfold State.next State.unlined
  cases s.rest <;> rfl

theorem State.report_unlined (s : State) (e : SyntaxError) :
    (s.report e).unlined = s.unlined.report e.unlined := by
  simp [State.report, State.unlined]

namespace Mirrors

theorem pure
    {f : α → β}
    {a : α}
    {b : β}
    (h : f a = b) :
    Mirrors f (Pure.pure a) (Pure.pure b) := by
  intro s
  rw [← h]
  rfl

theorem bind
    {f : α → β}
    {g : γ → δ}
    {p : Parser α}
    {p' : Parser β}
    {k : α → Parser γ}
    {k' : β → Parser δ}
    (hp : Mirrors f p p')
    (hk : ∀ a, Mirrors g (k a) (k' (f a))) :
    Mirrors g (p >>= k) (p' >>= k') := by
  intro s
  rw [bind_apply, bind_apply, hp s]
  rcases p s with ⟨_ | a, s'⟩
  · rfl
  · exact hk a s'

/-- Both parsers branch the same way. -/
theorem ite
    {f : α → β}
    {p q : Parser α}
    {p' q' : Parser β}
    {c : Prop}
    [Decidable c]
    (hp : Mirrors f p p')
    (hq : Mirrors f q q') :
    Mirrors f (if c then p else q) (if c then p' else q') := by
  split
  · exact hp
  · exact hq

end Mirrors

theorem mirrors_fail
    (f : α → β)
    (fault : SyntaxFault) :
    Mirrors f (fail fault) (fail fault) := by
  intro s
  unfold fail
  rw [s.next_unlined]
  rfl

theorem mirrors_report
    (found : Terminal)
    (fault : SyntaxFault) :
    Mirrors id (report found fault) (report found.unlined fault) := by
  intro s
  simp only [report, forget, State.report_unlined, SyntaxError.unlined, id]

theorem mirrors_reportNext
    (fault : SyntaxFault) :
    Mirrors id (reportNext fault) (reportNext fault) := by
  intro s
  simp only [reportNext, forget, State.report_unlined, SyntaxError.unlined, s.next_unlined, id]

theorem mirrors_atEnd : Mirrors id atEnd atEnd := by
  intro s
  simp [atEnd, forget, State.unlined]

theorem mirrors_remaining : Mirrors id remaining remaining := by
  intro s
  simp [remaining, forget, State.unlined]

theorem mirrors_fresh : Mirrors id fresh fresh := by
  intro s
  rfl

theorem mirrors_check
    (kind : Token.Kind) :
    Mirrors id (check kind) (check kind) := by
  rintro ⟨rest, endLine, nextId, errors⟩
  cases rest <;> rfl

theorem mirrors_acceptAny?
    (kinds : List Token.Kind) :
    Mirrors (Option.map Token.unlined) (acceptAny? kinds) (acceptAny? kinds) := by
  rintro ⟨rest, endLine, nextId, errors⟩
  cases rest with
  | nil =>
      rfl
  | cons t rest =>
      by_cases h : t.kind ∈ kinds
      · simp [acceptAny?, State.unlined, h, forget]
      · simp [acceptAny?, State.unlined, h, forget]

theorem mirrors_accept
    (kind : Token.Kind) :
    Mirrors id (accept kind) (accept kind) := by
  refine (mirrors_acceptAny? [kind]).bind fun found => .pure ?_
  cases found <;> rfl

theorem mirrors_expect
    (kind : Token.Kind)
    (fault : SyntaxFault) :
    Mirrors Token.unlined (expect kind fault) (expect kind fault) := by
  refine (mirrors_acceptAny? [kind]).bind fun found => ?_
  cases found with
  | none =>
      exact mirrors_fail _ fault
  | some t =>
      exact .pure rfl

section Items

variable {f : α → β}
variable {item : Parser α}
variable {item' : Parser β}

theorem mirrors_manyUntil
    {done : Parser Bool}
    (hdone : Mirrors id done done)
    (hitem : Mirrors f item item')
    (count : Nat) :
    Mirrors (List.map f) (manyUntil done item count) (manyUntil done item' count) := by
  induction count with
  | zero =>
      exact .pure rfl
  | succ count ih =>
      refine hdone.bind fun isDone => .ite (.pure rfl) ?_
      exact hitem.bind fun first => ih.bind fun rest => .pure rfl

theorem mirrors_commaSeparated
    (hitem : Mirrors f item item')
    (excess : SyntaxFault)
    (count before : Nat) :
    Mirrors (List.map f) (commaSeparated item excess count before)
      (commaSeparated item' excess count before) := by
  induction count generalizing before with
  | zero =>
      exact .pure rfl
  | succ count ih =>
      have hitems : Mirrors (List.map f)
          (do
            let first ← item
            if ← accept (.punct .comma) then
              return first :: (← commaSeparated item excess count (before + 1))
            else
              return [first])
          (do
            let first ← item'
            if ← accept (.punct .comma) then
              return first :: (← commaSeparated item' excess count (before + 1))
            else
              return [first]) := by
        refine hitem.bind fun first => (mirrors_accept _).bind fun comma => ?_
        exact .ite ((ih (before + 1)).bind fun rest => .pure rfl) (.pure rfl)
      unfold commaSeparated
      exact .ite ((mirrors_reportNext excess).bind fun _ => hitems) hitems

theorem mirrors_parenthesized
    (hitem : Mirrors f item item')
    (excess : SyntaxFault) :
    Mirrors (List.map f) (parenthesized item excess) (parenthesized item' excess) := by
  refine (mirrors_check _).bind fun isEmpty => .ite (.pure rfl) ?_
  exact mirrors_remaining.bind fun count => mirrors_commaSeparated hitem excess (count + 1) 0

end Items

end Parser

namespace Grammar

open Lox.Parser

section Expressions

variable {expression : Parser Expr}
variable (hexpression : Mirrors Expr.unlined expression expression)

section Operands

variable {operand : Parser Expr}
variable {join : Expr → Token → Expr → Expr}
variable (hjoin : ∀ left operator right, (join left operator right).unlined =
  join left.unlined operator.unlined right.unlined)
variable (hoperand : Mirrors Expr.unlined operand operand)

include hjoin hoperand

theorem mirrors_joinLeft
    (kinds : List Token.Kind)
    (count : Nat)
    (left : Expr) :
    Mirrors Expr.unlined (joinLeft kinds join operand count left)
      (joinLeft kinds join operand count left.unlined) := by
  induction count generalizing left with
  | zero =>
      exact .pure rfl
  | succ count ih =>
      refine (mirrors_acceptAny? kinds).bind fun found => ?_
      cases found with
      | none =>
          exact .pure rfl
      | some operator =>
          refine hoperand.bind fun right => ?_
          rw [← hjoin]
          exact ih (join left operator right)

theorem mirrors_leftAssociative
    (kinds : List Token.Kind) :
    Mirrors Expr.unlined (leftAssociative kinds join operand)
      (leftAssociative kinds join operand) :=
  hoperand.bind fun left => mirrors_remaining.bind fun count =>
    mirrors_joinLeft hjoin hoperand kinds count left

end Operands

theorem mirrors_superAccess
    (keyword : Token) :
    Mirrors Expr.unlined (superAccess keyword) (superAccess keyword.unlined) :=
  (mirrors_expect _ _).bind fun _ => (mirrors_expect _ _).bind fun _ =>
    mirrors_fresh.bind fun _ => .pure rfl

include hexpression

theorem mirrors_grouped : Mirrors Expr.unlined (grouped expression) (grouped expression) :=
  hexpression.bind fun _ => (mirrors_expect _ _).bind fun _ => .pure rfl

theorem mirrors_primary : Mirrors Expr.unlined (primary expression) (primary expression) := by
  refine (mirrors_acceptAny? _).bind fun found => ?_
  cases found with
  | none =>
      exact mirrors_fail _ _
  | some t =>
      have hliteral : Mirrors Expr.unlined
          (pure (Expr.literal ((literalOf? t).getD .nil)) : Parser Expr)
          (pure (Expr.literal ((literalOf? t.unlined).getD .nil))) := .pure rfl
      obtain ⟨kind, lexeme, line⟩ := t
      cases kind with
      | identifier =>
          exact mirrors_fresh.bind fun _ => .pure rfl
      | punct mark =>
          cases mark with
          | leftParen =>
              exact mirrors_grouped hexpression
          | _ =>
              exact hliteral
      | keyword word =>
          cases word with
          | this =>
              exact mirrors_fresh.bind fun _ => .pure rfl
          | super =>
              exact mirrors_superAccess _
          | _ =>
              exact hliteral
      | string =>
          exact hliteral
      | number =>
          exact hliteral

theorem mirrors_finishCall
    (callee : Expr) :
    Mirrors Expr.unlined (finishCall expression callee) (finishCall expression callee.unlined) := by
  refine (mirrors_parenthesized hexpression _).bind fun arguments =>
    (mirrors_expect _ _).bind fun paren => .pure ?_
  simp only [Expr.unlined, Expr.unlinedAll_eq_map]

theorem mirrors_suffixes
    (count : Nat)
    (e : Expr) :
    Mirrors Expr.unlined (suffixes expression count e) (suffixes expression count e.unlined) := by
  induction count generalizing e with
  | zero =>
      exact .pure rfl
  | succ count ih =>
      refine (mirrors_accept _).bind fun isCall => .ite ?_ ?_
      · exact (mirrors_finishCall hexpression e).bind fun call => ih call
      · refine (mirrors_accept _).bind fun isGet => .ite ?_ (.pure rfl)
        exact (mirrors_expect _ _).bind fun name => ih (.get e name)

theorem mirrors_call : Mirrors Expr.unlined (call expression) (call expression) :=
  (mirrors_primary hexpression).bind fun e => mirrors_remaining.bind fun count =>
    mirrors_suffixes hexpression count e

omit hexpression in
theorem mirrors_signs
    (count : Nat) :
    Mirrors (List.map Token.unlined) (signs count) (signs count) := by
  induction count with
  | zero =>
      exact .pure rfl
  | succ count ih =>
      refine (mirrors_acceptAny? _).bind fun found => ?_
      cases found with
      | none =>
          exact .pure rfl
      | some sign =>
          exact ih.bind fun rest => .pure rfl

omit hexpression in
theorem foldr_unary_unlined
    (operators : List Token)
    (operand : Expr) :
    (operators.foldr Expr.unary operand).unlined =
      (operators.map Token.unlined).foldr Expr.unary operand.unlined := by
  induction operators with
  | nil =>
      rfl
  | cons operator rest ih =>
      simp only [List.foldr_cons, List.map_cons, Expr.unlined, ih]

theorem mirrors_unary : Mirrors Expr.unlined (unary expression) (unary expression) :=
  mirrors_remaining.bind fun count => (mirrors_signs count).bind fun operators =>
    (mirrors_call hexpression).bind fun operand => .pure (foldr_unary_unlined operators operand)

theorem mirrors_disjunction :
    Mirrors Expr.unlined (disjunction expression) (disjunction expression) := by
  have hbinary : ∀ left operator right, (Expr.binary left operator right).unlined =
      .binary left.unlined operator.unlined right.unlined := fun _ _ _ => rfl
  have hlogical : ∀ left operator right, (Expr.logical left operator right).unlined =
      .logical left.unlined operator.unlined right.unlined := fun _ _ _ => rfl
  have hfactor := mirrors_leftAssociative hbinary (mirrors_unary hexpression)
    [.punct .star, .punct .slash]
  have hterm := mirrors_leftAssociative hbinary hfactor [.punct .minus, .punct .plus]
  have hcomparison := mirrors_leftAssociative hbinary hterm
    [.punct .greater, .punct .greaterEqual, .punct .less, .punct .lessEqual]
  have hequality := mirrors_leftAssociative hbinary hcomparison
    [.punct .bangEqual, .punct .equalEqual]
  have hconjunction := mirrors_leftAssociative hlogical hequality [.keyword .and]
  exact mirrors_leftAssociative hlogical hconjunction [.keyword .or]

omit hexpression in
theorem mirrors_assignTo
    (target : Expr)
    (equals : Token)
    (value : Expr) :
    Mirrors Expr.unlined (assignTo target equals value)
      (assignTo target.unlined equals.unlined value.unlined) := by
  cases target with
  | var id name =>
      exact .pure rfl
  | get object name =>
      exact .pure rfl
  | _ =>
      exact (mirrors_report (.token equals) _).bind fun _ => .pure rfl

theorem mirrors_assignment :
    Mirrors Expr.unlined (assignment expression) (assignment expression) := by
  refine (mirrors_disjunction hexpression).bind fun target =>
    (mirrors_acceptAny? [.punct .equal]).bind fun found => ?_
  cases found with
  | none =>
      exact .pure rfl
  | some equals =>
      exact hexpression.bind fun value => mirrors_assignTo target equals value

omit hexpression

theorem mirrors_expressionWithin
    (depth : Nat) :
    Mirrors Expr.unlined (expressionWithin depth) (expressionWithin depth) := by
  induction depth with
  | zero =>
      exact mirrors_fail _ _
  | succ depth ih =>
      exact mirrors_assignment ih

theorem mirrors_expression : Mirrors Expr.unlined Grammar.expression Grammar.expression :=
  mirrors_remaining.bind fun count => mirrors_expressionWithin (count + 1)

theorem mirrors_loneExpression : Mirrors Expr.unlined loneExpression loneExpression :=
  mirrors_expression.bind fun _ => mirrors_atEnd.bind fun _ =>
    .ite (.pure rfl) (mirrors_fail _ _)

end Expressions

section Recovery

theorem dropToStatement_unlined
    (ts : List Token) :
    dropToStatement (ts.map Token.unlined) = (dropToStatement ts).map Token.unlined := by
  induction ts with
  | nil =>
      rfl
  | cons t rest ih =>
      simp only [List.map_cons, dropToStatement, Token.kind_unlined, ih]
      split
      · rfl
      · split <;> rfl

theorem dropFailed_unlined
    (ts : List Token) :
    dropFailed (ts.map Token.unlined) = (dropFailed ts).map Token.unlined := by
  cases ts with
  | nil =>
      rfl
  | cons t rest =>
      simp only [List.map_cons, dropFailed, Token.kind_unlined, dropToStatement_unlined]
      split <;> rfl

/-- After a failure both parsers go on at the same token. -/
theorem mirrors_recovering
    {p : Parser Stmt}
    (hp : Mirrors Stmt.unlined p p) :
    Mirrors (Option.map Stmt.unlined) (recovering p) (recovering p) := by
  intro s
  unfold recovering
  rw [hp s]
  rcases p s with ⟨e | a, s'⟩
  · simp [forget, State.report, State.unlined, dropFailed_unlined]
  · rfl

end Recovery

section Statements

theorem mirrors_optionalExpression
    (kind : Token.Kind) :
    Mirrors (Option.map Expr.unlined) (optionalExpression kind) (optionalExpression kind) :=
  (mirrors_check kind).bind fun _ => .ite (.pure rfl) (mirrors_expression.bind fun _ => .pure rfl)

theorem mirrors_bodyEnds : Mirrors id bodyEnds bodyEnds :=
  mirrors_atEnd.bind fun _ => .ite (.pure rfl) (mirrors_check _)

theorem filterMap_id_unlined (body : List (Option Stmt)) :
    (body.map (Option.map Stmt.unlined)).filterMap id = (body.filterMap id).map Stmt.unlined := by
  simp only [List.filterMap_map, List.map_filterMap]
  rfl

theorem mirrors_superclass : Mirrors (Option.map Expr.unlined) superclass superclass := by
  refine (mirrors_accept _).bind fun _ => .ite ?_ (.pure rfl)
  exact (mirrors_expect _ _).bind fun name => mirrors_fresh.bind fun id => .pure rfl

theorem mirrors_variableDeclaration :
    Mirrors Stmt.unlined variableDeclaration variableDeclaration := by
  refine (mirrors_expect _ _).bind fun name => (mirrors_accept _).bind fun hasValue => ?_
  have hfinish : ∀ initializer : Option Expr, Mirrors Stmt.unlined
      (do
        let _ ← expect (.punct .semicolon) .variableEnd
        return .var name initializer)
      (do
        let _ ← expect (.punct .semicolon) .variableEnd
        return .var name.unlined (initializer.map Expr.unlined)) :=
    fun initializer => (mirrors_expect _ _).bind fun _ => .pure rfl
  refine .ite ?_ ?_
  · exact mirrors_expression.bind fun _ => (Mirrors.pure rfl).bind hfinish
  · exact (Mirrors.pure rfl).bind hfinish

theorem mirrors_expressionStatement :
    Mirrors Stmt.unlined expressionStatement expressionStatement :=
  mirrors_expression.bind fun _ => (mirrors_expect _ _).bind fun _ => .pure rfl

theorem mirrors_returnStatement
    (keyword : Token) :
    Mirrors Stmt.unlined (returnStatement keyword) (returnStatement keyword.unlined) :=
  (mirrors_optionalExpression _).bind fun _ => (mirrors_expect _ _).bind fun _ => .pure rfl

theorem mirrors_printStatement : Mirrors Stmt.unlined printStatement printStatement :=
  mirrors_expression.bind fun _ => (mirrors_expect _ _).bind fun _ => .pure rfl

theorem forLoop_unlined
    (initializer : Option Stmt)
    (condition increment : Option Expr)
    (body : Stmt) :
    (forLoop initializer condition increment body).unlined =
      forLoop (initializer.map Stmt.unlined) (condition.map Expr.unlined)
        (increment.map Expr.unlined) body.unlined := by
  cases initializer <;> cases condition <;> cases increment <;> rfl

theorem mirrors_forInitializer :
    Mirrors (Option.map Stmt.unlined) forInitializer forInitializer := by
  refine (mirrors_accept _).bind fun _ => .ite (.pure rfl) ?_
  refine (mirrors_accept _).bind fun _ => .ite ?_ ?_
  · exact mirrors_variableDeclaration.bind fun _ => .pure rfl
  · exact mirrors_expressionStatement.bind fun _ => .pure rfl

variable {nested : Parser Stmt}
variable (hnested : Mirrors Stmt.unlined nested nested)
variable {inner : Parser (Option Stmt)}
variable (hinner : Mirrors (Option.map Stmt.unlined) inner inner)

section Nested

include hnested

theorem mirrors_forStatement :
    Mirrors Stmt.unlined (forStatement nested) (forStatement nested) :=
  (mirrors_expect _ _).bind fun _ => mirrors_forInitializer.bind fun _ =>
    (mirrors_optionalExpression _).bind fun _ => (mirrors_expect _ _).bind fun _ =>
      (mirrors_optionalExpression _).bind fun _ => (mirrors_expect _ _).bind fun _ =>
        hnested.bind fun _ => .pure (forLoop_unlined _ _ _ _)

theorem mirrors_ifStatement :
    Mirrors Stmt.unlined (ifStatement nested) (ifStatement nested) :=
  (mirrors_expect _ _).bind fun _ => mirrors_expression.bind fun _ =>
    (mirrors_expect _ _).bind fun _ => hnested.bind fun _ => (mirrors_accept _).bind fun _ =>
      .ite (hnested.bind fun _ => .pure rfl) (.pure rfl)

theorem mirrors_whileStatement :
    Mirrors Stmt.unlined (whileStatement nested) (whileStatement nested) :=
  (mirrors_expect _ _).bind fun _ => mirrors_expression.bind fun _ =>
    (mirrors_expect _ _).bind fun _ => hnested.bind fun _ => .pure rfl

end Nested

section Inner

include hinner

theorem mirrors_block :
    Mirrors (List.map Stmt.unlined) (block inner) (block inner) :=
  mirrors_remaining.bind fun count => (mirrors_manyUntil mirrors_bodyEnds hinner count).bind
    fun body => (mirrors_expect _ _).bind fun _ => .pure (filterMap_id_unlined body).symm

theorem mirrors_function
    (sort : FunctionSort) :
    Mirrors FunctionDecl.unlined (function inner sort) (function inner sort) := by
  refine (mirrors_expect _ _).bind fun name => (mirrors_expect _ _).bind fun _ =>
    (mirrors_parenthesized (mirrors_expect _ _) _).bind fun params =>
      (mirrors_expect _ _).bind fun _ => (mirrors_expect _ _).bind fun _ =>
        (mirrors_block hinner).bind fun body => .pure ?_
  rw [FunctionDecl.unlined, Stmt.unlinedFunction, Stmt.unlinedAll_eq_map]

theorem mirrors_classDeclaration :
    Mirrors Stmt.unlined (classDeclaration inner) (classDeclaration inner) := by
  refine (mirrors_expect _ _).bind fun name => mirrors_superclass.bind fun parent =>
    (mirrors_expect _ _).bind fun _ => mirrors_remaining.bind fun count =>
      (mirrors_manyUntil mirrors_bodyEnds (mirrors_function hinner .method) count).bind
        fun methods => (mirrors_expect _ _).bind fun _ => .pure ?_
  rw [Stmt.unlined, Stmt.unlinedMethods_eq_map]

end Inner

include hnested hinner

theorem mirrors_statement :
    Mirrors Stmt.unlined (statement nested inner) (statement nested inner) := by
  refine (mirrors_acceptAny? _).bind fun found => ?_
  cases found with
  | none =>
      exact mirrors_expressionStatement
  | some t =>
      obtain ⟨kind, lexeme, line⟩ := t
      cases kind with
      | keyword word =>
          cases word with
          | for_ =>
              exact mirrors_forStatement hnested
          | if_ =>
              exact mirrors_ifStatement hnested
          | while_ =>
              exact mirrors_whileStatement hnested
          | return_ =>
              exact mirrors_returnStatement _
          | _ =>
              exact mirrors_printStatement
      | punct mark =>
          cases mark with
          | leftBrace =>
              refine (mirrors_block hinner).bind fun body => .pure ?_
              rw [Stmt.unlined, Stmt.unlinedAll_eq_map]
          | _ =>
              exact mirrors_printStatement
      | _ =>
          exact mirrors_printStatement

theorem mirrors_declaration :
    Mirrors (Option.map Stmt.unlined) (declaration nested inner) (declaration nested inner) := by
  refine mirrors_recovering ?_
  refine (mirrors_accept _).bind fun _ => .ite (mirrors_classDeclaration hinner) ?_
  refine (mirrors_accept _).bind fun _ => .ite ?_ ?_
  · exact (mirrors_function hinner .function).bind fun _ => .pure rfl
  · exact (mirrors_accept _).bind fun _ =>
      .ite mirrors_variableDeclaration (mirrors_statement hnested hinner)

end Statements

theorem mirrors_within
    (depth : Nat) :
    Mirrors Stmt.unlined (statementWithin depth) (statementWithin depth) ∧
      Mirrors (Option.map Stmt.unlined) (declarationWithin depth) (declarationWithin depth) := by
  induction depth with
  | zero =>
      exact ⟨mirrors_fail _ _, mirrors_recovering (mirrors_fail _ _)⟩
  | succ depth ih =>
      exact ⟨mirrors_statement ih.1 ih.2, mirrors_declaration ih.1 ih.2⟩

theorem mirrors_program : Mirrors (List.map Stmt.unlined) program program :=
  mirrors_remaining.bind fun count =>
    (mirrors_manyUntil mirrors_atEnd (mirrors_within (count + 1)).2 count).bind fun body =>
      .pure (filterMap_id_unlined body).symm

end Grammar

/-- What reading a token list gives, without lines. -/
def Parse.unlined {α : Type} (f : α → α) (p : Parse α) : Parse α :=
  ⟨f p.result, p.errors.map SyntaxError.unlined, p.idCount⟩

theorem Parse.result_unlined {α : Type} (f : α → α) (p : Parse α) :
    (p.unlined f).result = f p.result := rfl

theorem Parse.errors_unlined {α : Type} (f : α → α) (p : Parse α) :
    (p.unlined f).errors = p.errors.map SyntaxError.unlined := rfl

namespace Grammar

open Lox.Parser

variable (ts : List Token)
variable (endLine : Nat)

/-- Tokens without lines are read as the same program, with the same faults. -/
theorem readProgram_unlined :
    readProgram (ts.map Token.unlined) 0 =
      (readProgram ts endLine).unlined (List.map Stmt.unlined) := by
  have hread : program ⟨ts.map Token.unlined, 0, 0, []⟩ = _ :=
    mirrors_program ⟨ts, endLine, 0, []⟩
  unfold readProgram
  rw [hread]
  rcases program ⟨ts, endLine, 0, []⟩ with ⟨e | statements, s⟩
  · simp [forget, Parse.unlined, State.report, State.unlined]
  · rfl

/-- Tokens without lines are read as the same expression, with the same faults. -/
theorem readExpression_unlined :
    readExpression (ts.map Token.unlined) 0 =
      (readExpression ts endLine).unlined (Option.map Expr.unlined) := by
  have hread : loneExpression ⟨ts.map Token.unlined, 0, 0, []⟩ = _ :=
    mirrors_loneExpression ⟨ts, endLine, 0, []⟩
  unfold readExpression
  rw [hread]
  rcases loneExpression ⟨ts, endLine, 0, []⟩ with ⟨e | expression, s⟩
  · simp [forget, Parse.unlined, State.report, State.unlined]
  · rfl

end Grammar

end Lox
