import Lox.Proofs.Grammar.WellFormed

/-!
# Where faults and literals come from

Parsers notice faults at terminals of the list that they read: at the next one, or at one that was
read before.  No other terminal is ever blamed, however many faults were reported and declarations
dropped in front.  The literals of a tree are what tokens of the list denote, and `true`, the condition
of a `for` loop that has none.
-/

namespace Lox

namespace Expr

mutual

/-- Every literal in an expression has a property. -/
def EveryLiteral (P : Literal → Prop) : Expr → Prop
  | .literal value => P value
  | .grouping inner => EveryLiteral P inner
  | .unary _ right => EveryLiteral P right
  | .binary left _ right => EveryLiteral P left ∧ EveryLiteral P right
  | .logical left _ right => EveryLiteral P left ∧ EveryLiteral P right
  | .var _ _ => True
  | .assign _ _ value => EveryLiteral P value
  | .call callee _ arguments => EveryLiteral P callee ∧ EveryLiteralAll P arguments
  | .get object _ => EveryLiteral P object
  | .set object _ value => EveryLiteral P object ∧ EveryLiteral P value
  | .this _ _ => True
  | .super _ _ _ => True

/-- Every literal in a list of expressions has a property. -/
def EveryLiteralAll (P : Literal → Prop) : List Expr → Prop
  | [] => True
  | e :: rest => EveryLiteral P e ∧ EveryLiteralAll P rest

end

/-- Every literal in an expression that may be missing has a property. -/
def EveryLiteralOption (P : Literal → Prop) : Option Expr → Prop
  | none => True
  | some e => e.EveryLiteral P

end Expr

namespace Stmt

mutual

/-- Every literal in a statement has a property. -/
def EveryLiteral (P : Literal → Prop) : Stmt → Prop
  | .expression e => e.EveryLiteral P
  | .print e => e.EveryLiteral P
  | .var _ initializer => Expr.EveryLiteralOption P initializer
  | .block body => EveryLiteralAll P body
  | .ifThen condition thenBranch => condition.EveryLiteral P ∧ EveryLiteral P thenBranch
  | .ifElse condition thenBranch elseBranch =>
      condition.EveryLiteral P ∧ EveryLiteral P thenBranch ∧ EveryLiteral P elseBranch
  | .loop condition body => condition.EveryLiteral P ∧ EveryLiteral P body
  | .function decl => EveryLiteralFunction P decl
  | .ret _ value => Expr.EveryLiteralOption P value
  | .classDecl _ superclass methods =>
      Expr.EveryLiteralOption P superclass ∧ EveryLiteralFunctions P methods

/-- Every literal in a list of statements has a property. -/
def EveryLiteralAll (P : Literal → Prop) : List Stmt → Prop
  | [] => True
  | s :: rest => EveryLiteral P s ∧ EveryLiteralAll P rest

/-- Every literal in a function has a property. -/
def EveryLiteralFunction (P : Literal → Prop) : FunctionDecl → Prop
  | .mk _ _ body => EveryLiteralAll P body

/-- Every literal in a list of functions has a property. -/
def EveryLiteralFunctions (P : Literal → Prop) : List FunctionDecl → Prop
  | [] => True
  | f :: rest => EveryLiteralFunction P f ∧ EveryLiteralFunctions P rest

end

end Stmt

/-- A terminal of the list that ends on the given line. -/
def Terminal.Of (ts : List Token) (endLine : Nat) : Terminal → Prop
  | .token t => t ∈ ts
  | .eof line => line = endLine

namespace Parser

variable {α β : Type}
variable {ts : List Token}
variable {endLine : Nat}

/-- A state in the middle of a list: what is left is part of it, and so is what was blamed. -/
structure State.Of (ts : List Token) (endLine : Nat) (s : State) : Prop where
  rest : s.rest ⊆ ts
  ends : s.endLine = endLine
  errors : ∀ e ∈ s.errors, e.found.Of ts endLine

theorem State.Of.next
    {s : State}
    (h : s.Of ts endLine) :
    s.next.Of ts endLine := by
  unfold State.next
  split
  · exact h.ends
  · rename_i t rest hrest
    have hsubset := h.rest
    rw [hrest, List.cons_subset] at hsubset
    exact hsubset.1

theorem State.Of.report
    {s : State}
    {e : SyntaxError}
    (h : s.Of ts endLine)
    (he : e.found.Of ts endLine) :
    (s.report e).Of ts endLine where
  rest := h.rest
  ends := h.ends
  errors := by
    intro e' he'
    rcases List.mem_append.mp he' with he' | he'
    · exact h.errors e' he'
    · cases List.mem_singleton.mp he'
      exact he

/-- A parser that blames terminals of the list only, and gives only what is allowed. -/
def Cites (ts : List Token) (endLine : Nat) (p : Parser α) (R : α → Prop) : Prop :=
  ∀ s, s.Of ts endLine → (p s).2.Of ts endLine ∧
    (∀ a, (p s).1 = .ok a → R a) ∧ ∀ e, (p s).1 = .error e → e.found.Of ts endLine

namespace Cites

variable {p : Parser α}
variable {R : α → Prop}
variable {T : β → Prop}

/-- A parser that never fails. -/
theorem of_ok
    (h : ∀ s, s.Of ts endLine → ∃ a s', p s = (.ok a, s') ∧ s'.Of ts endLine ∧ R a) :
    Cites ts endLine p R := by
  intro s hs
  obtain ⟨a, s', hrun, hs', ha⟩ := h s hs
  rw [hrun]
  refine ⟨hs', ?_, ?_⟩
  · intro b hb
    cases hb
    exact ha
  · intro e he
    cases he

theorem pure
    {a : α}
    (h : R a) :
    Cites ts endLine (Pure.pure a) R :=
  of_ok fun s hs => ⟨a, s, rfl, hs, h⟩

theorem bind
    {f : α → Parser β}
    (hp : Cites ts endLine p R)
    (hf : ∀ a, R a → Cites ts endLine (f a) T) :
    Cites ts endLine (p >>= f) T := by
  intro s hs
  obtain ⟨hstate, hgives, hblames⟩ := hp s hs
  rw [bind_apply]
  rcases hrun : p s with ⟨result, s'⟩
  rw [hrun] at hstate hgives hblames
  cases result with
  | error e =>
      refine ⟨hstate, ?_, ?_⟩
      · intro b hb
        cases hb
      · intro e' he'
        cases he'
        exact hblames e rfl
  | ok a =>
      exact hf a (hgives a rfl) s' hstate

theorem fail
    {fault : SyntaxFault} :
    Cites ts endLine (Parser.fail fault) R := by
  intro s hs
  refine ⟨hs, ?_, ?_⟩
  · intro a ha
    cases ha
  · intro e he
    cases he
    exact hs.next

end Cites

/-- A parser that only looks. -/
theorem cites_look
    {p : Parser α}
    (h : ∀ s, ∃ a, p s = (.ok a, s)) :
    Cites ts endLine p fun _ => True := by
  refine .of_ok fun s hs => ?_
  obtain ⟨a, ha⟩ := h s
  exact ⟨a, s, ha, hs, trivial⟩

theorem cites_remaining : Cites ts endLine remaining fun _ => True :=
  cites_look fun _ => ⟨_, rfl⟩

theorem cites_atEnd : Cites ts endLine atEnd fun _ => True :=
  cites_look fun _ => ⟨_, rfl⟩

theorem cites_check
    (kind : Token.Kind) :
    Cites ts endLine (check kind) fun _ => True := by
  refine cites_look fun s => ?_
  unfold check
  split
  · exact ⟨_, rfl⟩
  · exact ⟨_, rfl⟩

theorem cites_report
    {found : Terminal}
    {fault : SyntaxFault}
    (hfound : found.Of ts endLine) :
    Cites ts endLine (report found fault) fun _ => True :=
  .of_ok fun _ hs => ⟨_, _, rfl, hs.report hfound, trivial⟩

theorem cites_reportNext
    {fault : SyntaxFault} :
    Cites ts endLine (reportNext fault) fun _ => True :=
  .of_ok fun _ hs => ⟨_, _, rfl, hs.report hs.next, trivial⟩

theorem cites_fresh : Cites ts endLine fresh fun _ => True :=
  .of_ok fun _ hs => ⟨_, _, rfl, ⟨hs.rest, hs.ends, hs.errors⟩, trivial⟩

/-- What is read is a token of the list. -/
theorem cites_acceptAny?
    (kinds : List Token.Kind) :
    Cites ts endLine (acceptAny? kinds) fun result => ∀ t, result = some t → t ∈ ts := by
  refine .of_ok fun s hs => ?_
  unfold acceptAny?
  split
  · exact ⟨none, s, rfl, hs, by simp⟩
  · rename_i t rest hrest
    have hsubset := hs.rest
    rw [hrest, List.cons_subset] at hsubset
    split
    · refine ⟨some t, _, rfl, ⟨hsubset.2, hs.ends, hs.errors⟩, ?_⟩
      intro t' ht'
      cases ht'
      exact hsubset.1
    · exact ⟨none, s, rfl, hs, by simp⟩

theorem cites_accept
    (kind : Token.Kind) :
    Cites ts endLine (accept kind) fun _ => True :=
  (cites_acceptAny? [kind]).bind fun _ _ => .pure trivial

theorem cites_expect
    (kind : Token.Kind)
    (fault : SyntaxFault) :
    Cites ts endLine (expect kind fault) fun t => t ∈ ts := by
  refine (cites_acceptAny? [kind]).bind fun result hresult => ?_
  cases result with
  | none =>
      exact .fail
  | some t =>
      exact .pure (hresult t rfl)

section Lists

variable {R : α → Prop}
variable {T : List α → Prop}
variable {item : Parser α}
variable (hnil : T [])
variable (hcons : ∀ {a as}, R a → T as → T (a :: as))
variable (hitem : Cites ts endLine item R)

include hnil hcons hitem

theorem cites_manyUntil
    {done : Parser Bool}
    (hdone : Cites ts endLine done fun _ => True)
    (count : Nat) :
    Cites ts endLine (manyUntil done item count) T := by
  induction count with
  | zero =>
      exact .pure hnil
  | succ count ih =>
      refine hdone.bind fun ended _ => ?_
      cases ended with
      | true =>
          exact .pure hnil
      | false =>
          exact hitem.bind fun first hfirst => ih.bind fun rest hrest =>
            .pure (hcons hfirst hrest)

theorem cites_commaSeparated
    {excess : SyntaxFault}
    (count before : Nat) :
    Cites ts endLine (commaSeparated item excess count before) T := by
  induction count generalizing before with
  | zero =>
      exact .pure hnil
  | succ count ih =>
      have hitems : Cites ts endLine
          (do
            let first ← item
            if ← accept (.punct .comma) then
              return first :: (← commaSeparated item excess count (before + 1))
            else
              return [first])
          T := by
        refine hitem.bind fun first hfirst => (cites_accept _).bind fun more _ => ?_
        cases more with
        | false =>
            exact .pure (hcons hfirst hnil)
        | true =>
            exact (ih (before + 1)).bind fun rest hrest => .pure (hcons hfirst hrest)
      unfold commaSeparated
      split
      · exact cites_reportNext.bind fun _ _ => hitems
      · exact hitems

theorem cites_parenthesized
    {excess : SyntaxFault} :
    Cites ts endLine (parenthesized item excess) T := by
  refine (cites_check _).bind fun closes _ => ?_
  cases closes with
  | true =>
      exact .pure hnil
  | false =>
      exact cites_remaining.bind fun count _ =>
        cites_commaSeparated hnil hcons hitem (count + 1) 0

end Lists

end Parser

namespace Grammar

open Lox.Parser

section Expressions

variable {ts : List Token}
variable {endLine : Nat}
variable {P : Literal → Prop}
variable (hliteral : ∀ t ∈ ts, P ((literalOf? t).getD .nil))
variable {ex : Parser Expr}
variable (hex : Cites ts endLine ex (Expr.EveryLiteral P))

theorem cites_leftAssociative
    {kinds : List Token.Kind}
    {join : Expr → Token → Expr → Expr}
    {operand : Parser Expr}
    (hjoin : ∀ {left operator right}, Expr.EveryLiteral P left → Expr.EveryLiteral P right →
      Expr.EveryLiteral P (join left operator right))
    (hoperand : Cites ts endLine operand (Expr.EveryLiteral P)) :
    Cites ts endLine (leftAssociative kinds join operand) (Expr.EveryLiteral P) := by
  have hloop : ∀ count left, Expr.EveryLiteral P left →
      Cites ts endLine (joinLeft kinds join operand count left) (Expr.EveryLiteral P) := by
    intro count
    induction count with
    | zero =>
        intro left hleft
        exact .pure hleft
    | succ count ih =>
        intro left hleft
        refine (cites_acceptAny? kinds).bind fun result _ => ?_
        cases result with
        | none =>
            exact .pure hleft
        | some operator =>
            exact hoperand.bind fun right hright => ih _ (hjoin hleft hright)
  exact hoperand.bind fun left hleft => cites_remaining.bind fun count _ => hloop count left hleft

theorem cites_superAccess
    (keyword : Token) :
    Cites ts endLine (superAccess keyword) (Expr.EveryLiteral P) :=
  (cites_expect _ _).bind fun _ _ => (cites_expect _ _).bind fun _ _ =>
    cites_fresh.bind fun _ _ => .pure trivial

include hex

theorem cites_grouped :
    Cites ts endLine (grouped ex) (Expr.EveryLiteral P) :=
  hex.bind fun _ hinner => (cites_expect _ _).bind fun _ _ => .pure hinner

theorem cites_finishCall
    {callee : Expr}
    (hcallee : callee.EveryLiteral P) :
    Cites ts endLine (finishCall ex callee) (Expr.EveryLiteral P) := by
  refine (cites_parenthesized (T := Expr.EveryLiteralAll P) trivial And.intro hex).bind
    fun arguments harguments => ?_
  exact (cites_expect _ _).bind fun _ _ => .pure ⟨hcallee, harguments⟩

theorem cites_suffixes
    (count : Nat)
    {e : Expr}
    (he : e.EveryLiteral P) :
    Cites ts endLine (suffixes ex count e) (Expr.EveryLiteral P) := by
  induction count generalizing e with
  | zero =>
      exact .pure he
  | succ count ih =>
      refine (cites_accept _).bind fun calls _ => ?_
      cases calls with
      | true =>
          exact (cites_finishCall hex he).bind fun called hcalled => ih hcalled
      | false =>
          refine (cites_accept _).bind fun gets _ => ?_
          cases gets with
          | true =>
              exact (cites_expect _ _).bind fun name _ => ih (e := .get e name) he
          | false =>
              exact .pure he

omit hex in
theorem cites_signs
    (count : Nat) :
    Cites ts endLine (signs count) fun _ => True := by
  induction count with
  | zero =>
      exact .pure trivial
  | succ count ih =>
      refine (cites_acceptAny? _).bind fun result _ => ?_
      cases result with
      | none =>
          exact .pure trivial
      | some sign =>
          exact ih.bind fun _ _ => .pure trivial

omit hex in
theorem everyLiteral_signed
    {e : Expr}
    (he : e.EveryLiteral P)
    (operators : List Token) :
    (operators.foldr Expr.unary e).EveryLiteral P := by
  induction operators with
  | nil =>
      exact he
  | cons sign operators ih =>
      exact ih

include hliteral

theorem cites_primary :
    Cites ts endLine (primary ex) (Expr.EveryLiteral P) := by
  refine (cites_acceptAny? _).bind fun result hresult => ?_
  cases result with
  | none =>
      exact .fail
  | some t =>
      dsimp only
      split
      · exact cites_fresh.bind fun _ _ => .pure trivial
      · exact cites_fresh.bind fun _ _ => .pure trivial
      · exact cites_superAccess t
      · exact cites_grouped hex
      · exact .pure (hliteral t (hresult t rfl))

theorem cites_call :
    Cites ts endLine (call ex) (Expr.EveryLiteral P) :=
  (cites_primary hliteral hex).bind fun _ he => cites_remaining.bind fun count _ =>
    cites_suffixes hex count he

theorem cites_unary :
    Cites ts endLine (unary ex) (Expr.EveryLiteral P) :=
  cites_remaining.bind fun count _ => (cites_signs count).bind fun operators _ =>
    (cites_call hliteral hex).bind fun _ hoperand =>
      .pure (everyLiteral_signed hoperand operators)

/-- All levels of operators, from the tightest to the loosest. -/
theorem cites_disjunction :
    Cites ts endLine (disjunction ex) (Expr.EveryLiteral P) := by
  have hfactor : Cites ts endLine (factor ex) (Expr.EveryLiteral P) :=
    cites_leftAssociative And.intro (cites_unary hliteral hex)
  have hterm : Cites ts endLine (term ex) (Expr.EveryLiteral P) :=
    cites_leftAssociative And.intro hfactor
  have hcomparison : Cites ts endLine (comparison ex) (Expr.EveryLiteral P) :=
    cites_leftAssociative And.intro hterm
  have hequality : Cites ts endLine (equality ex) (Expr.EveryLiteral P) :=
    cites_leftAssociative And.intro hcomparison
  have hconjunction : Cites ts endLine (conjunction ex) (Expr.EveryLiteral P) :=
    cites_leftAssociative And.intro hequality
  exact cites_leftAssociative And.intro hconjunction

omit hliteral hex in
/-- The only fault that is not noticed at the next terminal is noticed at a token that was read. -/
theorem cites_assignTo
    {target value : Expr}
    {equals : Token}
    (htarget : target.EveryLiteral P)
    (hequals : equals ∈ ts)
    (hvalue : value.EveryLiteral P) :
    Cites ts endLine (assignTo target equals value) (Expr.EveryLiteral P) := by
  unfold assignTo
  split
  · exact .pure hvalue
  · exact .pure ⟨htarget, hvalue⟩
  · have hfound : (Terminal.token equals).Of ts endLine := hequals
    exact (cites_report hfound).bind fun _ _ => .pure htarget

theorem cites_assignment :
    Cites ts endLine (assignment ex) (Expr.EveryLiteral P) := by
  refine (cites_disjunction hliteral hex).bind fun target htarget => ?_
  refine (cites_acceptAny? _).bind fun result hresult => ?_
  cases result with
  | none =>
      exact .pure htarget
  | some equals =>
      exact hex.bind fun value hvalue => cites_assignTo htarget (hresult equals rfl) hvalue

omit hex

theorem cites_expressionWithin
    (depth : Nat) :
    Cites ts endLine (expressionWithin depth) (Expr.EveryLiteral P) := by
  induction depth with
  | zero =>
      exact .fail
  | succ depth ih =>
      exact cites_assignment hliteral ih

theorem cites_expression :
    Cites ts endLine expression (Expr.EveryLiteral P) :=
  cites_remaining.bind fun count _ => cites_expressionWithin hliteral (count + 1)

theorem cites_optionalExpression
    (kind : Token.Kind) :
    Cites ts endLine (optionalExpression kind) (Expr.EveryLiteralOption P) := by
  refine (cites_check _).bind fun missing _ => ?_
  cases missing with
  | true =>
      exact .pure trivial
  | false =>
      exact (cites_expression hliteral).bind fun _ he => .pure he

end Expressions

section Statements

variable {ts : List Token}
variable {endLine : Nat}
variable {P : Literal → Prop}
variable (hliteral : ∀ t ∈ ts, P ((literalOf? t).getD .nil))
variable (htrue : P (.bool true))
variable {nested : Parser Stmt}
variable {inner : Parser (Option Stmt)}
variable (hnested : Cites ts endLine nested (Stmt.EveryLiteral P))
variable (hinner : Cites ts endLine inner fun s => Stmt.EveryLiteralAll P s.toList)

/-- A failure is reported where it was noticed, and only tokens are dropped. -/
theorem cites_recovering
    {p : Parser Stmt}
    (hp : Cites ts endLine p (Stmt.EveryLiteral P)) :
    Cites ts endLine (recovering p) fun s => Stmt.EveryLiteralAll P s.toList := by
  refine .of_ok fun s hs => ?_
  obtain ⟨hstate, hgives, hblames⟩ := hp s hs
  unfold recovering
  rcases hrun : p s with ⟨result, s'⟩
  rw [hrun] at hstate hgives hblames
  cases result with
  | ok a =>
      exact ⟨some a, s', rfl, hstate, hgives a rfl, trivial⟩
  | error e =>
      have hreported := hstate.report (hblames e rfl)
      exact ⟨none, _, rfl, ⟨List.Subset.trans (dropFailed_subset _) hstate.rest, hreported.ends,
        hreported.errors⟩, trivial⟩

theorem cites_bodyEnds : Cites ts endLine bodyEnds fun _ => True := by
  refine cites_atEnd.bind fun ended _ => ?_
  cases ended with
  | true =>
      exact .pure trivial
  | false =>
      exact cites_check _

include hinner in
theorem cites_declarations
    {done : Parser Bool}
    (hdone : Cites ts endLine done fun _ => True)
    (count : Nat) :
    Cites ts endLine (manyUntil done inner count) fun body =>
      Stmt.EveryLiteralAll P (body.filterMap id) := by
  refine cites_manyUntil trivial ?_ hinner hdone count
  intro first rest hfirst hrest
  cases first with
  | none =>
      exact hrest
  | some s =>
      exact ⟨hfirst.1, hrest⟩

include hinner in
theorem cites_block :
    Cites ts endLine (block inner) (Stmt.EveryLiteralAll P) :=
  cites_remaining.bind fun count _ => (cites_declarations hinner cites_bodyEnds count).bind
    fun _ hbody => (cites_expect _ _).bind fun _ _ => .pure hbody

include hinner in
theorem cites_function
    (sort : FunctionSort) :
    Cites ts endLine (function inner sort) (Stmt.EveryLiteralFunction P) := by
  refine (cites_expect _ _).bind fun _ _ => (cites_expect _ _).bind fun _ _ => ?_
  refine (cites_parenthesized (T := fun _ => True) trivial (fun _ _ => trivial)
    (cites_expect _ _)).bind fun _ _ => ?_
  refine (cites_expect _ _).bind fun _ _ => (cites_expect _ _).bind fun _ _ => ?_
  exact (cites_block hinner).bind fun _ hbody => .pure hbody

theorem cites_superclass : Cites ts endLine superclass (Expr.EveryLiteralOption P) := by
  refine (cites_accept _).bind fun derived _ => ?_
  cases derived with
  | false =>
      exact .pure trivial
  | true =>
      exact (cites_expect _ _).bind fun _ _ => cites_fresh.bind fun _ _ => .pure trivial

include hinner in
theorem cites_classDeclaration :
    Cites ts endLine (classDeclaration inner) (Stmt.EveryLiteral P) := by
  refine (cites_expect _ _).bind fun _ _ => (cites_superclass (P := P)).bind fun _ hparent => ?_
  refine (cites_expect _ _).bind fun _ _ => cites_remaining.bind fun count _ => ?_
  refine (cites_manyUntil (T := Stmt.EveryLiteralFunctions P) trivial And.intro
    (cites_function hinner .method) cites_bodyEnds count).bind fun _ hmethods => ?_
  exact (cites_expect _ _).bind fun _ _ => .pure ⟨hparent, hmethods⟩

include hliteral

theorem cites_variableDeclaration :
    Cites ts endLine variableDeclaration (Stmt.EveryLiteral P) := by
  refine (cites_expect _ _).bind fun name _ => (cites_accept _).bind fun initialized _ => ?_
  cases initialized with
  | false =>
      exact (cites_expect _ _).bind fun _ _ => .pure trivial
  | true =>
      exact (cites_expression hliteral).bind fun _ he =>
        (cites_expect _ _).bind fun _ _ => .pure he

theorem cites_expressionStatement :
    Cites ts endLine expressionStatement (Stmt.EveryLiteral P) :=
  (cites_expression hliteral).bind fun _ he => (cites_expect _ _).bind fun _ _ => .pure he

theorem cites_printStatement :
    Cites ts endLine printStatement (Stmt.EveryLiteral P) :=
  (cites_expression hliteral).bind fun _ he => (cites_expect _ _).bind fun _ _ => .pure he

theorem cites_returnStatement
    (keyword : Token) :
    Cites ts endLine (returnStatement keyword) (Stmt.EveryLiteral P) :=
  (cites_optionalExpression hliteral _).bind fun _ hvalue =>
    (cites_expect _ _).bind fun _ _ => .pure hvalue

theorem cites_forInitializer :
    Cites ts endLine forInitializer fun first => Stmt.EveryLiteralAll P first.toList := by
  refine (cites_accept _).bind fun missing _ => ?_
  cases missing with
  | true =>
      exact .pure trivial
  | false =>
      refine (cites_accept _).bind fun declared _ => ?_
      cases declared with
      | true =>
          exact (cites_variableDeclaration hliteral).bind fun _ hs => .pure ⟨hs, trivial⟩
      | false =>
          exact (cites_expressionStatement hliteral).bind fun _ hs => .pure ⟨hs, trivial⟩

omit hliteral in
include htrue in
/-- A `for` loop adds no literal but `true`. -/
theorem everyLiteral_forLoop
    {first : Option Stmt}
    {condition increment : Option Expr}
    {body : Stmt}
    (hfirst : Stmt.EveryLiteralAll P first.toList)
    (hcondition : Expr.EveryLiteralOption P condition)
    (hincrement : Expr.EveryLiteralOption P increment)
    (hbody : body.EveryLiteral P) :
    (forLoop first condition increment body).EveryLiteral P := by
  have hcondition' : (condition.getD (.literal (.bool true))).EveryLiteral P := by
    cases condition with
    | none =>
        exact htrue
    | some e =>
        exact hcondition
  have hround : (roundOf increment body).EveryLiteral P := by
    cases increment with
    | none =>
        exact hbody
    | some e =>
        exact ⟨hbody, hincrement, trivial⟩
  cases first with
  | none =>
      exact ⟨hcondition', hround⟩
  | some s =>
      exact ⟨hfirst.1, ⟨hcondition', hround⟩, trivial⟩

include hnested

theorem cites_ifStatement :
    Cites ts endLine (ifStatement nested) (Stmt.EveryLiteral P) := by
  refine (cites_expect _ _).bind fun _ _ => (cites_expression hliteral).bind fun _ hcondition => ?_
  refine (cites_expect _ _).bind fun _ _ => hnested.bind fun _ hthen => ?_
  refine (cites_accept _).bind fun other _ => ?_
  cases other with
  | false =>
      exact .pure ⟨hcondition, hthen⟩
  | true =>
      exact hnested.bind fun _ helse => .pure ⟨hcondition, hthen, helse⟩

theorem cites_whileStatement :
    Cites ts endLine (whileStatement nested) (Stmt.EveryLiteral P) :=
  (cites_expect _ _).bind fun _ _ => (cites_expression hliteral).bind fun _ hcondition =>
    (cites_expect _ _).bind fun _ _ => hnested.bind fun _ hbody => .pure ⟨hcondition, hbody⟩

include htrue

theorem cites_forStatement :
    Cites ts endLine (forStatement nested) (Stmt.EveryLiteral P) := by
  refine (cites_expect _ _).bind fun _ _ => (cites_forInitializer hliteral).bind fun _ hfirst => ?_
  refine (cites_optionalExpression hliteral _).bind fun _ hcondition => ?_
  refine (cites_expect _ _).bind fun _ _ => ?_
  refine (cites_optionalExpression hliteral _).bind fun _ hincrement => ?_
  refine (cites_expect _ _).bind fun _ _ => hnested.bind fun _ hbody => ?_
  exact .pure (everyLiteral_forLoop htrue hfirst hcondition hincrement hbody)

include hinner

theorem cites_statement :
    Cites ts endLine (statement nested inner) (Stmt.EveryLiteral P) := by
  refine (cites_acceptAny? _).bind fun result _ => ?_
  cases result with
  | none =>
      exact cites_expressionStatement hliteral
  | some t =>
      dsimp only
      split
      · exact cites_forStatement hliteral htrue hnested
      · exact cites_ifStatement hliteral hnested
      · exact cites_whileStatement hliteral hnested
      · exact cites_returnStatement hliteral t
      · exact (cites_block hinner).bind fun _ hbody => .pure hbody
      · exact cites_printStatement hliteral

theorem cites_declaration :
    Cites ts endLine (declaration nested inner) fun s => Stmt.EveryLiteralAll P s.toList := by
  refine cites_recovering ?_
  refine (cites_accept _).bind fun isClass _ => ?_
  cases isClass with
  | true =>
      exact cites_classDeclaration hinner
  | false =>
      refine (cites_accept _).bind fun isFunction _ => ?_
      cases isFunction with
      | true =>
          exact (cites_function hinner .function).bind fun _ hdecl => .pure hdecl
      | false =>
          refine (cites_accept _).bind fun isVariable _ => ?_
          cases isVariable with
          | true =>
              exact cites_variableDeclaration hliteral
          | false =>
              exact cites_statement hliteral htrue hnested hinner

omit hnested hinner

theorem cites_within
    (depth : Nat) :
    Cites ts endLine (statementWithin depth) (Stmt.EveryLiteral P) ∧
      Cites ts endLine (declarationWithin depth) fun s => Stmt.EveryLiteralAll P s.toList := by
  induction depth with
  | zero =>
      exact ⟨.fail, cites_recovering .fail⟩
  | succ depth ih =>
      exact ⟨cites_statement hliteral htrue ih.1 ih.2, cites_declaration hliteral htrue ih.1 ih.2⟩

/-- Whatever is read as a program, faults are noticed at terminals of the list, and the literals are
what its tokens denote. -/
theorem readProgram_cites
    (endLine : Nat) :
    (∀ e ∈ (Grammar.readProgram ts endLine).errors, e.found.Of ts endLine) ∧
      Stmt.EveryLiteralAll P (Grammar.readProgram ts endLine).result := by
  have hprogram : Cites ts endLine program (Stmt.EveryLiteralAll P) :=
    cites_remaining.bind fun count _ => (cites_declarations
      (cites_within hliteral htrue (count + 1)).2 cites_atEnd count).bind fun _ hbody => .pure hbody
  obtain ⟨hstate, hgives, hblames⟩ :=
    hprogram ⟨ts, endLine, 0, []⟩ ⟨List.Subset.refl ts, rfl, by simp⟩
  unfold Grammar.readProgram
  rcases hrun : program ⟨ts, endLine, 0, []⟩ with ⟨result, s⟩
  rw [hrun] at hstate hgives hblames
  cases result with
  | ok statements =>
      exact ⟨hstate.errors, hgives statements rfl⟩
  | error e =>
      exact ⟨(hstate.report (hblames e rfl)).errors, trivial⟩

end Statements

/-- Whatever is read as an expression, faults are noticed at terminals of the list, and the literals are
what its tokens denote. -/
theorem readExpression_cites
    {ts : List Token}
    {P : Literal → Prop}
    (hliteral : ∀ t ∈ ts, P ((literalOf? t).getD .nil))
    (endLine : Nat) :
    (∀ e ∈ (Grammar.readExpression ts endLine).errors, e.found.Of ts endLine) ∧
      Expr.EveryLiteralOption P (Grammar.readExpression ts endLine).result := by
  have hexpression : Cites ts endLine loneExpression (Expr.EveryLiteral P) := by
    refine (cites_expression hliteral).bind fun e he => cites_atEnd.bind fun ended _ => ?_
    cases ended with
    | true =>
        exact .pure he
    | false =>
        exact .fail
  obtain ⟨hstate, hgives, hblames⟩ :=
    hexpression ⟨ts, endLine, 0, []⟩ ⟨List.Subset.refl ts, rfl, by simp⟩
  unfold Grammar.readExpression
  rcases hrun : loneExpression ⟨ts, endLine, 0, []⟩ with ⟨result, s⟩
  rw [hrun] at hstate hgives hblames
  cases result with
  | ok e =>
      exact ⟨hstate.errors, hgives e rfl⟩
  | error e =>
      exact ⟨(hstate.report (hblames e rfl)).errors, trivial⟩

/-- What is known of every expression that is read. -/
theorem readExpression_exprFits
    {ts : List Token}
    {endLine : Nat}
    {e : Expr}
    (h : (Grammar.readExpression ts endLine).result = some e) :
    ExprFits ts 0 e (Grammar.readExpression ts endLine).idCount := by
  have hexpression : Yields ts loneExpression (ExprFits ts) := by
    refine yields_expression.bind fun e => yields_atEnd.bind fun ended => ?_
    cases ended with
    | true =>
        refine .pure ?_
        rintro k i rfl j he
        exact he
    | false =>
        exact .fail
  obtain ⟨-, -, hgives⟩ := hexpression ⟨ts, endLine, 0, []⟩ (List.Subset.refl ts)
  unfold Grammar.readExpression at h ⊢
  rcases hrun : loneExpression ⟨ts, endLine, 0, []⟩ with ⟨result, s⟩
  rw [hrun] at hgives h
  cases result with
  | ok e' =>
      cases h
      exact hgives e rfl
  | error fault =>
      cases h

/-- An expression that is read is shaped and keeps only tokens of the list. -/
theorem readExpression_fits
    {ts : List Token}
    {endLine : Nat}
    {e : Expr}
    (h : (Grammar.readExpression ts endLine).result = some e) :
    e.Shaped ∧ ∀ t ∈ e.tokens, t ∈ ts :=
  ⟨(readExpression_exprFits h).shaped, (readExpression_exprFits h).kept⟩

end Grammar

end Lox
