import Lox.Proofs.Grammar.AcceptExpression
import Lox.Proofs.Grammar.ReadStatement

/-!
# Accepted programs have readings

What the parsers for statements and declarations take without reporting anything has the tree they
give as its reading.  With the results on reading, a token list is read without faults exactly when
it has a reading, and the tree is that of the reading.
-/

namespace Lox
namespace Grammar

open Lox.Parser

theorem ensures_recovering
    {p : Parser Stmt}
    {R : State → Stmt → State → Prop}
    (h : Ensures p R) :
    Ensures (recovering p) fun s result s' => ∃ a, result = some a ∧ R s a s' := by
  intro s
  obtain ⟨hkept, hgives⟩ := h s
  unfold recovering
  cases hrun : p s with
  | mk outcome s' =>
      rw [hrun] at hkept
      cases outcome with
      | ok a =>
          refine ⟨hkept, ?_⟩
          intro result s'' heq hclean
          cases heq
          exact ⟨a, rfl, hgives a s' hrun hclean⟩
      | error e =>
          refine ⟨hkept.trans (List.prefix_append _ _), ?_⟩
          intro result s'' heq hclean
          cases heq
          -- the caught failure was reported
          have hlength := hkept.length_le
          rw [← hclean] at hlength
          simp only [State.report, List.length_append, List.length_singleton] at hlength
          omega

theorem ensures_bodyEnds :
    Ensures bodyEnds fun s _ s' => s' = s := by
  refine ensures_atEnd.bind fun ended => ?_
  cases ended with
  | true =>
      refine .pure ?_
      rintro s' s ⟨rfl, -⟩
      rfl
  | false =>
      refine (ensures_check _).mono ?_
      rintro s1 closes s2 rfl s ⟨rfl, -⟩
      rfl

theorem ensures_optionalExpression
    (kind : Token.Kind) :
    Ensures (optionalExpression kind) (Reads OptionReads) := by
  refine (ensures_check kind).bind fun absent => ?_
  cases absent with
  | true =>
      refine .pure ?_
      rintro s' s rfl
      exact ⟨[], rfl, .none _⟩
  | false =>
      refine ensures_expression.bind fun e => .pure ?_
      rintro s2 s1 ⟨ts, hts, he⟩ s rfl
      exact ⟨ts, hts, .some he⟩

theorem CommaReads.names
    {i j : Nat}
    {ts names : List Token}
    (h : CommaReads (fun i ts name j => ts = [name] ∧ name.kind = .identifier ∧ j = i)
      i ts names j) :
    NamesRead ts names ∧ j = i := by
  induction h with
  | one hfirst =>
      obtain ⟨rfl, hkind, rfl⟩ := hfirst
      exact ⟨.one _ hkind, rfl⟩
  | more comma hfirst hcomma _ ih =>
      obtain ⟨rfl, hkind, rfl⟩ := hfirst
      exact ⟨.more _ comma hkind hcomma ih.1, ih.2⟩

theorem ensures_params
    (excess : SyntaxFault) :
    Ensures (parenthesized (expect .identifier .parameterName) excess)
      (Reads fun i ts params j => ParamsRead ts params ∧ j = i) := by
  have hname : Ensures (expect .identifier .parameterName)
      (Reads fun i ts name j => ts = [name] ∧ name.kind = .identifier ∧ j = i) := by
    refine (ensures_expect _ _).mono ?_
    rintro s name s' ⟨hmoved, hkind⟩
    exact ⟨[name], hmoved.rest, rfl, hkind, hmoved.nextId⟩
  refine (ensures_parenthesized hname).mono ?_
  rintro s params s' ⟨ts, hts, hlist⟩
  refine ⟨ts, hts, ?_⟩
  generalize s.nextId = i at hlist
  generalize s'.nextId = j at hlist
  cases hlist with
  | none =>
      exact ⟨.none, rfl⟩
  | some hnames hlimit =>
      exact ⟨.some hnames.names.1 hlimit, hnames.names.2⟩

section Nested

variable {nested : Parser Stmt}
variable {inner : Parser (Option Stmt)}

/-- A declaration that was read without a fault. -/
def DeclarationReads (i : Nat) (ts : List Token) (result : Option Stmt) (j : Nat) : Prop :=
  ∃ s, result = some s ∧ DeclReads i ts s j

/-- A statement that was read without a fault; an `else` that could belong to it does not follow. -/
def StatementTaken (s : State) (a : Stmt) (s' : State) : Prop :=
  ∃ isOpen, Reads (StmtReads isOpen) s a s' ∧ (isOpen = true → Avoids [.keyword .else_] s'.rest)

theorem SeqReads.declarations
    {i j : Nat}
    {ts : List Token}
    {results : List (Option Stmt)}
    (h : SeqReads DeclarationReads i ts results j) :
    DeclsRead i ts (results.filterMap id) j := by
  induction h with
  | nil i =>
      exact .nil i
  | cons hfirst _ ih =>
      obtain ⟨s, rfl, hdecl⟩ := hfirst
      exact .cons hdecl ih

theorem SeqReads.methods
    {i j : Nat}
    {ts : List Token}
    {methods : List FunctionDecl}
    (h : SeqReads FunctionReads i ts methods j) :
    MethodsRead i ts methods j := by
  induction h with
  | nil i =>
      exact .nil i
  | cons hfirst _ ih =>
      exact .cons hfirst ih

theorem DeclarationReads.ne_nil
    {i j : Nat}
    {ts : List Token}
    {result : Option Stmt}
    (h : DeclarationReads i ts result j) :
    ts ≠ [] := by
  obtain ⟨s, rfl, hdecl⟩ := h
  obtain ⟨t, tail, rfl, -⟩ := hdecl.starts
  exact List.cons_ne_nil t tail

theorem ensures_body
    {α : Type}
    {R : Nat → List Token → α → Nat → Prop}
    {item : Parser α}
    (hitem : Ensures item (Reads R))
    (htakes : ∀ {i ts a j}, R i ts a j → ts ≠ [])
    (count : Nat) :
    Ensures (manyUntil bodyEnds item count) (Reads (SeqReads R)) := by
  have hdone : Ensures bodyEnds fun s b s' => s' = s ∧ (b = true → True) :=
    ensures_bodyEnds.mono fun s b s' hsame => ⟨hsame, fun _ => trivial⟩
  refine (ensures_manyUntil (E := fun _ => True) trivial hdone hitem htakes count).mono ?_
  intro s as s' h
  exact h.1

theorem ensures_block
    (hinner : Ensures inner (Reads DeclarationReads)) :
    Ensures (block inner) fun s body s' =>
      ∀ left, left.kind = .punct .leftBrace →
        Reads (fun i ts body j => BlockReads i (left :: ts) body j) s body s' := by
  refine ensures_remaining.bind fun count => ?_
  refine (ensures_body hinner DeclarationReads.ne_nil count).bind fun results => ?_
  refine (ensures_expect _ _).bind fun right => .pure ?_
  rintro s3 s2 ⟨hmoved, hright⟩ s1 ⟨ts, hts, hbody⟩ s ⟨rfl, -⟩ left hleft
  refine ⟨ts ++ [right], by simp [hts, hmoved.rest], ?_⟩
  rw [hmoved.nextId]
  exact .mk left right hleft hbody.declarations hright

theorem ensures_function
    (hinner : Ensures inner (Reads DeclarationReads))
    (sort : FunctionSort) :
    Ensures (function inner sort) (Reads FunctionReads) := by
  refine (ensures_expect _ _).bind fun name => (ensures_expect _ _).bind fun left => ?_
  refine (ensures_params _).bind fun params => (ensures_expect _ _).bind fun right => ?_
  refine (ensures_expect _ _).bind fun brace => (ensures_block hinner).bind fun body => .pure ?_
  rintro s6 s5 hblock s4 ⟨hbrace, hbraceKind⟩ s3 ⟨hright, hrightKind⟩ s2
    ⟨ps, hps, hparams, hsame⟩ s1 ⟨hleft, hleftKind⟩ s ⟨hname, hnameKind⟩
  obtain ⟨ts, hts, hbody⟩ := hblock brace hbraceKind
  refine ⟨name :: left :: (ps ++ right :: brace :: ts), ?_, ?_⟩
  · simp [hname.rest, hleft.rest, hps, hright.rest, hbrace.rest, hts]
  · rw [hbrace.nextId, hright.nextId, hsame, hleft.nextId, hname.nextId] at hbody
    exact .mk name left right hnameKind hleftKind hparams hrightKind hbody

theorem ensures_superclass : Ensures superclass (Reads ParentReads) := by
  refine (ensures_accept _).bind fun derives => ?_
  cases derives with
  | true =>
      refine (ensures_expect _ _).bind fun name => ensures_fresh.bind fun id => .pure ?_
      rintro s3 s2 ⟨rfl, hnext, hrest⟩ s1 ⟨hname, hkind⟩ s hless
      obtain ⟨less, hmoved, hless⟩ : ∃ t, Moved s t s1 ∧ t.kind = .punct .less := by
        simpa using hless
      refine ⟨[less, name], by simp [hmoved.rest, hname.rest, hrest], ?_⟩
      rw [hnext, hname.nextId, hmoved.nextId]
      exact .some _ less name hless hkind
  | false =>
      refine .pure ?_
      intro s' s hless
      obtain ⟨rfl, -⟩ : s' = s ∧ _ := by simpa using hless
      exact ⟨[], rfl, .none _⟩

theorem FunctionReads.ne_nil
    {i j : Nat}
    {ts : List Token}
    {decl : FunctionDecl}
    (h : FunctionReads i ts decl j) :
    ts ≠ [] := by
  cases h
  exact List.cons_ne_nil _ _

theorem ensures_classDeclaration
    (hinner : Ensures inner (Reads DeclarationReads)) :
    Ensures (classDeclaration inner) fun s a s' =>
      ∀ keyword, keyword.kind = .keyword .class_ →
        Reads (fun i ts a j => DeclReads i (keyword :: ts) a j) s a s' := by
  refine (ensures_expect _ _).bind fun name => ensures_superclass.bind fun parent => ?_
  refine (ensures_expect _ _).bind fun left => ensures_remaining.bind fun count => ?_
  refine (ensures_body (ensures_function hinner .method) FunctionReads.ne_nil count).bind
    fun methods => (ensures_expect _ _).bind fun right => .pure ?_
  rintro s6 s5 ⟨hright, hrightKind⟩ s4 ⟨ms, hms, hmethods⟩ s3 ⟨rfl, -⟩ s2 ⟨hleft, hleftKind⟩ s1
    ⟨ps, hps, hparent⟩ s ⟨hname, hnameKind⟩ keyword hkeyword
  refine ⟨name :: (ps ++ left :: (ms ++ [right])), ?_, ?_⟩
  · simp [hname.rest, hps, hleft.rest, hms, hright.rest]
  · rw [hname.nextId] at hparent
    rw [hleft.nextId] at hmethods
    rw [hright.nextId]
    exact .classDecl keyword name left right hkeyword hnameKind hparent hleftKind
      hmethods.methods hrightKind

theorem ensures_variableDeclaration :
    Ensures variableDeclaration fun s a s' =>
      ∀ keyword, keyword.kind = .keyword .var →
        Reads (fun i ts a j => VariableReads i (keyword :: ts) a j) s a s' := by
  refine (ensures_expect _ _).bind fun name => (ensures_accept _).bind fun assigned => ?_
  cases assigned with
  | true =>
      refine ensures_expression.bind fun e => ?_
      refine (ensures_expect _ _).bind fun semicolon => .pure ?_
      rintro s4 s3 ⟨hend, hsemicolon⟩ s2 ⟨ts, hts, he⟩ s1 hequals s ⟨hname, hkind⟩ keyword hkeyword
      obtain ⟨equals, hmoved, hequals⟩ : ∃ t, Moved s1 t s2 ∧ t.kind = .punct .equal := by
        simpa using hequals
      refine ⟨name :: equals :: (ts ++ [semicolon]), ?_, ?_⟩
      · simp [hname.rest, hmoved.rest, hts, hend.rest]
      · rw [hmoved.nextId, hname.nextId] at he
        rw [hend.nextId]
        exact .initialized keyword name equals semicolon hkeyword hkind hequals he hsemicolon
  | false =>
      refine (ensures_expect _ _).bind fun semicolon => .pure ?_
      intro s3 s2 hsemicolon s1 hequals s hname keyword hkeyword
      obtain ⟨rfl, -⟩ : s2 = s1 ∧ _ := by simpa using hequals
      refine ⟨[name, semicolon], by simp [hname.1.rest, hsemicolon.1.rest], ?_⟩
      rw [hsemicolon.1.nextId, hname.1.nextId]
      exact .plain _ keyword name semicolon hkeyword hname.2 hsemicolon.2

theorem ensures_expressionStatement :
    Ensures expressionStatement (Reads ExpressionStatementReads) := by
  refine ensures_expression.bind fun e => (ensures_expect _ _).bind fun semicolon => .pure ?_
  rintro s2 s1 ⟨hend, hsemicolon⟩ s ⟨ts, hts, he⟩
  refine ⟨ts ++ [semicolon], by simp [hts, hend.rest], ?_⟩
  rw [hend.nextId]
  exact .mk semicolon he hsemicolon

theorem ensures_forInitializer : Ensures forInitializer (Reads FirstReads) := by
  refine (ensures_accept _).bind fun absent => ?_
  cases absent with
  | true =>
      refine .pure ?_
      intro s1 s hsemicolon
      obtain ⟨semicolon, hmoved, hsemicolon⟩ :
          ∃ t, Moved s t s1 ∧ t.kind = .punct .semicolon := by
        simpa using hsemicolon
      refine ⟨[semicolon], by simp [hmoved.rest], ?_⟩
      rw [hmoved.nextId]
      exact .none _ semicolon hsemicolon
  | false =>
      refine (ensures_accept _).bind fun declares => ?_
      cases declares with
      | true =>
          refine ensures_variableDeclaration.bind fun first => .pure ?_
          intro s3 s2 hfirst s1 hvar s habsent
          obtain ⟨rfl, -⟩ : s1 = s ∧ _ := by simpa using habsent
          obtain ⟨keyword, hmoved, hkeyword⟩ : ∃ t, Moved s1 t s2 ∧ t.kind = .keyword .var := by
            simpa using hvar
          obtain ⟨ts, hts, hreads⟩ := hfirst keyword hkeyword
          rw [hmoved.nextId] at hreads
          exact ⟨keyword :: ts, by simp [hmoved.rest, hts], .var hreads⟩
      | false =>
          refine ensures_expressionStatement.bind fun first => .pure ?_
          rintro s3 s2 ⟨ts, hts, hreads⟩ s1 hvar s habsent
          obtain ⟨rfl, -⟩ : s2 = s1 ∧ _ := by simpa using hvar
          obtain ⟨rfl, -⟩ : s2 = s ∧ _ := by simpa using habsent
          exact ⟨ts, hts, .expression hreads⟩

/-- A statement of which the first token, its keyword, was read before. -/
def StatementFinished (keyword : Token) (s : State) (a : Stmt) (s' : State) : Prop :=
  ∃ isOpen, Reads (fun i ts a j => StmtReads isOpen i (keyword :: ts) a j) s a s' ∧
    (isOpen = true → Avoids [.keyword .else_] s'.rest)

theorem ensures_forStatement
    (hnested : Ensures nested StatementTaken) :
    Ensures (forStatement nested) fun s a s' =>
      ∀ keyword, keyword.kind = .keyword .for_ → StatementFinished keyword s a s' := by
  refine (ensures_expect _ _).bind fun left => ensures_forInitializer.bind fun first => ?_
  refine (ensures_optionalExpression _).bind fun condition => ?_
  refine (ensures_expect _ _).bind fun semicolon => ?_
  refine (ensures_optionalExpression _).bind fun increment => ?_
  refine (ensures_expect _ _).bind fun right => hnested.bind fun body => .pure ?_
  rintro s7 s6 ⟨isOpen, ⟨ts, hts, hbody⟩, hend⟩ s5 ⟨hright, hrightKind⟩ s4 ⟨ns, hns, hincrement⟩
    s3 ⟨hsemicolon, hsemicolonKind⟩ s2 ⟨cs, hcs, hcondition⟩ s1 ⟨fs, hfs, hfirst⟩ s
    ⟨hleft, hleftKind⟩ keyword hkeyword
  refine ⟨isOpen, ⟨left :: (fs ++ (cs ++ semicolon :: (ns ++ right :: ts))), ?_, ?_⟩, hend⟩
  · simp [hleft.rest, hfs, hcs, hsemicolon.rest, hns, hright.rest, hts]
  · rw [hleft.nextId] at hfirst
    rw [hsemicolon.nextId] at hincrement
    rw [hright.nextId] at hbody
    exact .forLoop keyword left semicolon right hkeyword hleftKind hfirst hcondition
      hsemicolonKind hincrement hrightKind hbody

theorem ensures_ifStatement
    (hnested : Ensures nested StatementTaken) :
    Ensures (ifStatement nested) fun s a s' =>
      ∀ keyword, keyword.kind = .keyword .if_ → StatementFinished keyword s a s' := by
  refine (ensures_expect _ _).bind fun left => ensures_expression.bind fun condition => ?_
  refine (ensures_expect _ _).bind fun right => hnested.bind fun thenBranch => ?_
  refine (ensures_accept _).bind fun alternative => ?_
  cases alternative with
  | true =>
      refine hnested.bind fun elseBranch => .pure ?_
      rintro s6 s5 ⟨isOpen, ⟨ys, hys, hsecond⟩, hend⟩ s4 hother s3
        ⟨thenOpen, ⟨xs, hxs, hfirst⟩, hclosed⟩ s2 ⟨hright, hrightKind⟩ s1 ⟨cs, hcs, hcondition⟩ s
        ⟨hleft, hleftKind⟩ keyword hkeyword
      obtain ⟨other, hmoved, hother⟩ : ∃ t, Moved s4 t s5 ∧ t.kind = .keyword .else_ := by
        simpa using hother
      -- an open branch would have taken the `else` itself
      have hthen : thenOpen = false := by
        cases thenOpen with
        | false =>
            rfl
        | true =>
            have havoids := hclosed rfl other s5.rest hmoved.rest
            simp [hother] at havoids
      subst hthen
      refine ⟨isOpen, ⟨left :: (cs ++ right :: (xs ++ other :: ys)), ?_, ?_⟩, hend⟩
      · simp [hleft.rest, hcs, hright.rest, hxs, hmoved.rest, hys]
      · rw [hleft.nextId] at hcondition
        rw [hright.nextId] at hfirst
        rw [hmoved.nextId] at hsecond
        exact .ifElse keyword left right other hkeyword hleftKind hcondition hrightKind hfirst
          hother hsecond
  | false =>
      refine .pure ?_
      rintro s5 s4 hother s3 ⟨thenOpen, ⟨xs, hxs, hfirst⟩, -⟩ s2 ⟨hright, hrightKind⟩ s1
        ⟨cs, hcs, hcondition⟩ s ⟨hleft, hleftKind⟩ keyword hkeyword
      obtain ⟨rfl, havoids⟩ : s5 = s4 ∧ Avoids [.keyword .else_] s4.rest := by
        simpa using hother
      refine ⟨true, ⟨left :: (cs ++ right :: xs), ?_, ?_⟩, fun _ => havoids⟩
      · simp [hleft.rest, hcs, hright.rest, hxs]
      · rw [hleft.nextId] at hcondition
        rw [hright.nextId] at hfirst
        exact .ifThen keyword left right hkeyword hleftKind hcondition hrightKind hfirst

theorem ensures_whileStatement
    (hnested : Ensures nested StatementTaken) :
    Ensures (whileStatement nested) fun s a s' =>
      ∀ keyword, keyword.kind = .keyword .while_ → StatementFinished keyword s a s' := by
  refine (ensures_expect _ _).bind fun left => ensures_expression.bind fun condition => ?_
  refine (ensures_expect _ _).bind fun right => hnested.bind fun body => .pure ?_
  rintro s4 s3 ⟨isOpen, ⟨ts, hts, hbody⟩, hend⟩ s2 ⟨hright, hrightKind⟩ s1 ⟨cs, hcs, hcondition⟩ s
    ⟨hleft, hleftKind⟩ keyword hkeyword
  refine ⟨isOpen, ⟨left :: (cs ++ right :: ts), ?_, ?_⟩, hend⟩
  · simp [hleft.rest, hcs, hright.rest, hts]
  · rw [hleft.nextId] at hcondition
    rw [hright.nextId] at hbody
    exact .loop keyword left right hkeyword hleftKind hcondition hrightKind hbody

theorem ensures_returnStatement
    (keyword : Token) :
    Ensures (returnStatement keyword) fun s a s' =>
      keyword.kind = .keyword .return_ → StatementFinished keyword s a s' := by
  refine (ensures_optionalExpression _).bind fun value => ?_
  refine (ensures_expect _ _).bind fun semicolon => .pure ?_
  rintro s2 s1 ⟨hend, hsemicolon⟩ s ⟨ts, hts, hvalue⟩ hkeyword
  refine ⟨false, ⟨ts ++ [semicolon], by simp [hts, hend.rest], ?_⟩, by simp⟩
  rw [hend.nextId]
  exact .ret keyword semicolon hkeyword hvalue hsemicolon

theorem ensures_printStatement :
    Ensures printStatement fun s a s' =>
      ∀ keyword, keyword.kind = .keyword .print → StatementFinished keyword s a s' := by
  refine ensures_expression.bind fun e => (ensures_expect _ _).bind fun semicolon => .pure ?_
  rintro s2 s1 ⟨hend, hsemicolon⟩ s ⟨ts, hts, he⟩ keyword hkeyword
  refine ⟨false, ⟨ts ++ [semicolon], by simp [hts, hend.rest], ?_⟩, by simp⟩
  rw [hend.nextId]
  exact .print keyword semicolon hkeyword he hsemicolon

theorem StatementFinished.taken
    {s s1 s2 : State}
    {keyword : Token}
    {a : Stmt}
    (h : StatementFinished keyword s1 a s2)
    (hmoved : Moved s keyword s1) :
    StatementTaken s a s2 := by
  obtain ⟨isOpen, ⟨ts, hts, hreads⟩, hend⟩ := h
  rw [hmoved.nextId] at hreads
  exact ⟨isOpen, ⟨keyword :: ts, by simp [hmoved.rest, hts], hreads⟩, hend⟩

/-- Every other kind of token that singles out a form of statement is that of `print`. -/
theorem print_of_statementKind
    {kind : Token.Kind}
    (h : kind ∈ statementKinds)
    (hfor : kind ≠ .keyword .for_)
    (hif : kind ≠ .keyword .if_)
    (hwhile : kind ≠ .keyword .while_)
    (hreturn : kind ≠ .keyword .return_)
    (hbrace : kind ≠ .punct .leftBrace) :
    kind = .keyword .print := by
  simp only [statementKinds, List.mem_cons, List.not_mem_nil, or_false] at h
  rcases h with h | h | h | h | h | h
  all_goals first
    | exact absurd h ‹_›
    | exact h

theorem ensures_statement
    (hnested : Ensures nested StatementTaken)
    (hinner : Ensures inner (Reads DeclarationReads)) :
    Ensures (statement nested inner) StatementTaken := by
  refine (ensures_acceptAny? _).bind fun result => ?_
  cases result with
  | none =>
      refine ensures_expressionStatement.mono ?_
      rintro s1 a s2 ⟨ts, hts, hreads⟩ s ⟨rfl, -⟩
      exact ⟨false, ⟨ts, hts, .expression hreads⟩, by simp⟩
  | some t =>
      dsimp only
      split
      · rename_i hkind
        refine (ensures_forStatement hnested).mono ?_
        intro s1 a s2 hfinished s hmoved
        exact (hfinished t hkind).taken hmoved.1
      · rename_i hkind
        refine (ensures_ifStatement hnested).mono ?_
        intro s1 a s2 hfinished s hmoved
        exact (hfinished t hkind).taken hmoved.1
      · rename_i hkind
        refine (ensures_whileStatement hnested).mono ?_
        intro s1 a s2 hfinished s hmoved
        exact (hfinished t hkind).taken hmoved.1
      · rename_i hkind
        refine (ensures_returnStatement t).mono ?_
        intro s1 a s2 hfinished s hmoved
        exact (hfinished hkind).taken hmoved.1
      · rename_i hkind
        refine (ensures_block hinner).bind fun body => .pure ?_
        rintro s2 s1 hblock s ⟨hmoved, -⟩
        obtain ⟨ts, hts, hbody⟩ := hblock t hkind
        rw [hmoved.nextId] at hbody
        exact ⟨false, ⟨t :: ts, by simp [hmoved.rest, hts], .block hbody⟩, by simp⟩
      · rename_i hfor hif hwhile hreturn hbrace
        refine ensures_printStatement.mono ?_
        intro s1 a s2 hfinished s hmoved
        have hkind := print_of_statementKind hmoved.2 hfor hif hwhile hreturn hbrace
        exact (hfinished t hkind).taken hmoved.1

theorem ensures_declaration
    (hnested : Ensures nested StatementTaken)
    (hinner : Ensures inner (Reads DeclarationReads)) :
    Ensures (declaration nested inner) (Reads DeclarationReads) := by
  have hdecl : Ensures
      (do
        if ← accept (.keyword .class_) then
          classDeclaration inner
        else if ← accept (.keyword .fun_) then
          return .function (← function inner .function)
        else if ← accept (.keyword .var) then
          variableDeclaration
        else
          statement nested inner)
      (Reads DeclReads) := by
    refine (ensures_accept _).bind fun declaresClass => ?_
    cases declaresClass with
    | true =>
        refine (ensures_classDeclaration hinner).mono ?_
        intro s1 a s2 hclass s hkeyword
        obtain ⟨keyword, hmoved, hkeyword⟩ : ∃ t, Moved s t s1 ∧ t.kind = .keyword .class_ := by
          simpa using hkeyword
        obtain ⟨ts, hts, hreads⟩ := hclass keyword hkeyword
        rw [hmoved.nextId] at hreads
        exact ⟨keyword :: ts, by simp [hmoved.rest, hts], hreads⟩
    | false =>
        refine (ensures_accept _).bind fun declaresFunction => ?_
        cases declaresFunction with
        | true =>
            refine (ensures_function hinner .function).bind fun decl => .pure ?_
            rintro s3 s2 ⟨ts, hts, hreads⟩ s1 hkeyword s hclass
            obtain ⟨keyword, hmoved, hkeyword⟩ :
                ∃ t, Moved s1 t s2 ∧ t.kind = .keyword .fun_ := by
              simpa using hkeyword
            obtain ⟨rfl, -⟩ : s1 = s ∧ _ := by simpa using hclass
            rw [hmoved.nextId] at hreads
            exact ⟨keyword :: ts, by simp [hmoved.rest, hts], .function keyword hkeyword hreads⟩
        | false =>
            refine (ensures_accept _).bind fun declaresVariable => ?_
            cases declaresVariable with
            | true =>
                refine ensures_variableDeclaration.mono ?_
                intro s3 a s4 hvar s2 hkeyword s1 hfunction s hclass
                obtain ⟨keyword, hmoved, hkeyword⟩ :
                    ∃ t, Moved s2 t s3 ∧ t.kind = .keyword .var := by
                  simpa using hkeyword
                obtain ⟨rfl, -⟩ : s2 = s1 ∧ _ := by simpa using hfunction
                obtain ⟨rfl, -⟩ : s2 = s ∧ _ := by simpa using hclass
                obtain ⟨ts, hts, hreads⟩ := hvar keyword hkeyword
                rw [hmoved.nextId] at hreads
                exact ⟨keyword :: ts, by simp [hmoved.rest, hts], .var hreads⟩
            | false =>
                refine (ensures_statement hnested hinner).mono ?_
                rintro s3 a s4 ⟨isOpen, ⟨ts, hts, hreads⟩, -⟩ s2 hvar s1 hfunction s hclass
                obtain ⟨rfl, -⟩ : s3 = s2 ∧ _ := by simpa using hvar
                obtain ⟨rfl, -⟩ : s3 = s1 ∧ _ := by simpa using hfunction
                obtain ⟨rfl, -⟩ : s3 = s ∧ _ := by simpa using hclass
                exact ⟨ts, hts, .statement hreads⟩
  refine (ensures_recovering hdecl).mono ?_
  rintro s result s' ⟨a, rfl, ts, hts, hreads⟩
  exact ⟨ts, hts, a, rfl, hreads⟩

end Nested

theorem ensures_within
    (depth : Nat) :
    Ensures (statementWithin depth) StatementTaken ∧
      Ensures (declarationWithin depth) (Reads DeclarationReads) := by
  induction depth with
  | zero =>
      refine ⟨.fail, ?_⟩
      refine (ensures_recovering (R := fun _ _ _ => False) .fail).mono ?_
      rintro s result s' ⟨a, -, hnever⟩
      cases hnever
  | succ depth ih =>
      exact ⟨ensures_statement ih.1 ih.2, ensures_declaration ih.1 ih.2⟩

theorem ensures_program :
    Ensures program fun s statements s' =>
      DeclsRead s.nextId s.rest statements s'.nextId := by
  refine ensures_remaining.bind fun count => ?_
  refine (ensures_manyUntil (E := fun rest => rest = []) rfl ensures_atEnd
    (ensures_within (count + 1)).2 DeclarationReads.ne_nil count).bind fun results => .pure ?_
  rintro s2 s1 ⟨⟨ts, hts, hreads⟩, hended⟩ s ⟨rfl, rfl⟩
  rw [hended (Nat.le_refl _), List.append_nil] at hts
  rw [hts]
  exact hreads.declarations

/-- A program that is read without faults has a reading. -/
theorem reads_of_readProgram
    {ts : List Token}
    {endLine : Nat}
    (h : (Grammar.readProgram ts endLine).errors = []) :
    DeclsRead 0 ts (Grammar.readProgram ts endLine).result
      (Grammar.readProgram ts endLine).idCount := by
  unfold Grammar.readProgram at h ⊢
  split at h
  · rename_i statements s' hrun
    exact (ensures_program ⟨ts, endLine, 0, []⟩).2 statements s' hrun h
  · simp [State.report] at h

/-- A token list that is read as an expression without faults has a reading. -/
theorem reads_of_readExpression
    {ts : List Token}
    {endLine : Nat}
    (h : (Grammar.readExpression ts endLine).errors = []) :
    ∃ e, (Grammar.readExpression ts endLine).result = some e ∧
      ExprReads 0 0 ts e (Grammar.readExpression ts endLine).idCount := by
  unfold Grammar.readExpression at h ⊢
  split at h
  · rename_i e s' hrun
    exact ⟨e, rfl, (ensures_loneExpression ⟨ts, endLine, 0, []⟩).2 e s' hrun h⟩
  · simp [State.report] at h

end Grammar
end Lox
