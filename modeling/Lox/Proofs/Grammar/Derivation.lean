import Lox.Proofs.Grammar.ReadStatement

/-!
# Every derivation has a reading

What the rules of the grammar derive, readings read.  Two things stand between them.  Operators
are repeated on the side of the rules and lean to the left on the side of readings.  And the rules
leave open to which conditional an `else` belongs, while a reading gives it to the nearest one:
`StmtReads.attach` hands an `else` down to the conditional at the open end of a statement.
-/

namespace Lox
namespace Grammar

open Lox.Parser

theorem Repeats.imp
    {P Q : List Token → Prop}
    (himp : ∀ ts, P ts → Q ts)
    {n : Nat}
    {ts : List Token}
    (h : Repeats P n ts) :
    Repeats Q n ts := by
  induction h with
  | zero =>
      exact .zero
  | succ hfirst _ ih =>
      exact .succ (himp _ hfirst) ih

/-- Tokens that are read at the given rank, whatever number their first reference gets. -/
def Readable (rank : Nat) (ts : List Token) : Prop :=
  ∀ i, ∃ e j, ExprReads rank i ts e j

/-- Tokens that are read as a statement, whatever number their first reference gets. -/
def ReadableStatement (ts : List Token) : Prop :=
  ∀ i, ∃ isOpen s j, StmtReads isOpen i ts s j

/-- Tokens that are read as a declaration, whatever number their first reference gets. -/
def ReadableDeclaration (ts : List Token) : Prop :=
  ∀ i, ∃ s j, DeclReads i ts s j

theorem Readable.looser
    {rank : Nat}
    {ts : List Token}
    (hrank : rank < 9)
    (h : Readable (rank + 1) ts) :
    Readable rank ts := by
  intro i
  obtain ⟨e, j, hreads⟩ := h i
  exact ⟨e, j, .looser hrank hreads⟩

/-- Repeated operators with their right operands extend what stands in front of them. -/
theorem readable_operations
    {rank n : Nat}
    {ts : List Token}
    (h : Repeats
      (fun part => ∃ operator ys, part = operator :: ys ∧ operator.kind ∈ operatorKinds rank ∧
        Readable (rank + 1) ys) n ts)
    {i k : Nat}
    {xs : List Token}
    {e : Expr}
    (hleft : ExprReads rank i xs e k) :
    ∃ e' j, ExprReads rank i (xs ++ ts) e' j := by
  induction h generalizing xs e k with
  | zero =>
      exact ⟨e, k, by simpa using hleft⟩
  | @succ n part others hpart _ ih =>
      obtain ⟨operator, ys, rfl, hoperator, hright⟩ := hpart
      obtain ⟨right, j, hright⟩ := hright k
      obtain ⟨e', j', hreads⟩ := ih (.operation operator hleft hoperator hright)
      refine ⟨e', j', ?_⟩
      simpa using hreads

/-- Tokens of one level: an operand, then operators with their right operands. -/
theorem readable_joined
    {rank n : Nat}
    {xs ts : List Token}
    (hrank : rank < 9)
    (hfirst : Readable (rank + 1) xs)
    (hothers : Repeats
      (fun part => ∃ operator ys, part = operator :: ys ∧ operator.kind ∈ operatorKinds rank ∧
        Readable (rank + 1) ys) n ts) :
    Readable rank (xs ++ ts) := by
  intro i
  obtain ⟨e, k, hreads⟩ := hfirst i
  exact readable_operations hothers (.looser hrank hreads)

/-- Calls and property names extend what stands in front of them. -/
theorem readable_suffixes
    {n : Nat}
    {ts : List Token}
    (h : Repeats
      (fun part =>
        (∃ left right, left.kind = .punct .leftParen ∧ right.kind = .punct .rightParen ∧
          part = [left, right]) ∨
        (∃ left ys right, left.kind = .punct .leftParen ∧ right.kind = .punct .rightParen ∧
          part = left :: (ys ++ [right]) ∧
          ∀ i, ∃ arguments j, ArgumentsRead i ys arguments j ∧ arguments.length ≤ maxArity) ∨
        (∃ dot name, dot.kind = .punct .dot ∧ name.kind = .identifier ∧ part = [dot, name]))
      n ts)
    {i k : Nat}
    {xs : List Token}
    {e : Expr}
    (hfront : ExprReads 8 i xs e k) :
    ∃ e' j, ExprReads 8 i (xs ++ ts) e' j := by
  induction h generalizing xs e k with
  | zero =>
      exact ⟨e, k, by simpa using hfront⟩
  | @succ n part others hpart _ ih =>
      rw [← List.append_assoc]
      rcases hpart with ⟨left, right, hleft, hright, rfl⟩ |
        ⟨left, ys, right, hleft, hright, rfl, harguments⟩ | ⟨dot, name, hdot, hname, rfl⟩
      · exact ih (.callNone left right hfront hleft hright)
      · obtain ⟨arguments, j, harguments, hlimit⟩ := harguments k
        exact ih (.call left right hfront hleft harguments hlimit hright)
      · exact ih (.get dot name hfront hdot hname)

/-- Repeated commas and expressions are the further arguments of a call. -/
theorem arguments_of_repeats
    {n : Nat}
    {ts : List Token}
    (h : Repeats
      (fun part => ∃ comma ys, part = comma :: ys ∧ comma.kind = .punct .comma ∧ Readable 0 ys)
      n ts)
    {xs : List Token}
    (hfirst : Readable 0 xs)
    (i : Nat) :
    ∃ arguments j, ArgumentsRead i (xs ++ ts) arguments j ∧ arguments.length = n + 1 := by
  induction h generalizing xs i with
  | zero =>
      obtain ⟨e, j, hreads⟩ := hfirst i
      exact ⟨[e], j, by simpa using ArgumentsRead.one hreads, rfl⟩
  | @succ n part others hpart _ ih =>
      obtain ⟨comma, ys, rfl, hcomma, hnext⟩ := hpart
      obtain ⟨e, k, hreads⟩ := hfirst i
      obtain ⟨arguments, j, hothers, hlength⟩ := ih hnext k
      refine ⟨e :: arguments, j, ?_, by simp [hlength]⟩
      simpa using ArgumentsRead.more comma hreads hcomma hothers

/-- Repeated commas and names are the further parameters of a function. -/
theorem names_of_repeats
    {n : Nat}
    {ts : List Token}
    (h : Repeats
      (fun part => ∃ comma name, part = [comma, name] ∧ comma.kind = .punct .comma ∧
        name.kind = .identifier) n ts)
    {first : Token}
    (hfirst : first.kind = .identifier) :
    ∃ params, NamesRead (first :: ts) params ∧ params.length = n + 1 := by
  induction h generalizing first with
  | zero =>
      exact ⟨[first], .one first hfirst, rfl⟩
  | @succ n part others hpart _ ih =>
      obtain ⟨comma, name, rfl, hcomma, hname⟩ := hpart
      obtain ⟨params, hreads, hlength⟩ := ih hname
      refine ⟨first :: params, ?_, by simp [hlength]⟩
      exact .more first comma hfirst hcomma hreads

theorem declarations_of_repeats
    {n : Nat}
    {ts : List Token}
    (h : Repeats ReadableDeclaration n ts)
    (i : Nat) :
    ∃ body j, DeclsRead i ts body j := by
  induction h generalizing i with
  | zero =>
      exact ⟨[], i, .nil i⟩
  | succ hfirst _ ih =>
      obtain ⟨s, k, hreads⟩ := hfirst i
      obtain ⟨body, j, hothers⟩ := ih k
      exact ⟨s :: body, j, .cons hreads hothers⟩

theorem methods_of_repeats
    {n : Nat}
    {ts : List Token}
    (h : Repeats (fun part => ∀ i, ∃ decl j, FunctionReads i part decl j) n ts)
    (i : Nat) :
    ∃ methods j, MethodsRead i ts methods j := by
  induction h generalizing i with
  | zero =>
      exact ⟨[], i, .nil i⟩
  | succ hfirst _ ih =>
      obtain ⟨decl, k, hreads⟩ := hfirst i
      obtain ⟨methods, j, hothers⟩ := ih k
      exact ⟨decl :: methods, j, .cons hreads hothers⟩

/-- An `else` behind an open statement belongs to the conditional at its open end. -/
theorem StmtReads.attach :
    ∀ {isOpen : Bool} {i k : Nat} {xs : List Token} {s : Stmt},
      StmtReads isOpen i xs s k → isOpen = true →
      ∀ ⦃other : Token⦄, other.kind = .keyword .else_ →
      ∀ ⦃isOpen' : Bool⦄ ⦃j : Nat⦄ ⦃ys : List Token⦄ ⦃t : Stmt⦄, StmtReads isOpen' k ys t j →
        ∃ isOpen'' s', StmtReads isOpen'' i (xs ++ other :: ys) s' j
  | _, _, _, _, _, .expression _, hopen => by
      cases hopen
  | _, _, _, _, _, .print _ _ _ _ _, hopen => by
      cases hopen
  | _, _, _, _, _, .ret _ _ _ _ _, hopen => by
      cases hopen
  | _, _, _, _, _, .block _, hopen => by
      cases hopen
  | _, _, _, _, _, @StmtReads.ifThen isOpen i k j cs ts condition s keyword left right hkeyword
      hleft hcondition hright hbranch, _ => by
      intro other hother isOpen' j ys t helse
      cases hisOpen : isOpen with
      | false =>
          rw [hisOpen] at hbranch
          refine ⟨isOpen', .ifElse condition s t, ?_⟩
          simpa using StmtReads.ifElse keyword left right other hkeyword hleft hcondition hright
            hbranch hother helse
      | true =>
          obtain ⟨isOpen'', s', hreads⟩ := hbranch.attach hisOpen hother helse
          refine ⟨true, .ifThen condition s', ?_⟩
          simpa using StmtReads.ifThen keyword left right hkeyword hleft hcondition hright hreads
  | _, _, _, _, _, @StmtReads.ifElse isOpen i k l j cs xs ys condition s t keyword left right
      inner hkeyword hleft hcondition hright hthen hinner hbranch, hopen => by
      intro other hother isOpen' j ys t helse
      obtain ⟨isOpen'', s', hreads⟩ := hbranch.attach hopen hother helse
      refine ⟨isOpen'', .ifElse condition s s', ?_⟩
      simpa using StmtReads.ifElse keyword left right inner hkeyword hleft hcondition hright
        hthen hinner hreads
  | _, _, _, _, _, @StmtReads.loop isOpen i k j cs ts condition s keyword left right hkeyword
      hleft hcondition hright hbody, hopen => by
      intro other hother isOpen' j ys t helse
      obtain ⟨isOpen'', s', hreads⟩ := hbody.attach hopen hother helse
      refine ⟨isOpen'', .loop condition s', ?_⟩
      simpa using StmtReads.loop keyword left right hkeyword hleft hcondition hright hreads
  | _, _, _, _, _, @StmtReads.forLoop isOpen i k l m j fs cs ns ts first condition increment s
      keyword left semicolon right hkeyword hleft hfirst hcondition hsemicolon hincrement hright
      hbody, hopen => by
      intro other hother isOpen' j ys t helse
      obtain ⟨isOpen'', s', hreads⟩ := hbody.attach hopen hother helse
      refine ⟨isOpen'', Grammar.forLoop first condition increment s', ?_⟩
      simpa using StmtReads.forLoop keyword left semicolon right hkeyword hleft hfirst hcondition
        hsemicolon hincrement hright hreads

/-- What each rule says about readings. -/
def Rule.Meaning : Rule → List Token → Prop
  | .program, ts => ∀ i, ∃ body j, DeclsRead i ts body j
  | .declaration, ts => ReadableDeclaration ts
  | .classDecl, ts => ReadableDeclaration ts
  | .funDecl, ts => ReadableDeclaration ts
  | .function, ts => ∀ i, ∃ decl j, FunctionReads i ts decl j
  | .parameters, ts => ∃ params, NamesRead ts params ∧ params.length ≤ maxArity
  | .varDecl, ts => ∀ i, ∃ s j, VariableReads i ts s j
  | .statement, ts => ReadableStatement ts
  | .exprStmt, ts => ∀ i, ∃ s j, ExpressionStatementReads i ts s j
  | .forStmt, ts => ReadableStatement ts
  | .ifStmt, ts => ReadableStatement ts
  | .printStmt, ts => ReadableStatement ts
  | .returnStmt, ts => ReadableStatement ts
  | .whileStmt, ts => ReadableStatement ts
  | .block, ts => ∀ i, ∃ body j, BlockReads i ts body j
  | .expression, ts => Readable 0 ts
  | .assignment, ts => Readable 0 ts
  | .logicOr, ts => Readable 1 ts
  | .logicAnd, ts => Readable 2 ts
  | .equality, ts => Readable 3 ts
  | .comparison, ts => Readable 4 ts
  | .term, ts => Readable 5 ts
  | .factor, ts => Readable 6 ts
  | .unary, ts => Readable 7 ts
  | .call, ts => Readable 8 ts
  | .arguments, ts =>
      ∀ i, ∃ arguments j, ArgumentsRead i ts arguments j ∧ arguments.length ≤ maxArity
  | .primary, ts => Readable 9 ts

section Closed

open Ebnf

variable {ts : List Token}

/-- A level of operators is read as the rules say if its operators are those of its rank. -/
theorem readable_joinedBy
    (rank : Nat)
    (operand : Rule)
    {operator : Ebnf}
    (hrank : rank < 9)
    (hoperand : ∀ ts, operand.Meaning ts → Readable (rank + 1) ts)
    (hoperator : ∀ ts, operator.Lang Rule.Meaning ts →
      ∃ t, ts = [t] ∧ t.kind ∈ operatorKinds rank)
    (h : (joinedBy (.rule operand) operator).Lang Rule.Meaning ts) :
    Readable rank ts := by
  obtain ⟨xs, ys, rfl, hfirst, n, hothers⟩ := h
  apply readable_joined hrank (hoperand xs hfirst)
  apply hothers.imp
  rintro part ⟨os, zs, rfl, hos, hzs⟩
  obtain ⟨t, rfl, ht⟩ := hoperator os hos
  exact ⟨t, zs, rfl, ht, hoperand zs hzs⟩

theorem readable_primary
    (h : Rule.primary.production.Lang Rule.Meaning ts) :
    Readable 9 ts := by
  intro i
  simp only [Rule.production, oneOf, inOrder, word, mark, name, Lang] at h
  rcases h with ⟨t, hkind, rfl⟩ | ⟨t, hkind, rfl⟩ | ⟨t, hkind, rfl⟩ | ⟨t, hkind, rfl⟩ |
    ⟨t, hkind, rfl⟩ | ⟨t, hkind, rfl⟩ | ⟨t, hkind, rfl⟩ |
    ⟨_, _, rfl, ⟨left, hleft, rfl⟩, _, _, rfl, hinner, right, hright, rfl⟩ |
    ⟨_, _, rfl, ⟨keyword, hkeyword, rfl⟩, _, _, rfl, ⟨dot, hdot, rfl⟩, method, hmethod, rfl⟩
  · exact ⟨_, _, .literal i t (.number (Token.numberValue t.lexeme))
      (by simp [literalOf?, Token.literal?, hkind])⟩
  · exact ⟨_, _, .literal i t (.string (Token.stringValue t.lexeme))
      (by simp [literalOf?, Token.literal?, hkind])⟩
  · exact ⟨_, _, .literal i t (.bool true) (by simp [literalOf?, hkind])⟩
  · exact ⟨_, _, .literal i t (.bool false) (by simp [literalOf?, hkind])⟩
  · exact ⟨_, _, .literal i t .nil (by simp [literalOf?, hkind])⟩
  · exact ⟨_, _, .this i t hkind⟩
  · exact ⟨_, _, .var i t hkind⟩
  · obtain ⟨e, j, hreads⟩ := hinner i
    exact ⟨_, _, .grouping left right hleft hreads hright⟩
  · exact ⟨_, _, .super i keyword dot method hkeyword hdot hmethod⟩

theorem readable_call
    (h : Rule.call.production.Lang Rule.Meaning ts) :
    Readable 8 ts := by
  intro i
  simp only [Rule.production, inOrder, mark, name, Lang] at h
  obtain ⟨xs, ys, rfl, hprimary, n, hsuffixes⟩ := h
  obtain ⟨e, k, hreads⟩ := hprimary i
  refine readable_suffixes (hsuffixes.imp ?_) (.looser (by decide) hreads)
  rintro part (⟨_, _, rfl, ⟨left, hleft, rfl⟩, _, _, rfl, harguments, right, hright, rfl⟩ |
    ⟨_, _, rfl, ⟨dot, hdot, rfl⟩, name, hname, rfl⟩)
  · rcases harguments with rfl | harguments
    · exact Or.inl ⟨left, right, hleft, hright, rfl⟩
    · exact Or.inr (Or.inl ⟨left, _, right, hleft, hright, rfl, harguments⟩)
  · exact Or.inr (Or.inr ⟨dot, name, hdot, hname, rfl⟩)

theorem readable_unary
    (h : Rule.unary.production.Lang Rule.Meaning ts) :
    Readable 7 ts := by
  intro i
  simp only [Rule.production, oneOf, mark, Lang] at h
  rcases h with ⟨_, ys, rfl, hsign, hoperand⟩ | hcall
  · obtain ⟨e, j, hreads⟩ := hoperand i
    rcases hsign with ⟨sign, hsign, rfl⟩ | ⟨sign, hsign, rfl⟩
    · exact ⟨_, _, .unary sign (by simp [signKinds, hsign]) hreads⟩
    · exact ⟨_, _, .unary sign (by simp [signKinds, hsign]) hreads⟩
  · exact Readable.looser (by decide) hcall i

theorem readable_assignment
    (h : Rule.assignment.production.Lang Rule.Meaning ts) :
    Readable 0 ts := by
  intro i
  simp only [Rule.production, inOrder, mark, name, Lang] at h
  rcases h with ⟨_, _, rfl, htarget, _, _, rfl, ⟨name, hname, rfl⟩, _, _, rfl,
    ⟨equals, hequals, rfl⟩, hvalue⟩ | hor
  · rcases htarget with rfl | ⟨xs, _, rfl, hobject, dot, hdot, rfl⟩
    · obtain ⟨value, j, hreads⟩ := hvalue (i + 1)
      exact ⟨_, _, .assign name equals hname hequals hreads⟩
    · obtain ⟨object, k, hobject⟩ := hobject i
      obtain ⟨value, j, hreads⟩ := hvalue k
      refine ⟨.set object name value, j, ?_⟩
      simpa using ExprReads.set dot name equals hobject hdot hname hequals hreads
  · exact Readable.looser (by decide) hor i

theorem optionReads_of_lang
    {condition : List Token}
    (h : condition = [] ∨ Readable 0 condition)
    (i : Nat) :
    ∃ value j, OptionReads i condition value j := by
  rcases h with rfl | hcondition
  · exact ⟨none, i, .none i⟩
  · obtain ⟨e, j, hreads⟩ := hcondition i
    exact ⟨some e, j, .some hreads⟩

theorem readable_listOf_expression
    (h : Rule.arguments.production.Lang Rule.Meaning ts)
    (i : Nat) :
    ∃ arguments j, ArgumentsRead i ts arguments j ∧ arguments.length ≤ maxArity := by
  simp only [Rule.production, listOf, mark, Lang] at h
  obtain ⟨xs, ys, rfl, hfirst, n, hn, hothers⟩ := h
  have hparts : Repeats
      (fun part => ∃ comma ys, part = comma :: ys ∧ comma.kind = .punct .comma ∧ Readable 0 ys)
      n ys := by
    apply hothers.imp
    rintro part ⟨_, zs, rfl, ⟨comma, hcomma, rfl⟩, hentry⟩
    exact ⟨comma, zs, rfl, hcomma, hentry⟩
  obtain ⟨arguments, j, hreads, hlength⟩ := arguments_of_repeats hparts hfirst i
  refine ⟨arguments, j, hreads, ?_⟩
  simp only [maxArity] at hn ⊢
  omega

theorem readable_listOf_name
    (h : Rule.parameters.production.Lang Rule.Meaning ts) :
    ∃ params, NamesRead ts params ∧ params.length ≤ maxArity := by
  simp only [Rule.production, listOf, mark, name, Lang] at h
  obtain ⟨_, ys, rfl, ⟨first, hfirst, rfl⟩, n, hn, hothers⟩ := h
  have hparts : Repeats
      (fun part => ∃ comma name, part = [comma, name] ∧ comma.kind = .punct .comma ∧
        name.kind = .identifier) n ys := by
    apply hothers.imp
    rintro part ⟨_, _, rfl, ⟨comma, hcomma, rfl⟩, name, hname, rfl⟩
    exact ⟨comma, name, rfl, hcomma, hname⟩
  obtain ⟨params, hreads, hlength⟩ := names_of_repeats hparts hfirst
  refine ⟨params, hreads, ?_⟩
  simp only [maxArity] at hn ⊢
  omega

theorem readable_varDecl
    (h : Rule.varDecl.production.Lang Rule.Meaning ts)
    (i : Nat) :
    ∃ s j, VariableReads i ts s j := by
  simp only [Rule.production, inOrder, word, mark, name, Lang] at h
  obtain ⟨_, _, rfl, ⟨keyword, hkeyword, rfl⟩, _, _, rfl, ⟨name, hname, rfl⟩, _, _, rfl,
    hinitializer, semicolon, hsemicolon, rfl⟩ := h
  rcases hinitializer with rfl | ⟨_, ys, rfl, ⟨equals, hequals, rfl⟩, hvalue⟩
  · exact ⟨_, _, .plain i keyword name semicolon hkeyword hname hsemicolon⟩
  · obtain ⟨e, j, hreads⟩ := hvalue i
    exact ⟨_, _, .initialized keyword name equals semicolon hkeyword hname hequals hreads
      hsemicolon⟩

theorem readable_block
    (h : Rule.block.production.Lang Rule.Meaning ts)
    (i : Nat) :
    ∃ body j, BlockReads i ts body j := by
  simp only [Rule.production, inOrder, mark, Lang] at h
  obtain ⟨_, _, rfl, ⟨left, hleft, rfl⟩, _, _, rfl, ⟨n, hbody⟩, right, hright, rfl⟩ := h
  obtain ⟨body, j, hreads⟩ := declarations_of_repeats hbody i
  exact ⟨body, j, .mk left right hleft hreads hright⟩

theorem readable_function
    (h : Rule.function.production.Lang Rule.Meaning ts)
    (i : Nat) :
    ∃ decl j, FunctionReads i ts decl j := by
  simp only [Rule.production, inOrder, mark, name, Lang] at h
  obtain ⟨_, _, rfl, ⟨name, hname, rfl⟩, _, _, rfl, ⟨left, hleft, rfl⟩, ps, _, rfl, hparams,
    _, _, rfl, ⟨right, hright, rfl⟩, hblock⟩ := h
  obtain ⟨body, j, hreads⟩ := hblock i
  have hlist : ∃ params, ParamsRead ps params := by
    rcases hparams with rfl | ⟨params, hnames, hlimit⟩
    · exact ⟨[], .none⟩
    · exact ⟨params, .some hnames hlimit⟩
  obtain ⟨params, hparams⟩ := hlist
  exact ⟨_, _, .mk name left right hname hleft hparams hright hreads⟩

theorem readable_classDecl
    (h : Rule.classDecl.production.Lang Rule.Meaning ts) :
    ReadableDeclaration ts := by
  intro i
  simp only [Rule.production, inOrder, word, mark, name, Lang] at h
  obtain ⟨_, _, rfl, ⟨keyword, hkeyword, rfl⟩, _, _, rfl, ⟨name, hname, rfl⟩, ps, _, rfl,
    hparent, _, _, rfl, ⟨left, hleft, rfl⟩, ms, _, rfl, ⟨n, hmethods⟩, right, hright, rfl⟩ := h
  have hread : ∃ parent k, ParentReads i ps parent k := by
    rcases hparent with rfl | ⟨_, _, rfl, ⟨less, hless, rfl⟩, parent, hparent, rfl⟩
    · exact ⟨none, i, .none i⟩
    · exact ⟨_, _, .some i less parent hless hparent⟩
  obtain ⟨parent, k, hparent⟩ := hread
  obtain ⟨methods, j, hmethods⟩ := methods_of_repeats hmethods k
  exact ⟨_, _, .classDecl keyword name left right hkeyword hname hparent hleft hmethods hright⟩

theorem readable_ifStmt
    (h : Rule.ifStmt.production.Lang Rule.Meaning ts) :
    ReadableStatement ts := by
  intro i
  simp only [Rule.production, inOrder, word, mark, Lang] at h
  obtain ⟨_, _, rfl, ⟨keyword, hkeyword, rfl⟩, _, _, rfl, ⟨left, hleft, rfl⟩, cs, _, rfl,
    hcondition, _, _, rfl, ⟨right, hright, rfl⟩, xs, _, rfl, hthen, helse⟩ := h
  obtain ⟨condition, k, hcondition⟩ := hcondition i
  obtain ⟨isOpen, s, l, hthen⟩ := hthen k
  have hconditional :=
    StmtReads.ifThen keyword left right hkeyword hleft hcondition hright hthen
  rcases helse with rfl | ⟨_, ys, rfl, ⟨other, hother, rfl⟩, helse⟩
  · exact ⟨_, _, _, by simpa using hconditional⟩
  · -- Whether the branch is open or not, the `else` finds its place.
    obtain ⟨isOpen', t, j, helse⟩ := helse l
    obtain ⟨isOpen'', s', hreads⟩ := hconditional.attach rfl hother helse
    exact ⟨isOpen'', s', j, by simpa using hreads⟩

theorem readable_whileStmt
    (h : Rule.whileStmt.production.Lang Rule.Meaning ts) :
    ReadableStatement ts := by
  intro i
  simp only [Rule.production, inOrder, word, mark, Lang] at h
  obtain ⟨_, _, rfl, ⟨keyword, hkeyword, rfl⟩, _, _, rfl, ⟨left, hleft, rfl⟩, cs, _, rfl,
    hcondition, _, _, rfl, ⟨right, hright, rfl⟩, hbody⟩ := h
  obtain ⟨condition, k, hcondition⟩ := hcondition i
  obtain ⟨isOpen, s, j, hbody⟩ := hbody k
  exact ⟨_, _, _, .loop keyword left right hkeyword hleft hcondition hright hbody⟩

theorem readable_forStmt
    (h : Rule.forStmt.production.Lang Rule.Meaning ts) :
    ReadableStatement ts := by
  intro i
  simp only [Rule.production, inOrder, oneOf, word, mark, Lang] at h
  obtain ⟨_, _, rfl, ⟨keyword, hkeyword, rfl⟩, _, _, rfl, ⟨left, hleft, rfl⟩, fs, _, rfl,
    hfirst, cs, _, rfl, hcondition, _, _, rfl, ⟨semicolon, hsemicolon, rfl⟩, ns, _, rfl,
    hincrement, _, _, rfl, ⟨right, hright, rfl⟩, hbody⟩ := h
  have hread : ∃ first k, FirstReads i fs first k := by
    rcases hfirst with hvar | hexpression | ⟨t, ht, rfl⟩
    · obtain ⟨s, k, hreads⟩ := hvar i
      exact ⟨some s, k, .var hreads⟩
    · obtain ⟨s, k, hreads⟩ := hexpression i
      exact ⟨some s, k, .expression hreads⟩
    · exact ⟨none, i, .none i t ht⟩
  obtain ⟨first, k, hfirst⟩ := hread
  obtain ⟨condition, l, hcondition⟩ := optionReads_of_lang hcondition k
  obtain ⟨increment, m, hincrement⟩ := optionReads_of_lang hincrement l
  obtain ⟨isOpen, s, j, hbody⟩ := hbody m
  exact ⟨_, _, _, .forLoop keyword left semicolon right hkeyword hleft hfirst hcondition
    hsemicolon hincrement hright hbody⟩

theorem readable_printStmt
    (h : Rule.printStmt.production.Lang Rule.Meaning ts) :
    ReadableStatement ts := by
  intro i
  simp only [Rule.production, inOrder, word, mark, Lang] at h
  obtain ⟨_, _, rfl, ⟨keyword, hkeyword, rfl⟩, xs, _, rfl, he, semicolon, hsemicolon, rfl⟩ := h
  obtain ⟨e, j, hreads⟩ := he i
  exact ⟨_, _, _, .print keyword semicolon hkeyword hreads hsemicolon⟩

theorem readable_returnStmt
    (h : Rule.returnStmt.production.Lang Rule.Meaning ts) :
    ReadableStatement ts := by
  intro i
  simp only [Rule.production, inOrder, word, mark, Lang] at h
  obtain ⟨_, _, rfl, ⟨keyword, hkeyword, rfl⟩, xs, _, rfl, hvalue, semicolon, hsemicolon,
    rfl⟩ := h
  obtain ⟨value, j, hvalue⟩ := optionReads_of_lang hvalue i
  exact ⟨_, _, _, .ret keyword semicolon hkeyword hvalue hsemicolon⟩

theorem readable_statement
    (h : Rule.statement.production.Lang Rule.Meaning ts) :
    ReadableStatement ts := by
  simp only [Rule.production, oneOf, Lang] at h
  rcases h with h | h | h | h | h | h | h
  · intro i
    obtain ⟨s, j, hreads⟩ := h i
    exact ⟨false, s, j, .expression hreads⟩
  · exact h
  · exact h
  · exact h
  · exact h
  · exact h
  · intro i
    obtain ⟨body, j, hreads⟩ := h i
    exact ⟨false, .block body, j, .block hreads⟩

theorem readable_declaration
    (h : Rule.declaration.production.Lang Rule.Meaning ts) :
    ReadableDeclaration ts := by
  simp only [Rule.production, oneOf, Lang] at h
  rcases h with h | h | h | h
  · exact h
  · exact h
  · intro i
    obtain ⟨s, j, hreads⟩ := h i
    exact ⟨s, j, .var hreads⟩
  · intro i
    obtain ⟨isOpen, s, j, hreads⟩ := h i
    exact ⟨s, j, .statement hreads⟩

/-- Readings are closed under the rules of the grammar. -/
theorem Rule.meaning_of_production
    (r : Rule)
    (ts : List Token)
    (h : r.production.Lang Rule.Meaning ts) :
    r.Meaning ts := by
  cases r with
  | program =>
      obtain ⟨n, hbody⟩ := h
      exact declarations_of_repeats hbody
  | declaration =>
      exact readable_declaration h
  | classDecl =>
      exact readable_classDecl h
  | funDecl =>
      intro i
      simp only [Rule.production, inOrder, word, Lang] at h
      obtain ⟨_, xs, rfl, ⟨keyword, hkeyword, rfl⟩, hfunction⟩ := h
      obtain ⟨decl, j, hreads⟩ := hfunction i
      exact ⟨_, _, .function keyword hkeyword hreads⟩
  | function =>
      exact readable_function h
  | parameters =>
      exact readable_listOf_name h
  | varDecl =>
      exact readable_varDecl h
  | statement =>
      exact readable_statement h
  | exprStmt =>
      intro i
      simp only [Rule.production, inOrder, mark, Lang] at h
      obtain ⟨xs, _, rfl, he, semicolon, hsemicolon, rfl⟩ := h
      obtain ⟨e, j, hreads⟩ := he i
      exact ⟨_, _, .mk semicolon hreads hsemicolon⟩
  | forStmt =>
      exact readable_forStmt h
  | ifStmt =>
      exact readable_ifStmt h
  | printStmt =>
      exact readable_printStmt h
  | returnStmt =>
      exact readable_returnStmt h
  | whileStmt =>
      exact readable_whileStmt h
  | block =>
      exact readable_block h
  | expression =>
      exact h
  | assignment =>
      exact readable_assignment h
  | logicOr =>
      apply readable_joinedBy 1 .logicAnd (by decide) (fun _ h => h) _ h
      rintro _ ⟨t, hkind, rfl⟩
      exact ⟨t, rfl, by simp [operatorKinds, hkind]⟩
  | logicAnd =>
      apply readable_joinedBy 2 .equality (by decide) (fun _ h => h) _ h
      rintro _ ⟨t, hkind, rfl⟩
      exact ⟨t, rfl, by simp [operatorKinds, hkind]⟩
  | equality =>
      apply readable_joinedBy 3 .comparison (by decide) (fun _ h => h) _ h
      rintro _ (⟨t, hkind, rfl⟩ | ⟨t, hkind, rfl⟩) <;>
        exact ⟨t, rfl, by simp [operatorKinds, hkind]⟩
  | comparison =>
      apply readable_joinedBy 4 .term (by decide) (fun _ h => h) _ h
      rintro _ (⟨t, hkind, rfl⟩ | ⟨t, hkind, rfl⟩ | ⟨t, hkind, rfl⟩ | ⟨t, hkind, rfl⟩) <;>
        exact ⟨t, rfl, by simp [operatorKinds, hkind]⟩
  | term =>
      apply readable_joinedBy 5 .factor (by decide) (fun _ h => h) _ h
      rintro _ (⟨t, hkind, rfl⟩ | ⟨t, hkind, rfl⟩) <;>
        exact ⟨t, rfl, by simp [operatorKinds, hkind]⟩
  | factor =>
      apply readable_joinedBy 6 .unary (by decide) (fun _ h => h) _ h
      rintro _ (⟨t, hkind, rfl⟩ | ⟨t, hkind, rfl⟩) <;>
        exact ⟨t, rfl, by simp [operatorKinds, hkind]⟩
  | unary =>
      exact readable_unary h
  | call =>
      exact readable_call h
  | arguments =>
      exact readable_listOf_expression h
  | primary =>
      exact readable_primary h

end Closed

/-- Whatever a rule derives has the readings that the rule stands for. -/
theorem Derives.meaning
    {r : Rule}
    {ts : List Token}
    (h : Derives (.rule r) ts) :
    r.Meaning ts := by
  exact h.lang Rule.Meaning Rule.meaning_of_production

end Grammar
end Lox
