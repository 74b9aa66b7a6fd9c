import Lox.Proofs.Grammar.ReadExpression

/-!
# Reading statements

The parsers for statements and declarations read what readings tell them to.  Main statement:
tokens that have a reading as declarations are read as exactly these declarations, with their
references numbered in the order of the tokens, and nothing is reported.

An open statement is read as it should only if no `else` follows.  Inside a program that is never
in doubt: no declaration starts with `else`, and neither does what closes a body.
-/

namespace Lox
namespace Grammar

open Lox.Parser

section Clauses

variable {i j : Nat}
variable {ts rest : List Token}

theorem NamesRead.avoids_close
    {params : List Token}
    (h : NamesRead ts params)
    (rest : List Token) :
    Avoids [.punct .rightParen] (ts ++ rest) := by
  cases h with
  | one name hname =>
      exact avoids_cons (by simp [hname])
  | more name comma hname hcomma hothers =>
      exact avoids_cons (by simp [hname])

theorem NamesRead.length_le
    {params : List Token}
    (h : NamesRead ts params) :
    params.length ≤ ts.length := by
  induction h with
  | one name hname =>
      simp
  | more name comma hname hcomma hothers ih =>
      simp
      omega

theorem NamesRead.takes
    {params : List Token}
    (h : NamesRead ts params)
    {count before : Nat}
    (hcount : params.length ≤ count)
    (hlimit : before + params.length ≤ maxArity)
    (hcomma : Avoids [.punct .comma] rest) :
    (commaSeparated (expect .identifier .parameterName) .tooManyParameters count before).Takes
      i ts params i rest := by
  induction h generalizing count before with
  | one name hname =>
      cases count with
      | zero =>
          simp at hcount
      | succ count =>
          have hbelow : ¬ maxArity ≤ before := by
            simp at hlimit
            omega
          intro endLine errors
          simp [commaSeparated, bind_apply, hbelow, expect_hit hname, accept_miss hcomma]
  | @more ts others name comma hname hkind hothers ih =>
      cases count with
      | zero =>
          simp at hcount
      | succ count =>
          have hcount' : others.length ≤ count := by
            simp at hcount
            omega
          have hlimit' : before + 1 + others.length ≤ maxArity := by
            simp at hlimit
            omega
          have hbelow : ¬ maxArity ≤ before := by
            simp at hlimit
            omega
          intro endLine errors
          simp [commaSeparated, bind_apply, hbelow, expect_hit hname, accept_hit hkind,
            ih hcount' hlimit' endLine errors]

theorem ParamsRead.takes
    {params : List Token}
    (h : ParamsRead ts params)
    {right : Token}
    (hright : right.kind = .punct .rightParen) :
    (parenthesized (expect .identifier .parameterName) .tooManyParameters).Takes
      i ts params i (right :: rest) := by
  intro endLine errors
  cases h with
  | none =>
      simp [parenthesized, bind_apply, check_hit hright]
  | some hnames hlimit =>
      have hcomma : Avoids [.punct .comma] (right :: rest) :=
        avoids_cons (by simp [hright])
      have hcount : params.length ≤ (ts ++ right :: rest).length + 1 := by
        have := hnames.length_le
        simp
        omega
      have hlimit' : 0 + params.length ≤ maxArity := by
        simpa using hlimit
      simp only [parenthesized, bind_apply, check_miss (hnames.avoids_close _),
        Bool.false_eq_true, if_false, remaining]
      exact hnames.takes hcount hlimit' hcomma endLine errors

theorem OptionReads.takes
    {value : Option Expr}
    (h : OptionReads i ts value j)
    {kind : Token.Kind}
    (hkind : kind = .punct .semicolon ∨ kind = .punct .rightParen)
    {close : Token}
    (hclose : close.kind = kind) :
    (optionalExpression kind).Takes i ts value j (close :: rest) := by
  intro endLine errors
  cases h with
  | none =>
      simp [optionalExpression, bind_apply, check_hit hclose]
  | some he =>
      have hstops : Stops 0 (close :: rest) := by
        apply stops_of_none
        rw [hclose]
        rcases hkind with rfl | rfl <;> rfl
      have havoids : Avoids [kind] (ts ++ close :: rest) := by
        rcases hkind with rfl | rfl
        · exact he.starts.avoids (by decide) (by decide) _
        · exact he.starts.avoids (by decide) (by decide) _
      simp [optionalExpression, bind_apply, check_miss havoids, he.takes hstops endLine errors]

theorem ExpressionStatementReads.takes
    {s : Stmt}
    (h : ExpressionStatementReads i ts s j) :
    expressionStatement.Takes i ts s j rest := by
  cases h with
  | mk semicolon he hsemicolon =>
      intro endLine errors
      have hstops : Stops 0 (semicolon :: rest) :=
        stops_of_none (by rw [hsemicolon]; rfl)
      simp [expressionStatement, bind_apply, he.takes hstops endLine errors,
        expect_hit hsemicolon]

theorem ExpressionStatementReads.starts
    {s : Stmt}
    (h : ExpressionStatementReads i ts s j) :
    Starts 0 ts := by
  cases h with
  | mk semicolon he hsemicolon =>
      exact he.starts.append _

/-- A variable declaration starts with its keyword. -/
theorem VariableReads.takes
    {s : Stmt}
    (h : VariableReads i ts s j)
    (rest : List Token) :
    ∃ keyword tail, ts = keyword :: tail ∧ keyword.kind = .keyword .var ∧
      variableDeclaration.Takes i tail s j rest := by
  cases h with
  | plain keyword name semicolon hkeyword hname hsemicolon =>
      refine ⟨keyword, [name, semicolon], rfl, hkeyword, ?_⟩
      have hequal : Avoids [.punct .equal] (semicolon :: rest) :=
        avoids_cons (by simp [hsemicolon])
      intro endLine errors
      simp [variableDeclaration, bind_apply, expect_hit hname, accept_miss hequal,
        expect_hit hsemicolon]
  | initialized keyword name equals semicolon hkeyword hname hequals he hsemicolon =>
      refine ⟨keyword, _, rfl, hkeyword, ?_⟩
      have hstops : Stops 0 (semicolon :: rest) :=
        stops_of_none (by rw [hsemicolon]; rfl)
      intro endLine errors
      simp [variableDeclaration, bind_apply, expect_hit hname, accept_hit hequals,
        he.takes hstops endLine errors, expect_hit hsemicolon]

theorem FirstReads.takes
    {first : Option Stmt}
    (h : FirstReads i ts first j) :
    forInitializer.Takes i ts first j rest := by
  intro endLine errors
  cases h with
  | none semicolon hsemicolon =>
      simp [forInitializer, bind_apply, accept_hit hsemicolon]
  | var hvar =>
      obtain ⟨keyword, tail, rfl, hkeyword, htakes⟩ := hvar.takes rest
      have hsemicolon : Avoids [.punct .semicolon] (keyword :: (tail ++ rest)) :=
        avoids_cons (by simp [hkeyword])
      simp [forInitializer, bind_apply, accept_miss hsemicolon, accept_hit hkeyword,
        htakes endLine errors]
  | expression hstatement =>
      have hsemicolon : Avoids [.punct .semicolon] (ts ++ rest) :=
        hstatement.starts.avoids (by decide) (by decide) rest
      have hvar : Avoids [.keyword .var] (ts ++ rest) :=
        hstatement.starts.avoids (by decide) (by decide) rest
      simp [forInitializer, bind_apply, accept_miss hsemicolon, accept_miss hvar,
        hstatement.takes endLine errors]

theorem ParentReads.takes
    {parent : Option Expr}
    (h : ParentReads i ts parent j)
    {left : Token}
    (hleft : left.kind = .punct .leftBrace) :
    superclass.Takes i ts parent j (left :: rest) := by
  intro endLine errors
  cases h with
  | none =>
      have hless : Avoids [.punct .less] (left :: rest) :=
        avoids_cons (by simp [hleft])
      simp [superclass, bind_apply, accept_miss hless]
  | some less name hless hname =>
      simp [superclass, bind_apply, accept_hit hless, expect_hit hname, fresh]

end Clauses

/-- The first token is no `else` and closes no body. -/
def StartsDeclaration (ts : List Token) : Prop :=
  ∃ t tail, ts = t :: tail ∧ t.kind ≠ .keyword .else_ ∧ t.kind ≠ .punct .rightBrace

theorem Starts.startsDeclaration
    {rank : Nat}
    {ts : List Token}
    (h : Starts rank ts) :
    StartsDeclaration ts := by
  obtain ⟨t, tail, rfl, hkind⟩ := h
  refine ⟨t, tail, rfl, ?_, ?_⟩
  · rintro heq
    rw [heq] at hkind
    revert hkind
    simp [primaryKinds, signKinds]
  · rintro heq
    rw [heq] at hkind
    revert hkind
    simp [primaryKinds, signKinds]

theorem startsDeclaration_cons
    {t : Token}
    (helse : t.kind ≠ .keyword .else_)
    (hbrace : t.kind ≠ .punct .rightBrace)
    (tail : List Token) :
    StartsDeclaration (t :: tail) := by
  exact ⟨t, tail, rfl, helse, hbrace⟩

theorem StmtReads.starts
    {isOpen : Bool}
    {i j : Nat}
    {ts : List Token}
    {s : Stmt}
    (h : StmtReads isOpen i ts s j) :
    StartsDeclaration ts := by
  cases h with
  | expression hstatement =>
      exact hstatement.starts.startsDeclaration
  | print keyword semicolon hkeyword he hsemicolon =>
      exact startsDeclaration_cons (by simp [hkeyword]) (by simp [hkeyword]) _
  | ret keyword semicolon hkeyword hvalue hsemicolon =>
      exact startsDeclaration_cons (by simp [hkeyword]) (by simp [hkeyword]) _
  | block hblock =>
      cases hblock with
      | mk left right hleft hbody hright =>
          exact startsDeclaration_cons (by simp [hleft]) (by simp [hleft]) _
  | ifThen keyword left right hkeyword _ _ _ _ =>
      exact startsDeclaration_cons (by simp [hkeyword]) (by simp [hkeyword]) _
  | ifElse keyword left right other hkeyword _ _ _ _ _ _ =>
      exact startsDeclaration_cons (by simp [hkeyword]) (by simp [hkeyword]) _
  | loop keyword left right hkeyword _ _ _ _ =>
      exact startsDeclaration_cons (by simp [hkeyword]) (by simp [hkeyword]) _
  | forLoop keyword left semicolon right hkeyword _ _ _ _ _ _ _ =>
      exact startsDeclaration_cons (by simp [hkeyword]) (by simp [hkeyword]) _

theorem DeclReads.starts
    {i j : Nat}
    {ts : List Token}
    {s : Stmt}
    (h : DeclReads i ts s j) :
    StartsDeclaration ts := by
  cases h with
  | classDecl keyword name left right hkeyword _ _ _ _ _ =>
      exact startsDeclaration_cons (by simp [hkeyword]) (by simp [hkeyword]) _
  | function keyword hkeyword _ =>
      exact startsDeclaration_cons (by simp [hkeyword]) (by simp [hkeyword]) _
  | var hvar =>
      obtain ⟨keyword, tail, rfl, hkeyword, _⟩ := hvar.takes []
      exact startsDeclaration_cons (by simp [hkeyword]) (by simp [hkeyword]) _
  | statement hstatement =>
      exact hstatement.starts

/-- What follows a declaration in a list of declarations is no `else`. -/
theorem DeclsRead.avoids_else
    {i j : Nat}
    {ts : List Token}
    {body : List Stmt}
    (h : DeclsRead i ts body j)
    {rest : List Token}
    (hrest : Avoids [.keyword .else_] rest) :
    Avoids [.keyword .else_] (ts ++ rest) := by
  cases h with
  | nil =>
      exact hrest
  | cons hdecl _ =>
      obtain ⟨t, tail, rfl, helse, _⟩ := hdecl.starts
      exact avoids_cons (by simpa using helse)

theorem DeclsRead.length_le :
    ∀ {i j : Nat} {ts : List Token} {body : List Stmt},
      DeclsRead i ts body j → body.length ≤ ts.length
  | _, _, _, _, .nil _ => by
      simp
  | _, _, _, _, .cons hdecl hothers => by
      obtain ⟨t, tail, rfl, _⟩ := hdecl.starts
      have := hothers.length_le
      simp
      omega

theorem FunctionReads.starts
    {i j : Nat}
    {ts : List Token}
    {decl : FunctionDecl}
    (h : FunctionReads i ts decl j) :
    StartsDeclaration ts := by
  cases h with
  | mk name left right hname _ _ _ _ =>
      exact startsDeclaration_cons (by simp [hname]) (by simp [hname]) _

theorem MethodsRead.length_le :
    ∀ {i j : Nat} {ts : List Token} {methods : List FunctionDecl},
      MethodsRead i ts methods j → methods.length ≤ ts.length
  | _, _, _, _, .nil _ => by
      simp
  | _, _, _, _, .cons hmethod hothers => by
      obtain ⟨t, tail, rfl, _⟩ := hmethod.starts
      have := hothers.length_le
      simp
      omega

/-- A test for the end of a list of declarations: it says no in front of a declaration, and yes in
front of `rest`. -/
structure Ends (done : Parser Bool) (rest : List Token) : Prop where
  goes : ∀ (i : Nat) (ts : List Token), StartsDeclaration ts → done.Takes i [] false i ts
  ends : ∀ (i : Nat), done.Takes i [] true i rest

theorem StartsDeclaration.append
    {ts : List Token}
    (h : StartsDeclaration ts)
    (rest : List Token) :
    StartsDeclaration (ts ++ rest) := by
  obtain ⟨t, tail, rfl, helse, hbrace⟩ := h
  exact ⟨t, tail ++ rest, rfl, helse, hbrace⟩

theorem ends_atEnd : Ends atEnd [] where
  goes := by
    rintro i ts ⟨t, tail, rfl, _, _⟩ endLine errors
    rfl
  ends := by
    intro i endLine errors
    rfl

theorem ends_bodyEnds
    {right : Token}
    {rest : List Token}
    (hright : right.kind = .punct .rightBrace) :
    Ends bodyEnds (right :: rest) where
  goes := by
    rintro i ts ⟨t, tail, rfl, _, hbrace⟩ endLine errors
    have hmiss : Avoids [.punct .rightBrace] (t :: tail) :=
      avoids_cons (by simpa using hbrace)
    simp [bodyEnds, bind_apply, atEnd, check_miss hmiss]
  ends := by
    intro i endLine errors
    simp [bodyEnds, bind_apply, atEnd, check_hit hright]

theorem takes_manyUntil_nil
    {α : Type}
    {done : Parser Bool}
    {item : Parser α}
    {rest : List Token}
    (hdone : Ends done rest)
    (count i : Nat) :
    (manyUntil done item count).Takes i [] [] i rest := by
  intro endLine errors
  cases count with
  | zero =>
      rfl
  | succ count =>
      have hends := hdone.ends i endLine errors
      simp only [List.nil_append] at hends ⊢
      simp [manyUntil, bind_apply, hends]

theorem takes_manyUntil_cons
    {α : Type}
    {done : Parser Bool}
    {item : Parser α}
    {xs ys rest : List Token}
    {i k j count : Nat}
    {first : α}
    {others : List α}
    (hdone : Ends done rest)
    (hstarts : StartsDeclaration xs)
    (hfirst : item.Takes i xs first k (ys ++ rest))
    (hothers : (manyUntil done item count).Takes k ys others j rest) :
    (manyUntil done item (count + 1)).Takes i (xs ++ ys) (first :: others) j rest := by
  intro endLine errors
  have hgoes := hdone.goes i (xs ++ (ys ++ rest)) (hstarts.append _) endLine errors
  simp only [List.nil_append] at hgoes
  rw [List.append_assoc]
  simp [manyUntil, bind_apply, hgoes, hfirst endLine errors, hothers endLine errors]

theorem statement_miss
    {nested : Parser Stmt}
    {inner : Parser (Option Stmt)}
    {i j : Nat}
    {ts rest : List Token}
    {s : Stmt}
    (h : ExpressionStatementReads i ts s j) :
    (statement nested inner).Takes i ts s j rest := by
  intro endLine errors
  have hmiss : Avoids statementKinds (ts ++ rest) := by
    obtain ⟨t, tail, rfl, hkind⟩ := h.starts
    apply avoids_cons
    intro hmem
    simp only [statementKinds, List.mem_cons, List.not_mem_nil, or_false] at hmem
    rcases hmem with hmem | hmem | hmem | hmem | hmem | hmem <;>
      simp [hmem, primaryKinds, signKinds] at hkind
  simp [statement, bind_apply, acceptAny?_miss hmiss, h.takes endLine errors]

section Bodies

variable {nested : Parser Stmt}
variable {inner : Parser (Option Stmt)}
variable {i j k : Nat}
variable {cs ts xs ys rest : List Token}
variable {keyword left right : Token}

theorem takes_print
    {semicolon : Token}
    {e : Expr}
    (hkeyword : keyword.kind = .keyword .print)
    (he : ExprReads 0 i ts e j)
    (hsemicolon : semicolon.kind = .punct .semicolon) :
    (statement nested inner).Takes i (keyword :: (ts ++ [semicolon])) (.print e) j rest := by
  intro endLine errors
  have hmem : keyword.kind ∈ statementKinds := by
    simp [statementKinds, hkeyword]
  have hstops : Stops 0 (semicolon :: rest) :=
    stops_of_none (by rw [hsemicolon]; rfl)
  have happend : keyword :: (ts ++ [semicolon]) ++ rest =
      keyword :: (ts ++ semicolon :: rest) := by
    simp
  rw [happend]
  simp [statement, printStatement, bind_apply, acceptAny?_hit hmem, hkeyword,
    he.takes hstops endLine errors, expect_hit hsemicolon]

theorem takes_return
    {semicolon : Token}
    {value : Option Expr}
    (hkeyword : keyword.kind = .keyword .return_)
    (hvalue : OptionReads i ts value j)
    (hsemicolon : semicolon.kind = .punct .semicolon) :
    (statement nested inner).Takes i (keyword :: (ts ++ [semicolon])) (.ret keyword value) j
      rest := by
  intro endLine errors
  have hmem : keyword.kind ∈ statementKinds := by
    simp [statementKinds, hkeyword]
  have happend : keyword :: (ts ++ [semicolon]) ++ rest =
      keyword :: (ts ++ semicolon :: rest) := by
    simp
  rw [happend]
  simp [statement, returnStatement, bind_apply, acceptAny?_hit hmem, hkeyword,
    hvalue.takes (Or.inl rfl) hsemicolon endLine errors, expect_hit hsemicolon]

theorem takes_block
    {body : List Stmt}
    (hleft : left.kind = .punct .leftBrace)
    (hbody : (block inner).Takes i ts body j rest) :
    (statement nested inner).Takes i (left :: ts) (.block body) j rest := by
  intro endLine errors
  have hmem : left.kind ∈ statementKinds := by
    simp [statementKinds, hleft]
  change statement nested inner ⟨left :: (ts ++ rest), endLine, i, errors⟩ = _
  simp [statement, bind_apply, acceptAny?_hit hmem, hleft, hbody endLine errors]

theorem takes_ifThen
    {condition : Expr}
    {s : Stmt}
    (hkeyword : keyword.kind = .keyword .if_)
    (hleft : left.kind = .punct .leftParen)
    (hcondition : ExprReads 0 i cs condition k)
    (hright : right.kind = .punct .rightParen)
    (hbranch : nested.Takes k ts s j rest)
    (helse : Avoids [.keyword .else_] rest) :
    (statement nested inner).Takes i (keyword :: left :: (cs ++ right :: ts))
      (.ifThen condition s) j rest := by
  intro endLine errors
  have hmem : keyword.kind ∈ statementKinds := by
    simp [statementKinds, hkeyword]
  have hstops : Stops 0 (right :: (ts ++ rest)) :=
    stops_of_none (by rw [hright]; rfl)
  have happend : keyword :: left :: (cs ++ right :: ts) ++ rest =
      keyword :: left :: (cs ++ right :: (ts ++ rest)) := by
    simp
  rw [happend]
  simp [statement, ifStatement, bind_apply, acceptAny?_hit hmem, hkeyword, expect_hit hleft,
    hcondition.takes hstops endLine errors, expect_hit hright, hbranch endLine errors,
    accept_miss helse]

theorem takes_ifElse
    {l : Nat}
    {condition : Expr}
    {s t : Stmt}
    {other : Token}
    (hkeyword : keyword.kind = .keyword .if_)
    (hleft : left.kind = .punct .leftParen)
    (hcondition : ExprReads 0 i cs condition k)
    (hright : right.kind = .punct .rightParen)
    (hthen : nested.Takes k xs s l (other :: (ys ++ rest)))
    (hother : other.kind = .keyword .else_)
    (helse : nested.Takes l ys t j rest) :
    (statement nested inner).Takes i
      (keyword :: left :: (cs ++ right :: (xs ++ other :: ys))) (.ifElse condition s t) j
      rest := by
  intro endLine errors
  have hmem : keyword.kind ∈ statementKinds := by
    simp [statementKinds, hkeyword]
  have hstops : Stops 0 (right :: (xs ++ other :: (ys ++ rest))) :=
    stops_of_none (by rw [hright]; rfl)
  have happend : keyword :: left :: (cs ++ right :: (xs ++ other :: ys)) ++ rest =
      keyword :: left :: (cs ++ right :: (xs ++ other :: (ys ++ rest))) := by
    simp
  rw [happend]
  simp [statement, ifStatement, bind_apply, acceptAny?_hit hmem, hkeyword, expect_hit hleft,
    hcondition.takes hstops endLine errors, expect_hit hright, hthen endLine errors,
    accept_hit hother, helse endLine errors]

theorem takes_while
    {condition : Expr}
    {s : Stmt}
    (hkeyword : keyword.kind = .keyword .while_)
    (hleft : left.kind = .punct .leftParen)
    (hcondition : ExprReads 0 i cs condition k)
    (hright : right.kind = .punct .rightParen)
    (hbody : nested.Takes k ts s j rest) :
    (statement nested inner).Takes i (keyword :: left :: (cs ++ right :: ts))
      (.loop condition s) j rest := by
  intro endLine errors
  have hmem : keyword.kind ∈ statementKinds := by
    simp [statementKinds, hkeyword]
  have hstops : Stops 0 (right :: (ts ++ rest)) :=
    stops_of_none (by rw [hright]; rfl)
  have happend : keyword :: left :: (cs ++ right :: ts) ++ rest =
      keyword :: left :: (cs ++ right :: (ts ++ rest)) := by
    simp
  rw [happend]
  simp [statement, whileStatement, bind_apply, acceptAny?_hit hmem, hkeyword, expect_hit hleft,
    hcondition.takes hstops endLine errors, expect_hit hright, hbody endLine errors]

theorem takes_for
    {l m : Nat}
    {fs ns : List Token}
    {first : Option Stmt}
    {condition increment : Option Expr}
    {s : Stmt}
    {semicolon : Token}
    (hkeyword : keyword.kind = .keyword .for_)
    (hleft : left.kind = .punct .leftParen)
    (hfirst : FirstReads i fs first k)
    (hcondition : OptionReads k cs condition l)
    (hsemicolon : semicolon.kind = .punct .semicolon)
    (hincrement : OptionReads l ns increment m)
    (hright : right.kind = .punct .rightParen)
    (hbody : nested.Takes m ts s j rest) :
    (statement nested inner).Takes i
      (keyword :: left :: (fs ++ (cs ++ semicolon :: (ns ++ right :: ts))))
      (forLoop first condition increment s) j rest := by
  intro endLine errors
  have hmem : keyword.kind ∈ statementKinds := by
    simp [statementKinds, hkeyword]
  have happend : keyword :: left :: (fs ++ (cs ++ semicolon :: (ns ++ right :: ts))) ++ rest =
      keyword :: left :: (fs ++ (cs ++ semicolon :: (ns ++ right :: (ts ++ rest)))) := by
    simp
  rw [happend]
  simp [statement, forStatement, bind_apply, acceptAny?_hit hmem, hkeyword, expect_hit hleft,
    hfirst.takes endLine errors, hcondition.takes (Or.inl rfl) hsemicolon endLine errors,
    expect_hit hsemicolon, hincrement.takes (Or.inr rfl) hright endLine errors,
    expect_hit hright, hbody endLine errors]

theorem takes_body
    {body : List Stmt}
    (hbody : (manyUntil bodyEnds inner (ts ++ right :: rest).length).Takes i ts
      (body.map some) j (right :: rest))
    (hright : right.kind = .punct .rightBrace) :
    (block inner).Takes i (ts ++ [right]) body j rest := by
  intro endLine errors
  have happend : ts ++ [right] ++ rest = ts ++ right :: rest := by
    simp
  have hfilter : (body.map some).filterMap id = body := by
    simp [List.filterMap_map]
  rw [happend]
  simp only [block, bind_apply, remaining, hbody endLine errors, expect_hit hright, pure_apply,
    hfilter]

theorem takes_function
    {sort : FunctionSort}
    {name brace : Token}
    {ps params : List Token}
    {body : List Stmt}
    (hname : name.kind = .identifier)
    (hleft : left.kind = .punct .leftParen)
    (hparams : ParamsRead ps params)
    (hright : right.kind = .punct .rightParen)
    (hbrace : brace.kind = .punct .leftBrace)
    (hbody : (block inner).Takes i ts body j rest) :
    (function inner sort).Takes i (name :: left :: (ps ++ right :: brace :: ts))
      (.mk name params body) j rest := by
  intro endLine errors
  have happend : name :: left :: (ps ++ right :: brace :: ts) ++ rest =
      name :: left :: (ps ++ right :: brace :: (ts ++ rest)) := by
    simp
  rw [happend]
  simp [function, bind_apply, expect_hit hname, expect_hit hleft,
    hparams.takes hright endLine errors, expect_hit hright, expect_hit hbrace,
    hbody endLine errors]

theorem takes_class
    {name brace : Token}
    {ps ms : List Token}
    {parent : Option Expr}
    {methods : List FunctionDecl}
    (hkeyword : keyword.kind = .keyword .class_)
    (hname : name.kind = .identifier)
    (hparent : ParentReads i ps parent k)
    (hleft : left.kind = .punct .leftBrace)
    (hmethods : (manyUntil bodyEnds (function inner .method) (ms ++ brace :: rest).length).Takes
      k ms methods j (brace :: rest))
    (hbrace : brace.kind = .punct .rightBrace) :
    (declaration nested inner).Takes i (keyword :: name :: (ps ++ left :: (ms ++ [brace])))
      (some (.classDecl name parent methods)) j rest := by
  intro endLine errors
  have happend : keyword :: name :: (ps ++ left :: (ms ++ [brace])) ++ rest =
      keyword :: name :: (ps ++ left :: (ms ++ brace :: rest)) := by
    simp
  rw [happend]
  simp only [declaration, recovering, classDeclaration, bind_apply, accept_hit hkeyword,
    if_true, expect_hit hname, hparent.takes hleft endLine errors, expect_hit hleft, remaining,
    hmethods endLine errors, expect_hit hbrace, pure_apply]

theorem takes_funDecl
    {decl : FunctionDecl}
    (hkeyword : keyword.kind = .keyword .fun_)
    (hfunction : (function inner .function).Takes i ts decl j rest) :
    (declaration nested inner).Takes i (keyword :: ts) (some (.function decl)) j rest := by
  intro endLine errors
  have hclass : Avoids [.keyword .class_] (keyword :: (ts ++ rest)) :=
    avoids_cons (by simp [hkeyword])
  change declaration nested inner ⟨keyword :: (ts ++ rest), endLine, i, errors⟩ = _
  simp [declaration, recovering, bind_apply, accept_miss hclass, accept_hit hkeyword,
    hfunction endLine errors]

theorem takes_varDecl
    {s : Stmt}
    (h : VariableReads i ts s j) :
    (declaration nested inner).Takes i ts (some s) j rest := by
  obtain ⟨keyword, tail, rfl, hkeyword, htakes⟩ := h.takes rest
  intro endLine errors
  have hclass : Avoids [.keyword .class_] (keyword :: (tail ++ rest)) :=
    avoids_cons (by simp [hkeyword])
  have hfun : Avoids [.keyword .fun_] (keyword :: (tail ++ rest)) :=
    avoids_cons (by simp [hkeyword])
  change declaration nested inner ⟨keyword :: (tail ++ rest), endLine, i, errors⟩ = _
  simp [declaration, recovering, bind_apply, accept_miss hclass, accept_miss hfun,
    accept_hit hkeyword, htakes endLine errors]

theorem takes_statement
    {s : Stmt}
    (hkinds : Avoids [.keyword .class_, .keyword .fun_, .keyword .var] (ts ++ rest))
    (hstatement : (statement nested inner).Takes i ts s j rest) :
    (declaration nested inner).Takes i ts (some s) j rest := by
  intro endLine errors
  have hclass : Avoids [.keyword .class_] (ts ++ rest) := hkinds.mono (by simp)
  have hfun : Avoids [.keyword .fun_] (ts ++ rest) := hkinds.mono (by simp)
  have hvar : Avoids [.keyword .var] (ts ++ rest) := hkinds.mono (by simp)
  simp [declaration, recovering, bind_apply, accept_miss hclass, accept_miss hfun,
    accept_miss hvar, hstatement endLine errors]

end Bodies

/-- No statement starts with a keyword that starts a declaration. -/
theorem StmtReads.avoids_declaration
    {isOpen : Bool}
    {i j : Nat}
    {ts : List Token}
    {s : Stmt}
    (h : StmtReads isOpen i ts s j)
    (rest : List Token) :
    Avoids [.keyword .class_, .keyword .fun_, .keyword .var] (ts ++ rest) := by
  cases h with
  | expression hstatement =>
      obtain ⟨t, tail, rfl, hkind⟩ := hstatement.starts
      apply avoids_cons
      intro hmem
      simp only [List.mem_cons, List.not_mem_nil, or_false] at hmem
      rcases hmem with hmem | hmem | hmem <;> simp [hmem, primaryKinds, signKinds] at hkind
  | print keyword semicolon hkeyword he hsemicolon =>
      exact avoids_cons (by simp [hkeyword])
  | ret keyword semicolon hkeyword hvalue hsemicolon =>
      exact avoids_cons (by simp [hkeyword])
  | block hblock =>
      cases hblock with
      | mk left right hleft hbody hright =>
          exact avoids_cons (by simp [hleft])
  | ifThen keyword left right hkeyword _ _ _ _ =>
      exact avoids_cons (by simp [hkeyword])
  | ifElse keyword left right other hkeyword _ _ _ _ _ _ =>
      exact avoids_cons (by simp [hkeyword])
  | loop keyword left right hkeyword _ _ _ _ =>
      exact avoids_cons (by simp [hkeyword])
  | forLoop keyword left semicolon right hkeyword _ _ _ _ _ _ _ =>
      exact avoids_cons (by simp [hkeyword])

mutual

/-- Tokens of a statement are read as that statement, unless it is open and an `else` follows. -/
theorem StmtReads.takes :
    ∀ {isOpen : Bool} {i j : Nat} {ts : List Token} {s : Stmt},
      StmtReads isOpen i ts s j →
      ∀ ⦃depth : Nat⦄, ts.length ≤ depth →
      ∀ ⦃rest : List Token⦄, (isOpen = true → Avoids [.keyword .else_] rest) →
        (statement (statementWithin depth) (declarationWithin depth)).Takes i ts s j rest
  | _, _, _, _, _, .expression hstatement => by
      intro depth hdepth rest helse
      exact statement_miss hstatement
  | _, _, _, _, _, .print keyword semicolon hkeyword he hsemicolon => by
      intro depth hdepth rest helse
      exact takes_print hkeyword he hsemicolon
  | _, _, _, _, _, .ret keyword semicolon hkeyword hvalue hsemicolon => by
      intro depth hdepth rest helse
      exact takes_return hkeyword hvalue hsemicolon
  | _, _, _, _, _, .block hblock => by
      intro depth hdepth rest helse
      obtain ⟨left, tail, rfl, hleft, hbody⟩ := hblock.takes (Nat.le_succ_of_le hdepth) rest
      exact takes_block hleft hbody
  | _, _, _, _, _, @StmtReads.ifThen isOpen i k j cs ts condition s keyword left right hkeyword
      hleft hcondition hright hbranch => by
      intro depth hdepth rest helse
      cases depth with
      | zero =>
          simp at hdepth
      | succ depth =>
          have hlength : ts.length ≤ depth := by
            simp at hdepth
            omega
          have hnested := hbranch.takes hlength (fun _ => helse rfl)
          exact takes_ifThen hkeyword hleft hcondition hright hnested (helse rfl)
  | _, _, _, _, _, @StmtReads.ifElse isOpen i k l j cs xs ys condition s t keyword left right other
      hkeyword hleft hcondition hright hthen hother helseBranch => by
      intro depth hdepth rest helse
      cases depth with
      | zero =>
          simp at hdepth
      | succ depth =>
          have hlength : xs.length ≤ depth := by
            simp at hdepth
            omega
          have hlength' : ys.length ≤ depth := by
            simp at hdepth
            omega
          have hclosed : false = true → Avoids [.keyword .else_] (other :: (ys ++ rest)) := by
            intro h
            cases h
          have hnested := hthen.takes hlength hclosed
          have hnested' := helseBranch.takes hlength' helse
          exact takes_ifElse hkeyword hleft hcondition hright hnested hother hnested'
  | _, _, _, _, _, @StmtReads.loop isOpen i k j cs ts condition s keyword left right hkeyword
      hleft hcondition hright hbody => by
      intro depth hdepth rest helse
      cases depth with
      | zero =>
          simp at hdepth
      | succ depth =>
          have hlength : ts.length ≤ depth := by
            simp at hdepth
            omega
          have hnested := hbody.takes hlength helse
          exact takes_while hkeyword hleft hcondition hright hnested
  | _, _, _, _, _, @StmtReads.forLoop isOpen i k l m j fs cs ns ts first condition increment s
      keyword left semicolon right hkeyword hleft hfirst hcondition hsemicolon hincrement hright
      hbody => by
      intro depth hdepth rest helse
      cases depth with
      | zero =>
          simp at hdepth
      | succ depth =>
          have hlength : ts.length ≤ depth := by
            simp at hdepth
            omega
          have hnested := hbody.takes hlength helse
          exact takes_for hkeyword hleft hfirst hcondition hsemicolon hincrement hright hnested

/-- Tokens of a declaration are read as that declaration. -/
theorem DeclReads.takes :
    ∀ {i j : Nat} {ts : List Token} {s : Stmt},
      DeclReads i ts s j →
      ∀ ⦃depth : Nat⦄, ts.length ≤ depth →
      ∀ ⦃rest : List Token⦄, Avoids [.keyword .else_] rest →
        (declaration (statementWithin depth) (declarationWithin depth)).Takes i ts (some s) j
          rest
  | _, _, _, _, @DeclReads.classDecl i k j ps ms parent methods keyword name left right hkeyword
      hname hparent hleft hmethods hright => by
      intro depth hdepth rest helse
      have hlength : ms.length ≤ depth := by
        simp at hdepth
        omega
      have hcount : methods.length ≤ (ms ++ right :: rest).length := by
        have := hmethods.length_le
        simp
        omega
      have hends : Ends bodyEnds (right :: rest) :=
        ends_bodyEnds hright
      have hlist := hmethods.takes hlength hcount hends
      exact takes_class hkeyword hname hparent hleft hlist hright
  | _, _, _, _, @DeclReads.function i j ts decl keyword hkeyword hfunction => by
      intro depth hdepth rest helse
      have hlength : ts.length ≤ depth := by
        simp at hdepth
        omega
      exact takes_funDecl hkeyword (hfunction.takes hlength .function rest)
  | _, _, _, _, .var hvar => by
      intro depth hdepth rest helse
      exact takes_varDecl hvar
  | _, _, _, _, .statement hstatement => by
      intro depth hdepth rest helse
      exact takes_statement (hstatement.avoids_declaration rest)
        (hstatement.takes hdepth (fun _ => helse))

/-- Tokens of declarations are read one declaration after the other. -/
theorem DeclsRead.takes :
    ∀ {i j : Nat} {ts : List Token} {body : List Stmt},
      DeclsRead i ts body j →
      ∀ ⦃depth : Nat⦄, ts.length ≤ depth →
      ∀ ⦃count : Nat⦄, body.length ≤ count →
      ∀ ⦃done : Parser Bool⦄ ⦃rest : List Token⦄,
        Ends done rest → Avoids [.keyword .else_] rest →
        (manyUntil done (declarationWithin (depth + 1)) count).Takes i ts (body.map some) j rest
  | _, _, _, _, .nil i => by
      intro depth hdepth count hcount done rest hdone helse
      exact takes_manyUntil_nil hdone count i
  | _, _, _, _, @DeclsRead.cons i k j xs ys s others hdecl hothers => by
      intro depth hdepth count hcount done rest hdone helse
      cases count with
      | zero =>
          simp at hcount
      | succ count =>
          have hlength : xs.length ≤ depth := by
            simp at hdepth
            omega
          have hlength' : ys.length ≤ depth := by
            simp at hdepth
            omega
          have hcount' : others.length ≤ count := by
            simp at hcount
            omega
          have hfirst := hdecl.takes hlength (hothers.avoids_else helse)
          have hrest := hothers.takes hlength' hcount' hdone helse
          exact takes_manyUntil_cons hdone hdecl.starts hfirst hrest

/-- Tokens of a block are read, behind the brace that opens it, as the body of that block. -/
theorem BlockReads.takes :
    ∀ {i j : Nat} {ts : List Token} {body : List Stmt},
      BlockReads i ts body j →
      ∀ ⦃depth : Nat⦄, ts.length ≤ depth + 1 →
      ∀ (rest : List Token),
        ∃ left tail, ts = left :: tail ∧ left.kind = .punct .leftBrace ∧
          (block (declarationWithin depth)).Takes i tail body j rest
  | _, _, _, _, @BlockReads.mk i j ts body left right hleft hbody hright => by
      intro depth hdepth rest
      refine ⟨left, ts ++ [right], rfl, hleft, ?_⟩
      cases depth with
      | zero =>
          simp at hdepth
      | succ depth =>
          have hlength : ts.length ≤ depth := by
            simp at hdepth
            omega
          have hcount : body.length ≤ (ts ++ right :: rest).length := by
            have := hbody.length_le
            simp
            omega
          have helse : Avoids [.keyword .else_] (right :: rest) :=
            avoids_cons (by simp [hright])
          exact takes_body (hbody.takes hlength hcount (ends_bodyEnds hright) helse) hright

/-- Tokens of a function are read as that function. -/
theorem FunctionReads.takes :
    ∀ {i j : Nat} {ts : List Token} {decl : FunctionDecl},
      FunctionReads i ts decl j →
      ∀ ⦃depth : Nat⦄, ts.length ≤ depth →
      ∀ (sort : FunctionSort) (rest : List Token),
        (function (declarationWithin depth) sort).Takes i ts decl j rest
  | _, _, _, _, @FunctionReads.mk i j ps ts params body name left right hname hleft hparams hright
      hblock => by
      intro depth hdepth sort rest
      have hlength : ts.length ≤ depth + 1 := by
        simp at hdepth
        omega
      obtain ⟨brace, tail, rfl, hbrace, hbody⟩ := hblock.takes hlength rest
      exact takes_function hname hleft hparams hright hbrace hbody

/-- Tokens of methods are read one method after the other. -/
theorem MethodsRead.takes :
    ∀ {i j : Nat} {ts : List Token} {methods : List FunctionDecl},
      MethodsRead i ts methods j →
      ∀ ⦃depth : Nat⦄, ts.length ≤ depth →
      ∀ ⦃count : Nat⦄, methods.length ≤ count →
      ∀ ⦃done : Parser Bool⦄ ⦃rest : List Token⦄, Ends done rest →
        (manyUntil done (function (declarationWithin depth) .method) count).Takes i ts methods j
          rest
  | _, _, _, _, .nil i => by
      intro depth hdepth count hcount done rest hdone
      exact takes_manyUntil_nil hdone count i
  | _, _, _, _, @MethodsRead.cons i k j xs ys decl others hmethod hothers => by
      intro depth hdepth count hcount done rest hdone
      cases count with
      | zero =>
          simp at hcount
      | succ count =>
          have hlength : xs.length ≤ depth := by
            simp at hdepth
            omega
          have hlength' : ys.length ≤ depth := by
            simp at hdepth
            omega
          have hcount' : others.length ≤ count := by
            simp at hcount
            omega
          have hfirst := hmethod.takes hlength .method (ys ++ rest)
          have hrest := hothers.takes hlength' hcount' hdone
          exact takes_manyUntil_cons hdone hmethod.starts hfirst hrest

end

/-- Tokens that have a reading as declarations are read as that program, without faults. -/
theorem DeclsRead.readProgram
    {ts : List Token}
    {statements : List Stmt}
    {count : Nat}
    (h : DeclsRead 0 ts statements count)
    (endLine : Nat) :
    Grammar.readProgram ts endLine = ⟨statements, [], count⟩ := by
  have hread :=
    h.takes (Nat.le_refl _) h.length_le ends_atEnd (avoids_nil [.keyword .else_]) endLine []
  rw [List.append_nil] at hread
  simp [Grammar.readProgram, program, bind_apply, remaining, hread, List.filterMap_map]

/-- Tokens that have a reading as an expression are read as that expression, without faults. -/
theorem ExprReads.readExpression
    {ts : List Token}
    {e : Expr}
    {count : Nat}
    (h : ExprReads 0 0 ts e count)
    (endLine : Nat) :
    Grammar.readExpression ts endLine = ⟨some e, [], count⟩ := by
  have hread := h.takes (stops_nil 0) endLine []
  rw [List.append_nil] at hread
  simp [Grammar.readExpression, loneExpression, bind_apply, hread, atEnd]

end Grammar
end Lox
