import Lox.Proofs.Grammar.AcceptStatement
import Lox.Proofs.Grammar.Derivation

/-!
# The language of the grammar

Every reading is a derivation, with the rule that its rank stands for.  As derivations have readings
and readings are what the parsers accept, the parsers accept exactly the token lists that the
rules of the grammar derive.
-/

namespace Lox
namespace Grammar

open Lox.Parser
open Ebnf

namespace Derives

theorem cons
    {kind : Token.Kind}
    {b : Ebnf}
    {ys : List Token}
    (t : Token)
    (hkind : t.kind = kind)
    (hrest : Derives b ys) :
    Derives (.seq (.token kind) b) (t :: ys) := by
  exact .seq (.token t hkind) hrest

theorem alone
    {a b : Ebnf}
    {ts : List Token}
    (h : Derives a ts)
    (hempty : Derives b []) :
    Derives (.seq a b) ts := by
  simpa using Derives.seq h hempty

theorem without
    {a b : Ebnf}
    {ts : List Token}
    (h : Derives b ts) :
    Derives (.seq (.opt a) b) ts := by
  exact .seq .absent h

/-- A repetition can be carried on at its end. -/
theorem star_snoc
    {a : Ebnf}
    {xs ys : List Token}
    (h : Derives (.star a) xs)
    (hlast : Derives a ys) :
    Derives (.star a) (xs ++ ys) := by
  generalize hstar : Ebnf.star a = g at h
  induction h with
  | stop =>
      cases hstar
      simpa using Derives.more hlast .stop
  | more hfirst _ _ ih =>
      cases hstar
      rw [List.append_assoc]
      exact .more hfirst (ih rfl)
  | _ =>
      cases hstar

/-- An operand more, behind an operator. -/
theorem joinedBy_snoc
    {operand operator : Ebnf}
    {xs ys : List Token}
    {t : Token}
    (h : Derives (joinedBy operand operator) xs)
    (hoperator : Derives operator [t])
    (hright : Derives operand ys) :
    Derives (joinedBy operand operator) (xs ++ t :: ys) := by
  cases h with
  | seq hfirst hothers =>
      rw [List.append_assoc]
      exact .seq hfirst (hothers.star_snoc (.seq hoperator hright))

end Derives

/-- The rule of the expressions of a rank. -/
def rankRule : Nat → Rule
  | 0 => .assignment
  | 1 => .logicOr
  | 2 => .logicAnd
  | 3 => .equality
  | 4 => .comparison
  | 5 => .term
  | 6 => .factor
  | 7 => .unary
  | 8 => .call
  | _ => .primary

/-- One operator more on a level of operators. -/
theorem derives_operation
    {rank : Nat}
    {xs ys : List Token}
    {operator : Token}
    (hleft : Derives (.rule (rankRule rank)) xs)
    (hoperator : operator.kind ∈ operatorKinds rank)
    (hright : Derives (.rule (rankRule (rank + 1))) ys) :
    Derives (.rule (rankRule rank)) (xs ++ operator :: ys) := by
  obtain ⟨hlow, hhigh⟩ := rank_of_operator hoperator
  cases hleft with
  | rule hleft =>
      refine .rule ?_
      match rank, hlow, hhigh with
      | 1, _, _ =>
          refine hleft.joinedBy_snoc (.token operator ?_) hright
          simpa [operatorKinds] using hoperator
      | 2, _, _ =>
          refine hleft.joinedBy_snoc (.token operator ?_) hright
          simpa [operatorKinds] using hoperator
      | 3, _, _ =>
          refine hleft.joinedBy_snoc ?_ hright
          simp only [operatorKinds, List.mem_cons, List.not_mem_nil, or_false] at hoperator
          rcases hoperator with h | h
          · exact .first (.token operator h)
          · exact .second (.token operator h)
      | 4, _, _ =>
          refine hleft.joinedBy_snoc ?_ hright
          simp only [operatorKinds, List.mem_cons, List.not_mem_nil, or_false] at hoperator
          rcases hoperator with h | h | h | h
          · exact .first (.token operator h)
          · exact .second (.first (.token operator h))
          · exact .second (.second (.first (.token operator h)))
          · exact .second (.second (.second (.token operator h)))
      | 5, _, _ =>
          refine hleft.joinedBy_snoc ?_ hright
          simp only [operatorKinds, List.mem_cons, List.not_mem_nil, or_false] at hoperator
          rcases hoperator with h | h
          · exact .first (.token operator h)
          · exact .second (.token operator h)
      | 6, _, _ =>
          refine hleft.joinedBy_snoc ?_ hright
          simp only [operatorKinds, List.mem_cons, List.not_mem_nil, or_false] at hoperator
          rcases hoperator with h | h
          · exact .second (.token operator h)
          · exact .first (.token operator h)

/-- A tighter expression is an expression of each looser rank. -/
theorem derives_looser
    {rank : Nat}
    {ts : List Token}
    (hrank : rank < 9)
    (h : Derives (.rule (rankRule (rank + 1))) ts) :
    Derives (.rule (rankRule rank)) ts := by
  have halone : ∀ operator : Ebnf,
      Derives (joinedBy (.rule (rankRule (rank + 1))) operator) ts := by
    intro operator
    exact h.alone .stop
  refine .rule ?_
  match rank, hrank with
  | 0, _ => exact .second h
  | 1, _ => exact halone _
  | 2, _ => exact halone _
  | 3, _ => exact halone _
  | 4, _ => exact halone _
  | 5, _ => exact halone _
  | 6, _ => exact halone _
  | 7, _ => exact .second h
  | 8, _ => exact h.alone .stop

/-- A call or a property name more. -/
theorem derives_suffix
    {xs ys : List Token}
    (hfront : Derives (.rule .call) xs)
    (hsuffix : Derives
      (.alt (inOrder (mark .leftParen) [.opt (.rule .arguments), mark .rightParen])
        (.seq (mark .dot) name)) ys) :
    Derives (.rule .call) (xs ++ ys) := by
  cases hfront with
  | rule hfront =>
      cases hfront with
      | seq hprimary hothers =>
          rw [List.append_assoc]
          exact .rule (.seq hprimary (hothers.star_snoc hsuffix))

theorem derives_literal
    {t : Token}
    {value : Literal}
    (h : literalOf? t = some value) :
    Derives (.rule .primary) [t] := by
  refine .rule ?_
  rcases kind_of_literal h with h | h | h | h | h
  · exact .second (.second (.second (.first (.token t h))))
  · exact .second (.second (.first (.token t h)))
  · exact .second (.second (.second (.second (.first (.token t h)))))
  · exact .first (.token t h)
  · exact .second (.first (.token t h))

theorem derives_sign
    {t : Token}
    (h : t.kind ∈ signKinds) :
    Derives (oneOf (mark .bang) [mark .minus]) [t] := by
  simp only [signKinds, List.mem_cons, List.not_mem_nil, or_false] at h
  rcases h with h | h
  · exact .first (.token t h)
  · exact .second (.token t h)

mutual

/-- A reading of an expression is a derivation from the rule of its rank. -/
theorem ExprReads.derives :
    ∀ {rank i j : Nat} {ts : List Token} {e : Expr},
      ExprReads rank i ts e j → Derives (.rule (rankRule rank)) ts
  | _, _, _, _, _, .literal _ _ _ hvalue => derives_literal hvalue
  | _, _, _, _, _, .var _ name hname => by
      refine .rule ?_
      exact .second (.second (.second (.second (.second (.second (.first (.token name hname)))))))
  | _, _, _, _, _, .this _ keyword hkeyword => by
      refine .rule ?_
      exact .second (.second (.second (.second (.second (.first (.token keyword hkeyword))))))
  | _, _, _, _, _, .super _ keyword dot method hkeyword hdot hmethod => by
      have haccess : Derives (inOrder (word .super) [mark .dot, name]) [keyword, dot, method] :=
        .cons keyword hkeyword (.cons dot hdot (.token method hmethod))
      refine .rule ?_
      exact .second (.second (.second (.second (.second (.second (.second (.second haccess)))))))
  | _, _, _, _, _, @ExprReads.grouping _ _ ts _ left right hleft hinner hright => by
      have hgroup : Derives
          (inOrder (mark .leftParen) [.rule .expression, mark .rightParen])
          (left :: (ts ++ [right])) :=
        .cons left hleft (.seq (.rule hinner.derives) (.token right hright))
      refine .rule ?_
      exact .second (.second (.second (.second (.second (.second (.second (.first hgroup)))))))
  | _, _, _, _, _, .callNone left right hcallee hleft hright => by
      refine derives_suffix hcallee.derives (.first ?_)
      exact .cons left hleft (.without (.token right hright))
  | _, _, _, _, _, .call left right hcallee hleft harguments hlimit hright => by
      refine derives_suffix hcallee.derives (.first ?_)
      have hlist : Derives (.rule .arguments) _ := .rule (harguments.derives hlimit)
      exact .cons left hleft (.seq (.present hlist) (.token right hright))
  | _, _, _, _, _, .get dot name hobject hdot hname => by
      refine derives_suffix hobject.derives (.second ?_)
      exact .cons dot hdot (.token name hname)
  | _, _, _, _, _, .unary sign hsign hoperand => by
      refine .rule ?_
      exact .first (.seq (derives_sign hsign) hoperand.derives)
  | _, _, _, _, _, .operation _ hleft hoperator hright =>
      derives_operation hleft.derives hoperator hright.derives
  | _, _, _, _, _, .assign name equals hname hequals hvalue => by
      refine .rule (.first ?_)
      exact .without (.cons name hname (.cons equals hequals hvalue.derives))
  | _, _, _, _, _, .set dot name equals hobject hdot hname hequals hvalue => by
      have htarget := Derives.seq hobject.derives (Derives.token dot hdot)
      have hwhole := Derives.seq htarget.present
        (Derives.cons name hname (Derives.cons equals hequals hvalue.derives))
      refine .rule (.first ?_)
      rw [List.append_assoc] at hwhole
      exact hwhole
  | _, _, _, _, _, .looser hrank h =>
      derives_looser hrank h.derives

/-- A list of arguments within the limit is a derivation. -/
theorem ArgumentsRead.derives :
    ∀ {i j : Nat} {ts : List Token} {arguments : List Expr},
      ArgumentsRead i ts arguments j →
      ∀ ⦃limit : Nat⦄, arguments.length ≤ limit →
      Derives
        (.seq (.rule .expression) (.upTo (limit - 1) (.seq (mark .comma) (.rule .expression)))) ts
  | _, _, _, _, .one hfirst => by
      intro limit _
      exact Derives.alone (.rule hfirst.derives) (.stopBelow _)
  | _, _, _, _, @ArgumentsRead.more _ _ _ _ _ _ rest comma hfirst hcomma hothers => by
      intro limit hlimit
      obtain ⟨limit, rfl⟩ : ∃ k, limit = k + 2 := ⟨limit - 2, by
        cases hothers <;> simp at hlimit <;> omega⟩
      have hlimit' : rest.length ≤ limit + 1 := by
        simpa using hlimit
      cases hothers.derives hlimit' with
      | seq hnext hmore =>
          exact .seq (.rule hfirst.derives) (.moreBelow (.cons comma hcomma hnext) hmore)

end

theorem NamesRead.derives
    {ts params : List Token}
    (h : NamesRead ts params)
    {limit : Nat}
    (hlimit : params.length ≤ limit) :
    Derives (.seq name (.upTo (limit - 1) (.seq (mark .comma) name))) ts := by
  induction h generalizing limit with
  | one first hfirst =>
      exact Derives.alone (.token first hfirst) (.stopBelow _)
  | @more ts rest first comma hfirst hcomma hothers ih =>
      obtain ⟨limit, rfl⟩ : ∃ k, limit = k + 2 := ⟨limit - 2, by
        cases hothers <;> simp at hlimit <;> omega⟩
      have hlimit' : rest.length ≤ limit + 1 := by
        simpa using hlimit
      cases ih hlimit' with
      | seq hnext hmore =>
          exact .cons first hfirst (.moreBelow (.cons comma hcomma hnext) hmore)

theorem ParamsRead.derives
    {ts params : List Token}
    (h : ParamsRead ts params) :
    Derives (.opt (.rule .parameters)) ts := by
  cases h with
  | none =>
      exact .absent
  | some hnames hlimit =>
      exact .present (.rule (hnames.derives hlimit))

theorem ExprReads.derives_expression
    {i j : Nat}
    {ts : List Token}
    {e : Expr}
    (h : ExprReads 0 i ts e j) :
    Derives (.rule .expression) ts := by
  exact .rule h.derives

theorem OptionReads.derives
    {i j : Nat}
    {ts : List Token}
    {value : Option Expr}
    (h : OptionReads i ts value j) :
    Derives (.opt (.rule .expression)) ts := by
  cases h with
  | none =>
      exact .absent
  | some he =>
      exact .present he.derives_expression

theorem VariableReads.derives
    {i j : Nat}
    {ts : List Token}
    {s : Stmt}
    (h : VariableReads i ts s j) :
    Derives (.rule .varDecl) ts := by
  refine .rule ?_
  cases h with
  | plain keyword name semicolon hkeyword hname hsemicolon =>
      exact .cons keyword hkeyword (.cons name hname (.without (.token semicolon hsemicolon)))
  | initialized keyword name equals semicolon hkeyword hname hequals he hsemicolon =>
      have hvalue := (Derives.cons equals hequals he.derives_expression).present
      exact .cons keyword hkeyword
        (.cons name hname (hvalue.seq (.token semicolon hsemicolon)))

theorem ExpressionStatementReads.derives
    {i j : Nat}
    {ts : List Token}
    {s : Stmt}
    (h : ExpressionStatementReads i ts s j) :
    Derives (.rule .exprStmt) ts := by
  cases h with
  | mk semicolon he hsemicolon =>
      exact .rule (.seq he.derives_expression (.token semicolon hsemicolon))

theorem FirstReads.derives
    {i j : Nat}
    {ts : List Token}
    {first : Option Stmt}
    (h : FirstReads i ts first j) :
    Derives (oneOf (.rule .varDecl) [.rule .exprStmt, mark .semicolon]) ts := by
  cases h with
  | none semicolon hsemicolon =>
      exact .second (.second (.token semicolon hsemicolon))
  | var hvar =>
      exact .first hvar.derives
  | expression hexpression =>
      exact .second (.first hexpression.derives)

theorem ParentReads.derives
    {i j : Nat}
    {ts : List Token}
    {parent : Option Expr}
    (h : ParentReads i ts parent j) :
    Derives (.opt (.seq (mark .less) name)) ts := by
  cases h with
  | none =>
      exact .absent
  | some less name hless hname =>
      exact .present (.cons less hless (.token name hname))

mutual

theorem StmtReads.derives :
    ∀ {isOpen : Bool} {i j : Nat} {ts : List Token} {s : Stmt},
      StmtReads isOpen i ts s j → Derives (.rule .statement) ts
  | _, _, _, _, _, .expression h => .rule (.first h.derives)
  | _, _, _, _, _, .print keyword semicolon hkeyword he hsemicolon => by
      have hprint : Derives (.rule .printStmt) _ :=
        .rule (.cons keyword hkeyword
          (.seq he.derives_expression (.token semicolon hsemicolon)))
      exact .rule (.second (.second (.second (.first hprint))))
  | _, _, _, _, _, .ret keyword semicolon hkeyword hvalue hsemicolon => by
      have hreturn : Derives (.rule .returnStmt) _ :=
        .rule (.cons keyword hkeyword (.seq hvalue.derives (.token semicolon hsemicolon)))
      exact .rule (.second (.second (.second (.second (.first hreturn)))))
  | _, _, _, _, _, .block hblock =>
      .rule (.second (.second (.second (.second (.second (.second hblock.derives))))))
  | _, _, _, _, _, .ifThen keyword left right hkeyword hleft hcondition hright hbranch => by
      have hif : Derives (.rule .ifStmt) _ :=
        .rule (.cons keyword hkeyword (.cons left hleft
          (.seq hcondition.derives_expression
            (.cons right hright (hbranch.derives.alone .absent)))))
      exact .rule (.second (.second (.first hif)))
  | _, _, _, _, _, .ifElse keyword left right other hkeyword hleft hcondition hright hfirst
      hother hsecond => by
      have helse := (Derives.cons other hother hsecond.derives).present
      have hif : Derives (.rule .ifStmt) _ :=
        .rule (.cons keyword hkeyword (.cons left hleft
          (.seq hcondition.derives_expression
            (.cons right hright (.seq hfirst.derives helse)))))
      exact .rule (.second (.second (.first hif)))
  | _, _, _, _, _, .loop keyword left right hkeyword hleft hcondition hright hbody => by
      have hwhile : Derives (.rule .whileStmt) _ :=
        .rule (.cons keyword hkeyword (.cons left hleft
          (.seq hcondition.derives_expression (.cons right hright hbody.derives))))
      exact .rule (.second (.second (.second (.second (.second (.first hwhile))))))
  | _, _, _, _, _, .forLoop keyword left semicolon right hkeyword hleft hfirst hcondition
      hsemicolon hincrement hright hbody => by
      have hclauses := Derives.seq hincrement.derives (.cons right hright hbody.derives)
      have hfor : Derives (.rule .forStmt) _ :=
        .rule (.cons keyword hkeyword (.cons left hleft
          (.seq hfirst.derives (.seq hcondition.derives (.cons semicolon hsemicolon hclauses)))))
      exact .rule (.second (.first hfor))

theorem DeclReads.derives :
    ∀ {i j : Nat} {ts : List Token} {s : Stmt},
      DeclReads i ts s j → Derives (.rule .declaration) ts
  | _, _, _, _, .classDecl keyword name left right hkeyword hname hparent hleft hmethods
      hright => by
      have hbody := Derives.cons left hleft (.seq hmethods.derives (.token right hright))
      have hclass : Derives (.rule .classDecl) _ :=
        .rule (.cons keyword hkeyword (.cons name hname (.seq hparent.derives hbody)))
      exact .rule (.first hclass)
  | _, _, _, _, .function keyword hkeyword hfunction =>
      .rule (.second (.first (.rule (.cons keyword hkeyword hfunction.derives))))
  | _, _, _, _, .var hvar => .rule (.second (.second (.first hvar.derives)))
  | _, _, _, _, .statement hstatement =>
      .rule (.second (.second (.second hstatement.derives)))

theorem DeclsRead.derives :
    ∀ {i j : Nat} {ts : List Token} {body : List Stmt},
      DeclsRead i ts body j → Derives (.star (.rule .declaration)) ts
  | _, _, _, _, .nil _ => .stop
  | _, _, _, _, .cons hfirst hothers => .more hfirst.derives hothers.derives

theorem BlockReads.derives :
    ∀ {i j : Nat} {ts : List Token} {body : List Stmt},
      BlockReads i ts body j → Derives (.rule .block) ts
  | _, _, _, _, .mk left right hleft hbody hright =>
      .rule (.cons left hleft (.seq hbody.derives (.token right hright)))

theorem FunctionReads.derives :
    ∀ {i j : Nat} {ts : List Token} {decl : FunctionDecl},
      FunctionReads i ts decl j → Derives (.rule .function) ts
  | _, _, _, _, .mk name left right hname hleft hparams hright hbody =>
      .rule (.cons name hname (.cons left hleft
        (.seq hparams.derives (.cons right hright hbody.derives))))

theorem MethodsRead.derives :
    ∀ {i j : Nat} {ts : List Token} {methods : List FunctionDecl},
      MethodsRead i ts methods j → Derives (.star (.rule .function)) ts
  | _, _, _, _, .nil _ => .stop
  | _, _, _, _, .cons hfirst hothers => .more hfirst.derives hothers.derives

end

/-- A token list is read as a program without faults if and only if it is derived from the rule for
programs, and as an expression if and only if it is derived from the rule for expressions. -/
theorem accepts_iff_derives
    (ts : List Token)
    (endLine : Nat) :
    ((Grammar.readProgram ts endLine).errors = [] ↔ Derives (.rule .program) ts) ∧
      (((Grammar.readExpression ts endLine).result.isSome = true ∧
          (Grammar.readExpression ts endLine).errors = []) ↔
        Derives (.rule .expression) ts) := by
  refine ⟨⟨?_, ?_⟩, ⟨?_, ?_⟩⟩
  · intro herrors
    exact .rule (reads_of_readProgram herrors).derives
  · intro hderives
    obtain ⟨body, j, hreads⟩ := hderives.meaning 0
    rw [hreads.readProgram endLine]
  · rintro ⟨-, herrors⟩
    obtain ⟨e, -, hreads⟩ := reads_of_readExpression herrors
    exact hreads.derives_expression
  · intro hderives
    obtain ⟨e, j, hreads⟩ := hderives.meaning 0
    rw [hreads.readExpression endLine]
    exact ⟨rfl, rfl⟩

end Grammar
end Lox
