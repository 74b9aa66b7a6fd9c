import Lox.Proofs.Grammar.Spelling

/-!
# Reading undoes spelling

Every spelling of a shaped and ranked tree has that tree as its reading, provided that the references
in the tree are numbered in order.  Since parsers read what readings tell them to, they give back
the tree that was spelled: its structure, its tokens, its literals and its numbers.
-/

namespace Lox

namespace Numbered

theorem append_iff
    {i : Nat}
    {xs ys : List Nat} :
    Numbered i (xs ++ ys) ↔ Numbered i xs ∧ Numbered (i + xs.length) ys := by
  unfold Numbered
  rw [List.length_append, ← List.range'_append_1]
  constructor
  · intro h
    exact List.append_inj h (by simp)
  · rintro ⟨hx, hy⟩
    rw [← hx, ← hy]

theorem single_iff
    {i id : Nat} :
    Numbered i [id] ↔ id = i := by
  simp [Numbered]

theorem cons_iff
    {i id : Nat}
    {ids : List Nat} :
    Numbered i (id :: ids) ↔ id = i ∧ Numbered (i + 1) ids := by
  rw [← List.singleton_append, append_iff, single_iff]
  simp

end Numbered

namespace Grammar

open Lox.Parser

theorem ExprReads.loosen
    {rank tighter i j : Nat}
    {ts : List Token}
    {e : Expr}
    (h : ExprReads tighter i ts e j)
    (hle : rank ≤ tighter)
    (hrank : tighter ≤ 9) :
    ExprReads rank i ts e j := by
  induction tighter with
  | zero =>
      rw [Nat.le_zero.mp hle]
      exact h
  | succ tighter ih =>
      rcases Nat.lt_or_eq_of_le hle with hlt | rfl
      · exact ih (.looser (by omega) h) (by omega) (by omega)
      · exact h

theorem mem_operatorKinds_of_binary
    {kind : Token.Kind}
    (h : kind ∈ binaryKinds) :
    kind ∈ operatorKinds (operatorRank kind) ∧ 2 < operatorRank kind := by
  simp only [binaryKinds, List.mem_cons, List.not_mem_nil, or_false] at h
  rcases h with rfl | rfl | rfl | rfl | rfl | rfl | rfl | rfl | rfl | rfl <;> decide

theorem mem_operatorKinds_of_logical
    {kind : Token.Kind}
    (h : kind ∈ logicalKinds) :
    kind ∈ operatorKinds (operatorRank kind) ∧ operatorRank kind ≤ 2 := by
  simp only [logicalKinds, List.mem_cons, List.not_mem_nil, or_false] at h
  rcases h with rfl | rfl <;> decide

theorem operatorRank_le (kind : Token.Kind) : operatorRank kind ≤ 6 := by
  unfold operatorRank
  split <;> omega

theorem rank_le (e : Expr) : e.rank ≤ 9 := by
  unfold Expr.rank
  split
  · omega
  · omega
  · exact Nat.le_trans (operatorRank_le _) (by omega)
  · exact Nat.le_trans (operatorRank_le _) (by omega)
  all_goals omega

/-- Two operands with an operator between them, each as tight as its place demands. -/
theorem reads_operation
    {i k j : Nat}
    {xs ys : List Token}
    {left right : Expr}
    {operator : Token}
    (hkind : operator.kind ∈ operatorKinds (operatorRank operator.kind))
    (hleft : ExprReads left.rank i xs left k)
    (hleftRank : operatorRank operator.kind ≤ left.rank)
    (hright : ExprReads right.rank k ys right j)
    (hrightRank : operatorRank operator.kind < right.rank) :
    ExprReads (operatorRank operator.kind) i (xs ++ operator :: ys)
      (operatorNode (operatorRank operator.kind) left operator right) j := by
  exact .operation operator (hleft.loosen hleftRank (rank_le left)) hkind
    (hright.loosen hrightRank (rank_le right))

mutual

/-- The spellings of an expression are read as the expression, at its rank. -/
theorem reads_of_spelled :
    ∀ (e : Expr) ⦃i : Nat⦄ ⦃ts : List Token⦄,
      e.Shaped → e.Ranked → Numbered i e.ids → e.Spelled ts →
      ExprReads e.rank i ts e (i + e.ids.length)
  | .literal value, i, ts, _, _, _, hspelled => by
      obtain ⟨t, hvalue, rfl⟩ := hspelled
      exact .literal i t value hvalue
  | .grouping inner, i, ts, hshaped, hranked, hids, hspelled => by
      obtain ⟨left, xs, right, hleft, hright, hinner, rfl⟩ := hspelled
      have hreads := reads_of_spelled inner hshaped hranked hids hinner
      exact .grouping left right hleft (hreads.loosen (Nat.zero_le _) (rank_le _)) hright
  | .unary operator right, i, ts, hshaped, hranked, hids, hspelled => by
      obtain ⟨xs, hright, rfl⟩ := hspelled
      have hreads := reads_of_spelled right hshaped.2 hranked.2 hids hright
      exact .unary operator hshaped.1 (hreads.loosen hranked.1 (rank_le _))
  | .binary left operator right, i, ts, hshaped, hranked, hids, hspelled => by
      obtain ⟨xs, ys, hxs, hys, rfl⟩ := hspelled
      obtain ⟨hleftShaped, hoperator, hrightShaped⟩ := hshaped
      obtain ⟨hleftRank, hleftRanked, hrightRank, hrightRanked⟩ := hranked
      obtain ⟨hleftIds, hrightIds⟩ := Numbered.append_iff.mp hids
      obtain ⟨hkind, hlow⟩ := mem_operatorKinds_of_binary hoperator
      have hleft := reads_of_spelled left hleftShaped hleftRanked hleftIds hxs
      have hright := reads_of_spelled right hrightShaped hrightRanked hrightIds hys
      have hreads := reads_operation hkind hleft hleftRank hright hrightRank
      rw [operatorNode, if_neg (Nat.not_le.mpr hlow)] at hreads
      simpa only [Expr.rank, Expr.ids, List.length_append, Nat.add_assoc] using hreads
  | .logical left operator right, i, ts, hshaped, hranked, hids, hspelled => by
      obtain ⟨xs, ys, hxs, hys, rfl⟩ := hspelled
      obtain ⟨hleftShaped, hoperator, hrightShaped⟩ := hshaped
      obtain ⟨hleftRank, hleftRanked, hrightRank, hrightRanked⟩ := hranked
      obtain ⟨hleftIds, hrightIds⟩ := Numbered.append_iff.mp hids
      obtain ⟨hkind, hhigh⟩ := mem_operatorKinds_of_logical hoperator
      have hleft := reads_of_spelled left hleftShaped hleftRanked hleftIds hxs
      have hright := reads_of_spelled right hrightShaped hrightRanked hrightIds hys
      have hreads := reads_operation hkind hleft hleftRank hright hrightRank
      rw [operatorNode, if_pos hhigh] at hreads
      simpa only [Expr.rank, Expr.ids, List.length_append, Nat.add_assoc] using hreads
  | .var id name, i, ts, hshaped, _, hids, hspelled => by
      obtain rfl : id = i := Numbered.single_iff.mp hids
      obtain rfl : ts = [name] := hspelled
      exact .var id name hshaped
  | .assign id name value, i, ts, hshaped, hranked, hids, hspelled => by
      obtain ⟨equals, xs, hequals, hvalue, rfl⟩ := hspelled
      obtain ⟨rfl, hrest⟩ := Numbered.cons_iff.mp hids
      have hreads := reads_of_spelled value hshaped.2 hranked hrest hvalue
      have hwhole := ExprReads.assign name equals hshaped.1 hequals
        (hreads.loosen (Nat.zero_le _) (rank_le _))
      simpa only [Expr.rank, Expr.ids, List.length_cons, Nat.add_assoc, Nat.add_comm] using hwhole
  | .call callee paren arguments, i, ts, hshaped, hranked, hids, hspelled => by
      obtain ⟨xs, left, ys, hleft, hcallee, harguments, rfl⟩ := hspelled
      obtain ⟨hcalleeShaped, hparen, hargumentsShaped⟩ := hshaped
      obtain ⟨hrank, hcalleeRanked, hlimit, hargumentsRanked⟩ := hranked
      obtain ⟨hcalleeIds, hargumentsIds⟩ := Numbered.append_iff.mp hids
      have hreads := (reads_of_spelled callee hcalleeShaped hcalleeRanked hcalleeIds
        hcallee).loosen hrank (rank_le _)
      rcases Classical.em (arguments = []) with rfl | hsome
      · obtain rfl : ys = [] := harguments
        simpa only [Expr.rank, Expr.ids, Expr.idsAll, List.append_nil, List.nil_append] using
          ExprReads.callNone left paren hreads hleft hparen
      · have hlist := arguments_of_spelled arguments hsome hargumentsShaped hargumentsRanked
          hargumentsIds harguments
        have hwhole := ExprReads.call left paren hreads hleft hlist hlimit hparen
        simpa only [Expr.rank, Expr.ids, List.length_append, Nat.add_assoc] using hwhole
  | .get object name, i, ts, hshaped, hranked, hids, hspelled => by
      obtain ⟨xs, dot, hdot, hobject, rfl⟩ := hspelled
      have hreads := reads_of_spelled object hshaped.1 hranked.2 hids hobject
      exact .get dot name (hreads.loosen hranked.1 (rank_le _)) hdot hshaped.2
  | .set object name value, i, ts, hshaped, hranked, hids, hspelled => by
      obtain ⟨xs, dot, equals, ys, hdot, hequals, hobject, hvalue, rfl⟩ := hspelled
      obtain ⟨hobjectShaped, hname, hvalueShaped⟩ := hshaped
      obtain ⟨hrank, hobjectRanked, hvalueRanked⟩ := hranked
      obtain ⟨hobjectIds, hvalueIds⟩ := Numbered.append_iff.mp hids
      have hleft := reads_of_spelled object hobjectShaped hobjectRanked hobjectIds hobject
      have hright := reads_of_spelled value hvalueShaped hvalueRanked hvalueIds hvalue
      have hwhole := ExprReads.set dot name equals (hleft.loosen hrank (rank_le _)) hdot hname
        hequals (hright.loosen (Nat.zero_le _) (rank_le _))
      simpa only [Expr.rank, Expr.ids, List.length_append, Nat.add_assoc] using hwhole
  | .this id keyword, i, ts, hshaped, _, hids, hspelled => by
      obtain rfl : id = i := Numbered.single_iff.mp hids
      obtain rfl : ts = [keyword] := hspelled
      exact .this id keyword hshaped
  | .super id keyword method, i, ts, hshaped, _, hids, hspelled => by
      obtain rfl : id = i := Numbered.single_iff.mp hids
      obtain ⟨dot, hdot, rfl⟩ := hspelled
      exact .super id keyword dot method hshaped.1 hdot hshaped.2

/-- The spellings of one or more expressions are read as the expressions. -/
theorem arguments_of_spelled :
    ∀ (arguments : List Expr) ⦃i : Nat⦄ ⦃ts : List Token⦄,
      arguments ≠ [] → Expr.ShapedAll arguments → Expr.RankedAll arguments →
      Numbered i (Expr.idsAll arguments) → Expr.SpelledAll arguments ts →
      ArgumentsRead i ts arguments (i + (Expr.idsAll arguments).length)
  | [], _, _, hsome, _, _, _, _ => absurd rfl hsome
  | [e], i, ts, _, hshaped, hranked, hids, hspelled => by
      simp only [Expr.idsAll, List.append_nil] at hids ⊢
      have hreads := reads_of_spelled e hshaped.1 hranked.1 hids hspelled
      exact .one (hreads.loosen (Nat.zero_le _) (rank_le _))
  | e :: other :: rest, i, ts, _, hshaped, hranked, hids, hspelled => by
      obtain ⟨xs, comma, ys, hcomma, hfirst, hothers, rfl⟩ := hspelled
      obtain ⟨hfirstIds, hothersIds⟩ := Numbered.append_iff.mp hids
      have hreads := reads_of_spelled e hshaped.1 hranked.1 hfirstIds hfirst
      have hlist := arguments_of_spelled (other :: rest) (List.cons_ne_nil _ _) hshaped.2
        hranked.2 hothersIds hothers
      have hwhole := ArgumentsRead.more comma (hreads.loosen (Nat.zero_le _) (rank_le _))
        hcomma hlist
      simpa only [Expr.idsAll, List.length_append, Nat.add_assoc] using hwhole

end

/-- Any spelled expression can stand where an expression can. -/
theorem expression_of_spelled
    {e : Expr}
    {i : Nat}
    {ts : List Token}
    (hshaped : e.Shaped)
    (hranked : e.Ranked)
    (hids : Numbered i e.ids)
    (hspelled : e.Spelled ts) :
    ExprReads 0 i ts e (i + e.ids.length) := by
  exact (reads_of_spelled e hshaped hranked hids hspelled).loosen (Nat.zero_le _) (rank_le e)

theorem option_of_spelled
    {value : Option Expr}
    {i : Nat}
    {ts : List Token}
    (hshaped : Expr.ShapedOption value)
    (hranked : Expr.RankedOption value)
    (hids : Numbered i (Expr.idsOption value))
    (hspelled : Expr.SpelledOption value ts) :
    OptionReads i ts value (i + (Expr.idsOption value).length) := by
  cases value with
  | none =>
      obtain rfl : ts = [] := hspelled
      exact .none i
  | some e =>
      exact .some (expression_of_spelled hshaped hranked hids hspelled)

theorem parent_of_spelled
    {parent : Option Expr}
    {i : Nat}
    {ts : List Token}
    (hparent : Expr.VariableOption parent)
    (hids : Numbered i (Expr.idsOption parent))
    (hspelled : Stmt.SpelledParent parent ts) :
    ParentReads i ts parent (i + (Expr.idsOption parent).length) := by
  cases parent with
  | none =>
      obtain rfl : ts = [] := hspelled
      exact .none i
  | some e =>
      obtain ⟨less, xs, hless, hxs, rfl⟩ := hspelled
      cases e with
      | var id name =>
          obtain rfl : id = i := Numbered.single_iff.mp hids
          obtain rfl : xs = [name] := hxs
          exact .some id less name hless hparent
      | _ =>
          exact hparent.elim

theorem names_of_spelled :
    ∀ (first : Token) (rest : List Token) ⦃ts : List Token⦄,
      (∀ p ∈ first :: rest, p.kind = .identifier) → SpelledNames (first :: rest) ts →
      NamesRead ts (first :: rest)
  | first, [], ts, hkinds, hspelled => by
      obtain rfl : ts = [first] := hspelled
      exact .one first (hkinds first List.mem_cons_self)
  | first, second :: rest, ts, hkinds, hspelled => by
      obtain ⟨comma, xs, hcomma, hothers, rfl⟩ := hspelled
      have hlist := names_of_spelled second rest
        (fun p hp => hkinds p (List.mem_cons_of_mem _ hp)) hothers
      exact .more first comma (hkinds first List.mem_cons_self) hcomma hlist

theorem params_of_spelled
    {params ts : List Token}
    (hkinds : ∀ p ∈ params, p.kind = .identifier)
    (hlimit : params.length ≤ maxArity)
    (hspelled : SpelledNames params ts) :
    ParamsRead ts params := by
  cases params with
  | nil =>
      obtain rfl : ts = [] := hspelled
      exact .none
  | cons first rest =>
      exact .some (names_of_spelled first rest hkinds hspelled) hlimit

/-- What the spellings of a declaration or statement are read as.  A statement that can be a branch
is also read as a statement, open or not as it is itself. -/
def SpellingRead (i : Nat) (ts : List Token) (s : Stmt) (j : Nat) : Prop :=
  DeclReads i ts s j ∧ (s.isBranch = true → StmtReads s.isOpen i ts s j)

theorem SpellingRead.statement
    {i j : Nat}
    {ts : List Token}
    {s : Stmt}
    (h : StmtReads s.isOpen i ts s j) :
    SpellingRead i ts s j := by
  exact ⟨.statement h, fun _ => h⟩

mutual

theorem statement_of_spelled :
    ∀ (s : Stmt) ⦃i : Nat⦄ ⦃ts : List Token⦄,
      s.Shaped → s.Ranked → Numbered i s.ids → s.Spelled ts →
      SpellingRead i ts s (i + s.ids.length)
  | .expression e, i, ts, hshaped, hranked, hids, hspelled => by
      obtain ⟨xs, semicolon, hsemicolon, he, rfl⟩ := hspelled
      have hreads := expression_of_spelled hshaped hranked hids he
      exact .statement (.expression (.mk semicolon hreads hsemicolon))
  | .print e, i, ts, hshaped, hranked, hids, hspelled => by
      obtain ⟨keyword, xs, semicolon, hkeyword, hsemicolon, he, rfl⟩ := hspelled
      have hreads := expression_of_spelled hshaped hranked hids he
      exact .statement (.print keyword semicolon hkeyword hreads hsemicolon)
  | .var name none, i, ts, hshaped, _, _, hspelled => by
      obtain ⟨keyword, semicolon, hkeyword, hsemicolon, rfl⟩ := hspelled
      refine ⟨?_, by simp [Stmt.isBranch]⟩
      exact .var (.plain i keyword name semicolon hkeyword hshaped.1 hsemicolon)
  | .var name (some e), i, ts, hshaped, hranked, hids, hspelled => by
      obtain ⟨keyword, equals, xs, semicolon, hkeyword, hequals, hsemicolon, he, rfl⟩ := hspelled
      have hreads := expression_of_spelled hshaped.2 hranked hids he
      refine ⟨?_, by simp [Stmt.isBranch]⟩
      exact .var (.initialized keyword name equals semicolon hkeyword hshaped.1 hequals hreads
        hsemicolon)
  | .block body, i, ts, hshaped, hranked, hids, hspelled => by
      obtain ⟨left, xs, right, hleft, hright, hbody, rfl⟩ := hspelled
      have hreads := declarations_of_spelled body hshaped hranked hids hbody
      exact .statement (.block (.mk left right hleft hreads hright))
  | .ifThen condition thenBranch, i, ts, hshaped, hranked, hids, hspelled => by
      obtain ⟨keyword, left, cs, right, xs, hkeyword, hleft, hright, hcs, hxs, rfl⟩ := hspelled
      obtain ⟨hconditionShaped, hbranch, hbranchShaped⟩ := hshaped
      obtain ⟨hconditionIds, hbranchIds⟩ := Numbered.append_iff.mp hids
      have hcondition := expression_of_spelled hconditionShaped hranked.1 hconditionIds hcs
      have hthen := (statement_of_spelled thenBranch hbranchShaped hranked.2 hbranchIds hxs).2
        hbranch
      have hwhole := StmtReads.ifThen keyword left right hkeyword hleft hcondition hright hthen
      refine .statement ?_
      simpa only [Stmt.isOpen, Stmt.ids, List.length_append, Nat.add_assoc] using hwhole
  | .ifElse condition thenBranch elseBranch, i, ts, hshaped, hranked, hids, hspelled => by
      obtain ⟨keyword, left, cs, right, xs, other, ys, hkeyword, hleft, hright, hother, hcs, hxs,
        hys, rfl⟩ := hspelled
      obtain ⟨hconditionShaped, hthenBranch, hthenShaped, helseBranch, helseShaped⟩ := hshaped
      obtain ⟨hconditionRanked, hclosed, hthenRanked, helseRanked⟩ := hranked
      obtain ⟨hconditionIds, hbranchIds⟩ := Numbered.append_iff.mp hids
      obtain ⟨hthenIds, helseIds⟩ := Numbered.append_iff.mp hbranchIds
      have hcondition := expression_of_spelled hconditionShaped hconditionRanked hconditionIds hcs
      have hthen := (statement_of_spelled thenBranch hthenShaped hthenRanked hthenIds hxs).2
        hthenBranch
      have helse := (statement_of_spelled elseBranch helseShaped helseRanked helseIds hys).2
        helseBranch
      -- a closed branch in front of the `else`
      rw [hclosed] at hthen
      have hwhole := StmtReads.ifElse keyword left right other hkeyword hleft hcondition hright
        hthen hother helse
      refine .statement ?_
      simpa only [Stmt.isOpen, Stmt.ids, List.length_append, Nat.add_assoc] using hwhole
  | .loop condition body, i, ts, hshaped, hranked, hids, hspelled => by
      obtain ⟨keyword, left, cs, right, xs, hkeyword, hleft, hright, hcs, hxs, rfl⟩ := hspelled
      obtain ⟨hconditionShaped, hbranch, hbodyShaped⟩ := hshaped
      obtain ⟨hconditionIds, hbodyIds⟩ := Numbered.append_iff.mp hids
      have hcondition := expression_of_spelled hconditionShaped hranked.1 hconditionIds hcs
      have hbody := (statement_of_spelled body hbodyShaped hranked.2 hbodyIds hxs).2 hbranch
      have hwhole := StmtReads.loop keyword left right hkeyword hleft hcondition hright hbody
      refine .statement ?_
      simpa only [Stmt.isOpen, Stmt.ids, List.length_append, Nat.add_assoc] using hwhole
  | .function decl, i, ts, hshaped, hranked, hids, hspelled => by
      obtain ⟨keyword, xs, hkeyword, hxs, rfl⟩ := hspelled
      have hreads := function_of_spelled decl hshaped hranked hids hxs
      exact ⟨.function keyword hkeyword hreads, by simp [Stmt.isBranch]⟩
  | .ret keyword value, i, ts, hshaped, hranked, hids, hspelled => by
      obtain ⟨xs, semicolon, hsemicolon, hvalue, rfl⟩ := hspelled
      have hreads := option_of_spelled hshaped.2 hranked hids hvalue
      exact .statement (.ret keyword semicolon hshaped.1 hreads hsemicolon)
  | .classDecl name parent methods, i, ts, hshaped, hranked, hids, hspelled => by
      obtain ⟨keyword, ps, left, ms, right, hkeyword, hleft, hright, hps, hms, rfl⟩ := hspelled
      obtain ⟨hname, hparent, hmethods⟩ := hshaped
      obtain ⟨hparentIds, hmethodsIds⟩ := Numbered.append_iff.mp hids
      have hfirst := parent_of_spelled hparent hparentIds hps
      have hothers := methods_of_spelled methods hmethods hranked hmethodsIds hms
      have hwhole := DeclReads.classDecl keyword name left right hkeyword hname hfirst hleft
        hothers hright
      refine ⟨?_, by simp [Stmt.isBranch]⟩
      simpa only [Stmt.ids, List.length_append, Nat.add_assoc] using hwhole

theorem declarations_of_spelled :
    ∀ (body : List Stmt) ⦃i : Nat⦄ ⦃ts : List Token⦄,
      Stmt.ShapedAll body → Stmt.RankedAll body → Numbered i (Stmt.idsAll body) →
      Stmt.SpelledAll body ts → DeclsRead i ts body (i + (Stmt.idsAll body).length)
  | [], i, ts, _, _, _, hspelled => by
      obtain rfl : ts = [] := hspelled
      exact .nil i
  | s :: rest, i, ts, hshaped, hranked, hids, hspelled => by
      obtain ⟨xs, ys, hxs, hys, rfl⟩ := hspelled
      obtain ⟨hfirstIds, hothersIds⟩ := Numbered.append_iff.mp hids
      have hfirst := (statement_of_spelled s hshaped.1 hranked.1 hfirstIds hxs).1
      have hothers := declarations_of_spelled rest hshaped.2 hranked.2 hothersIds hys
      simpa only [Stmt.idsAll, List.length_append, Nat.add_assoc] using
        DeclsRead.cons hfirst hothers

theorem function_of_spelled :
    ∀ (decl : FunctionDecl) ⦃i : Nat⦄ ⦃ts : List Token⦄,
      Stmt.ShapedFunction decl → Stmt.RankedFunction decl → Numbered i (Stmt.idsFunction decl) →
      Stmt.SpelledFunction decl ts → FunctionReads i ts decl (i + (Stmt.idsFunction decl).length)
  | .mk name params body, i, ts, hshaped, hranked, hids, hspelled => by
      obtain ⟨left, ps, right, brace, xs, close, hleft, hright, hbrace, hclose, hps, hxs, rfl⟩ :=
        hspelled
      obtain ⟨hname, hkinds, hbodyShaped⟩ := hshaped
      have hbody := declarations_of_spelled body hbodyShaped hranked.2 hids hxs
      exact .mk name left right hname hleft (params_of_spelled hkinds hranked.1 hps) hright
        (.mk brace close hbrace hbody hclose)

theorem methods_of_spelled :
    ∀ (methods : List FunctionDecl) ⦃i : Nat⦄ ⦃ts : List Token⦄,
      Stmt.ShapedFunctions methods → Stmt.RankedFunctions methods →
      Numbered i (Stmt.idsFunctions methods) → Stmt.SpelledFunctions methods ts →
      MethodsRead i ts methods (i + (Stmt.idsFunctions methods).length)
  | [], i, ts, _, _, _, hspelled => by
      obtain rfl : ts = [] := hspelled
      exact .nil i
  | f :: rest, i, ts, hshaped, hranked, hids, hspelled => by
      obtain ⟨xs, ys, hxs, hys, rfl⟩ := hspelled
      obtain ⟨hfirstIds, hothersIds⟩ := Numbered.append_iff.mp hids
      have hfirst := function_of_spelled f hshaped.1 hranked.1 hfirstIds hxs
      have hothers := methods_of_spelled rest hshaped.2 hranked.2 hothersIds hys
      simpa only [Stmt.idsFunctions, List.length_append, Nat.add_assoc] using
        MethodsRead.cons hfirst hothers

end

/-- An operand of any operator, and a spelling of it. -/
structure Operand (e : Expr) (ts : List Token) : Prop where
  shaped : e.Shaped
  ranked : e.Ranked
  tight : 7 ≤ e.rank
  spelled : e.Spelled ts

/-- An expression that stands for the tokens with which it is paired. -/
structure Joined (e : Expr) (ts : List Token) (rank : Nat) : Prop where
  shaped : e.Shaped
  ranked : e.Ranked
  rank_eq : e.rank = rank
  spelled : e.Spelled ts

/-- An operator between two operands that are as tight as their places demand. -/
theorem joined_operatorNode
    {left right : Expr}
    {operator : Token}
    {xs ys : List Token}
    (hkind : operator.kind ∈ binaryKinds ++ logicalKinds)
    (hleft : left.Shaped ∧ left.Ranked ∧ left.Spelled xs)
    (hleftRank : operatorRank operator.kind ≤ left.rank)
    (hright : right.Shaped ∧ right.Ranked ∧ right.Spelled ys)
    (hrightRank : operatorRank operator.kind < right.rank) :
    Joined (operatorNode (operatorRank operator.kind) left operator right)
      (xs ++ operator :: ys) (operatorRank operator.kind) := by
  obtain ⟨hleftShaped, hleftRanked, hxs⟩ := hleft
  obtain ⟨hrightShaped, hrightRanked, hys⟩ := hright
  rcases List.mem_append.mp hkind with hbinary | hlogical
  · have hlow := (mem_operatorKinds_of_binary hbinary).2
    rw [operatorNode, if_neg (Nat.not_le.mpr hlow)]
    exact ⟨⟨hleftShaped, hbinary, hrightShaped⟩,
      ⟨hleftRank, hleftRanked, hrightRank, hrightRanked⟩, rfl, xs, ys, hxs, hys, rfl⟩
  · have hhigh := (mem_operatorKinds_of_logical hlogical).2
    rw [operatorNode, if_pos hhigh]
    exact ⟨⟨hleftShaped, hlogical, hrightShaped⟩,
      ⟨hleftRank, hleftRanked, hrightRank, hrightRanked⟩, rfl, xs, ys, hxs, hys, rfl⟩

theorem ids_operatorNode
    (rank : Nat)
    (left right : Expr)
    (operator : Token) :
    (operatorNode rank left operator right).ids = left.ids ++ right.ids := by
  unfold operatorNode
  split <;> rfl

/-- Two operators between three operands: the tighter one takes the operand in the middle, and of
two on one level the first one does. -/
def nestTwo (a : Expr) (first : Token) (b : Expr) (second : Token) (c : Expr) : Expr :=
  if operatorRank second.kind ≤ operatorRank first.kind then
    operatorNode (operatorRank second.kind)
      (operatorNode (operatorRank first.kind) a first b) second c
  else
    operatorNode (operatorRank first.kind) a first
      (operatorNode (operatorRank second.kind) b second c)

theorem ids_nestTwo
    (a b c : Expr)
    (first second : Token) :
    (nestTwo a first b second c).ids = a.ids ++ (b.ids ++ c.ids) := by
  unfold nestTwo
  split <;> simp [ids_operatorNode]

theorem nestTwo_spelled
    {a b c : Expr}
    {first second : Token}
    {xs ys zs : List Token}
    (hfirst : first.kind ∈ binaryKinds ++ logicalKinds)
    (hsecond : second.kind ∈ binaryKinds ++ logicalKinds)
    (ha : Operand a xs)
    (hb : Operand b ys)
    (hc : Operand c zs) :
    (nestTwo a first b second c).Shaped ∧ (nestTwo a first b second c).Ranked ∧
      (nestTwo a first b second c).Spelled (xs ++ first :: (ys ++ second :: zs)) := by
  have hlow := operatorRank_le first.kind
  have hlow' := operatorRank_le second.kind
  have htightA := ha.tight
  have htightB := hb.tight
  have htightC := hc.tight
  unfold nestTwo
  split
  · rename_i hle
    have hinner := joined_operatorNode hfirst ⟨ha.shaped, ha.ranked, ha.spelled⟩ (by omega)
      ⟨hb.shaped, hb.ranked, hb.spelled⟩ (by omega)
    have houter := joined_operatorNode hsecond
      ⟨hinner.shaped, hinner.ranked, hinner.spelled⟩ (by rw [hinner.rank_eq]; exact hle)
      ⟨hc.shaped, hc.ranked, hc.spelled⟩ (by omega)
    refine ⟨houter.shaped, houter.ranked, ?_⟩
    simpa using houter.spelled
  · rename_i hlt
    have hinner := joined_operatorNode hsecond ⟨hb.shaped, hb.ranked, hb.spelled⟩ (by omega)
      ⟨hc.shaped, hc.ranked, hc.spelled⟩ (by omega)
    have houter := joined_operatorNode hfirst ⟨ha.shaped, ha.ranked, ha.spelled⟩ (by omega)
      ⟨hinner.shaped, hinner.ranked, hinner.spelled⟩ (by rw [hinner.rank_eq]; omega)
    exact ⟨houter.shaped, houter.ranked, houter.spelled⟩

theorem readExpression_of_spelled
    {e : Expr}
    {ts : List Token}
    (endLine : Nat)
    (hshaped : e.Shaped)
    (hranked : e.Ranked)
    (hids : Numbered 0 e.ids)
    (hspelled : e.Spelled ts) :
    Grammar.readExpression ts endLine = ⟨some e, [], e.ids.length⟩ := by
  have hreads := expression_of_spelled hshaped hranked hids hspelled
  rw [hreads.readExpression endLine, Nat.zero_add]

/-- Reading gives back every program that was spelled, with its tokens, literals and numbers.  So
of two operators the tighter one binds first, operators on one level lean to the left, and
assignments lean to the right. -/
theorem read_spelling
    (endLine : Nat) :
    (∀ (statements : List Stmt) (ts : List Token),
      Stmt.ShapedAll statements → Stmt.RankedAll statements →
      Numbered 0 (Stmt.idsAll statements) → Stmt.SpelledAll statements ts →
      Grammar.readProgram ts endLine =
        ⟨statements, [], (Stmt.idsAll statements).length⟩) ∧
    (∀ (a b c : Expr) (first second : Token) (xs ys zs : List Token),
      first.kind ∈ binaryKinds ++ logicalKinds → second.kind ∈ binaryKinds ++ logicalKinds →
      Operand a xs → Operand b ys → Operand c zs → Numbered 0 (a.ids ++ (b.ids ++ c.ids)) →
      Grammar.readExpression (xs ++ first :: (ys ++ second :: zs)) endLine =
        ⟨some (nestTwo a first b second c), [], (a.ids ++ (b.ids ++ c.ids)).length⟩) ∧
    (∀ (outer inner : Token) (equals other : Token) (value : Expr) (ts : List Token),
      outer.kind = .identifier → inner.kind = .identifier →
      equals.kind = .punct .equal → other.kind = .punct .equal →
      value.Shaped → value.Ranked → Numbered 2 value.ids → value.Spelled ts →
      Grammar.readExpression (outer :: equals :: inner :: other :: ts) endLine =
        ⟨some (.assign 0 outer (.assign 1 inner value)), [], value.ids.length + 2⟩) := by
  refine ⟨?_, ?_, ?_⟩
  · intro statements ts hshaped hranked hids hspelled
    have hreads := declarations_of_spelled statements hshaped hranked hids hspelled
    rw [hreads.readProgram endLine, Nat.zero_add]
  · intro a b c first second xs ys zs hfirst hsecond ha hb hc hids
    obtain ⟨hshaped, hranked, hspelled⟩ := nestTwo_spelled hfirst hsecond ha hb hc
    rw [← ids_nestTwo a b c first second] at hids ⊢
    exact readExpression_of_spelled endLine hshaped hranked hids hspelled
  · intro outer inner equals other value ts houter hinner hequals hother hshaped hranked hids
      hspelled
    refine readExpression_of_spelled (e := .assign 0 outer (.assign 1 inner value)) endLine
      ⟨houter, hinner, hshaped⟩ hranked ?_
      ⟨equals, _, hequals, ⟨other, ts, hother, hspelled, rfl⟩, rfl⟩
    exact Numbered.cons_iff.mpr ⟨rfl, Numbered.cons_iff.mpr ⟨rfl, hids⟩⟩

/-- `if (a) { } else b = -c or d.f(true);` as a program, `a - b - c` and `a = b = null`. -/
theorem read_spelling_else :
    let name (lexeme : String) : Token := ⟨.identifier, lexeme, 1⟩
    let mark (m : Punct) (lexeme : String) : Token := ⟨.punct m, lexeme, 1⟩
    let word (k : Keyword) (lexeme : String) : Token := ⟨.keyword k, lexeme, 1⟩
    Grammar.readProgram
        [word .if_ "if", mark .leftParen "(", name "a", mark .rightParen ")",
          mark .leftBrace "\x7b", mark .rightBrace "\x7d", word .else_ "else", name "b",
          mark .equal "=", mark .minus "-", name "c", word .or "or", name "d", mark .dot ".",
          name "f", mark .leftParen "(", word .true_ "true", mark .rightParen ")",
          mark .semicolon ";"] 1 =
      ⟨[.ifElse (.var 0 (name "a")) (.block [])
          (.expression (.assign 1 (name "b")
            (.logical (.unary (mark .minus "-") (.var 2 (name "c"))) (word .or "or")
              (.call (.get (.var 3 (name "d")) (name "f")) (mark .rightParen ")")
                [.literal (.bool true)]))))], [], 4⟩ ∧
    Grammar.readExpression
        [name "a", mark .minus "-", name "b", mark .minus "-", name "c"] 1 =
      ⟨some (.binary (.binary (.var 0 (name "a")) (mark .minus "-") (.var 1 (name "b")))
        (mark .minus "-") (.var 2 (name "c"))), [], 3⟩ ∧
    Grammar.readExpression
        [name "a", mark .equal "=", name "b", mark .equal "=", word .null "null"] 1 =
      ⟨some (.assign 0 (name "a") (.assign 1 (name "b") (.literal .nil))), [], 2⟩ := by
  intro name mark word
  have operand : ∀ (id : Nat) (lexeme : String), Operand (.var id (name lexeme)) [name lexeme] :=
    fun id lexeme => ⟨rfl, trivial, by simp [Expr.rank], rfl⟩
  refine ⟨?_, ?_, ?_⟩
  · refine (read_spelling 1).1 _ _ ?_ ?_ rfl ?_
    · exact ⟨⟨rfl, rfl, trivial, rfl, rfl, ⟨by decide, rfl⟩, by decide,
        ⟨rfl, rfl⟩, rfl, trivial, trivial⟩, trivial⟩
    · exact ⟨⟨trivial, rfl, trivial, by decide, ⟨by decide, trivial⟩, by decide,
        by decide, ⟨by decide, trivial⟩, by decide, trivial, trivial⟩, trivial⟩
    · exact ⟨_, [], ⟨_, _, _, _, _, _, _, rfl, rfl, rfl, rfl, rfl, ⟨_, [], _, rfl, rfl, rfl, rfl⟩,
        ⟨_, mark .semicolon ";", rfl, ⟨_, _, rfl, ⟨_, _, ⟨_, rfl, rfl⟩,
          ⟨_, mark .leftParen "(", _, rfl, ⟨_, mark .dot ".", rfl, rfl, rfl⟩,
            ⟨word .true_ "true", rfl, rfl⟩, rfl⟩, rfl⟩, rfl⟩, rfl⟩, rfl⟩, rfl, rfl⟩
  · exact (read_spelling 1).2.1 _ _ _ (mark .minus "-") (mark .minus "-") _ _ _ (by decide)
      (by decide) (operand 0 "a") (operand 1 "b") (operand 2 "c") rfl
  · exact (read_spelling 1).2.2 (name "a") (name "b") (mark .equal "=") (mark .equal "=")
      (.literal .nil) [word .null "null"] rfl rfl rfl rfl trivial trivial rfl
      ⟨_, rfl, rfl⟩

end Grammar
end Lox
