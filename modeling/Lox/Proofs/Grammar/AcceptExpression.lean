import Lox.Proofs.Grammar.ReadExpression

/-!
# Accepted expressions have readings

The converse of reading: whenever a parser gives a tree and reports nothing, the tokens it took
have that tree as their reading.  `Ensures` is the judgement for this.  It says nothing of runs that
report a fault, but it does say that reported faults are never taken back, and so a run without
faults is made of runs without faults.
-/

namespace Lox

namespace Parser

/-- Reported faults are never taken back, and whenever the parser gives something without reporting
a fault, `R` ties where it started, what it gave and where it stopped. -/
def Ensures {α : Type} (p : Parser α) (R : State → α → State → Prop) : Prop :=
  ∀ s, s.errors <+: (p s).2.errors ∧
    ∀ a s', p s = (.ok a, s') → s'.errors = s.errors → R s a s'

namespace Ensures

variable {α β : Type}

theorem mono
    {p : Parser α}
    {R T : State → α → State → Prop}
    (h : Ensures p R)
    (himp : ∀ s a s', R s a s' → T s a s') :
    Ensures p T := by
  intro s
  refine ⟨(h s).1, ?_⟩
  intro a s' hrun hclean
  exact himp s a s' ((h s).2 a s' hrun hclean)

theorem pure
    {a : α}
    {T : State → α → State → Prop}
    (h : ∀ s, T s a s) :
    Ensures (Pure.pure a) T := by
  intro s
  refine ⟨List.prefix_refl _, ?_⟩
  intro b s' hrun _
  rw [pure_apply] at hrun
  cases hrun
  exact h s

/-- What the second parser ensures may refer to where the first one started. -/
theorem bind
    {p : Parser α}
    {f : α → Parser β}
    {R : State → α → State → Prop}
    {T : State → β → State → Prop}
    (hp : Ensures p R)
    (hf : ∀ a, Ensures (f a) fun s' b s'' => ∀ s, R s a s' → T s b s'') :
    Ensures (p >>= f) T := by
  intro s
  obtain ⟨hkept, hgives⟩ := hp s
  rw [bind_apply]
  cases hrun : p s with
  | mk result s' =>
      rw [hrun] at hkept
      cases result with
      | error e =>
          refine ⟨hkept, ?_⟩
          intro b s'' heq
          cases heq
      | ok a =>
          obtain ⟨hkept', hgives'⟩ := hf a s'
          refine ⟨hkept.trans hkept', ?_⟩
          intro b s'' hsecond hclean
          -- both stretches are clean, since the faults in between lie between equal lists
          simp only at hsecond
          rw [hsecond, hclean] at hkept'
          have heq : s'.errors = s.errors :=
            (hkept.eq_of_length (Nat.le_antisymm hkept.length_le hkept'.length_le)).symm
          exact hgives' b s'' hsecond (by rw [hclean, heq]) s (hgives a s' hrun heq)

theorem fail
    {fault : SyntaxFault}
    {T : State → α → State → Prop} :
    Ensures (Parser.fail fault) T := by
  intro s
  refine ⟨List.prefix_refl _, ?_⟩
  intro a s' hrun
  cases hrun

end Ensures

theorem ensures_of_report
    {e : State → SyntaxError}
    {T : State → Unit → State → Prop} :
    Ensures (fun s => (.ok (), s.report (e s))) T := by
  intro s
  refine ⟨List.prefix_append _ _, ?_⟩
  intro a s' hrun hclean
  cases hrun
  simp [State.report] at hclean

theorem ensures_report
    {found : Terminal}
    {fault : SyntaxFault}
    {T : State → Unit → State → Prop} :
    Ensures (report found fault) T := by
  exact ensures_of_report

theorem ensures_reportNext
    {fault : SyntaxFault}
    {T : State → Unit → State → Prop} :
    Ensures (reportNext fault) T := by
  exact ensures_of_report

theorem ensures_remaining :
    Ensures remaining fun s n s' => s' = s ∧ n = s.rest.length := by
  intro s
  refine ⟨List.prefix_refl _, ?_⟩
  intro n s' hrun _
  cases hrun
  exact ⟨rfl, rfl⟩

theorem ensures_fresh :
    Ensures fresh fun s n s' => n = s.nextId ∧ s'.nextId = s.nextId + 1 ∧ s'.rest = s.rest := by
  intro s
  refine ⟨List.prefix_refl _, ?_⟩
  intro n s' hrun _
  cases hrun
  exact ⟨rfl, rfl, rfl⟩

theorem ensures_atEnd :
    Ensures atEnd fun s b s' => s' = s ∧ (b = true → s.rest = []) := by
  intro s
  refine ⟨List.prefix_refl _, ?_⟩
  intro b s' hrun _
  cases hrun
  exact ⟨rfl, List.isEmpty_iff.mp⟩

theorem ensures_check
    (kind : Token.Kind) :
    Ensures (check kind) fun s _ s' => s' = s := by
  intro s
  unfold check
  split
  · refine ⟨List.prefix_refl _, ?_⟩
    intro b s' hrun _
    cases hrun
    rfl
  · refine ⟨List.prefix_refl _, ?_⟩
    intro b s' hrun _
    cases hrun
    rfl

/-- One token was read, and nothing else happened. -/
structure Moved (s : State) (t : Token) (s' : State) : Prop where
  rest : s.rest = t :: s'.rest
  nextId : s'.nextId = s.nextId

/-- What accepting a token of the given kinds did. -/
def Accepted (kinds : List Token.Kind) (s : State) (result : Option Token) (s' : State) : Prop :=
  match result with
  | some t => Moved s t s' ∧ t.kind ∈ kinds
  | none => s' = s ∧ Avoids kinds s.rest

theorem ensures_acceptAny?
    (kinds : List Token.Kind) :
    Ensures (acceptAny? kinds) (Accepted kinds) := by
  intro s
  obtain ⟨rest, endLine, nextId, errors⟩ := s
  cases rest with
  | nil =>
      refine ⟨List.prefix_refl _, ?_⟩
      intro result s' hrun _
      cases hrun
      exact ⟨rfl, avoids_nil _⟩
  | cons t rest =>
      by_cases hkind : t.kind ∈ kinds
      · rw [acceptAny?_hit hkind]
        refine ⟨List.prefix_refl _, ?_⟩
        intro result s' hrun _
        cases hrun
        exact ⟨⟨rfl, rfl⟩, hkind⟩
      · rw [acceptAny?_miss (avoids_cons hkind)]
        refine ⟨List.prefix_refl _, ?_⟩
        intro result s' hrun _
        cases hrun
        exact ⟨rfl, avoids_cons hkind⟩

theorem ensures_accept
    (kind : Token.Kind) :
    Ensures (accept kind) fun s b s' =>
      (b = true ∧ ∃ t, Moved s t s' ∧ t.kind = kind) ∨
        (b = false ∧ s' = s ∧ Avoids [kind] s.rest) := by
  refine (ensures_acceptAny? [kind]).bind fun result => .pure ?_
  intro s' s haccepted
  cases result with
  | some t =>
      exact Or.inl ⟨rfl, t, haccepted.1, List.mem_singleton.mp haccepted.2⟩
  | none =>
      exact Or.inr ⟨rfl, haccepted⟩

theorem ensures_expect
    (kind : Token.Kind)
    (fault : SyntaxFault) :
    Ensures (expect kind fault) fun s t s' => Moved s t s' ∧ t.kind = kind := by
  refine (ensures_acceptAny? [kind]).bind fun result => ?_
  cases result with
  | none =>
      exact .fail
  | some t =>
      refine .pure ?_
      intro s' s haccepted
      exact ⟨haccepted.1, List.mem_singleton.mp haccepted.2⟩

/-- The tokens that were read and the numbers that were given out are as `R` tells. -/
def Reads {α : Type} (R : Nat → List Token → α → Nat → Prop) (s : State) (a : α) (s' : State) :
    Prop :=
  ∃ ts, s.rest = ts ++ s'.rest ∧ R s.nextId ts a s'.nextId

end Parser

namespace Grammar

open Lox.Parser

section Lists

variable {α : Type}

/-- Tokens that stand for one or more things with commas between them. -/
inductive CommaReads (R : Nat → List Token → α → Nat → Prop) :
    Nat → List Token → List α → Nat → Prop where
  | one {i j : Nat} {ts : List Token} {a : α} :
      R i ts a j →
      CommaReads R i ts [a] j
  | more {i k j : Nat} {xs ys : List Token} {a : α} {rest : List α} (comma : Token) :
      R i xs a k →
      comma.kind = .punct .comma →
      CommaReads R k ys rest j →
      CommaReads R i (xs ++ comma :: ys) (a :: rest) j

/-- Tokens that stand for things one after the other. -/
inductive SeqReads (R : Nat → List Token → α → Nat → Prop) :
    Nat → List Token → List α → Nat → Prop where
  | nil (i : Nat) : SeqReads R i [] [] i
  | cons {i k j : Nat} {xs ys : List Token} {a : α} {rest : List α} :
      R i xs a k →
      SeqReads R k ys rest j →
      SeqReads R i (xs ++ ys) (a :: rest) j

/-- The bound on the number of items is never what ends a list, as each further item has a comma in
front of it. -/
theorem ensures_commaSeparated
    {R : Nat → List Token → α → Nat → Prop}
    {item : Parser α}
    {excess : SyntaxFault}
    (hitem : Ensures item (Reads R))
    (count before : Nat) :
    Ensures (commaSeparated item excess count before) fun s as s' =>
      s.rest.length < count →
      before + as.length ≤ maxArity ∧ Reads (CommaReads R) s as s' := by
  induction count generalizing before with
  | zero =>
      refine .pure ?_
      intro s hcount
      cases hcount
  | succ count ih =>
      -- the items themselves, whether the first of them was reported or not
      have hitems : Ensures
          (do
            let first ← item
            if ← accept (.punct .comma) then
              return first :: (← commaSeparated item excess count (before + 1))
            else
              return [first])
          fun s as s' =>
            s.rest.length < count + 1 → before < maxArity →
            before + as.length ≤ maxArity ∧ Reads (CommaReads R) s as s' := by
        refine hitem.bind fun first => (ensures_accept _).bind fun more => ?_
        cases more with
        | false =>
            refine .pure ?_
            rintro s2 s1 hend s ⟨xs, hxs, hfirst⟩ _ hbefore
            obtain ⟨rfl, -⟩ : s2 = s1 ∧ _ := by simpa using hend
            exact ⟨Nat.succ_le_of_lt hbefore, xs, hxs, .one hfirst⟩
        | true =>
            refine (ih (before + 1)).bind fun rest => .pure ?_
            rintro s3 s2 hrest s1 hcomma s ⟨xs, hxs, hfirst⟩ hcount _
            obtain ⟨comma, hmoved, hcomma⟩ :
                ∃ t, Moved s1 t s2 ∧ t.kind = .punct .comma := by
              simpa using hcomma
            have hlength : s2.rest.length < count := by
              rw [hxs, hmoved.rest] at hcount
              simp only [List.length_append, List.length_cons] at hcount
              omega
            obtain ⟨hbound, ys, hys, hothers⟩ := hrest hlength
            refine ⟨by simp only [List.length_cons]; omega, xs ++ comma :: ys, ?_, ?_⟩
            · simp [hxs, hmoved.rest, hys]
            · rw [hmoved.nextId] at hothers
              exact .more comma hfirst hcomma hothers
      unfold commaSeparated
      split
      · refine (ensures_reportNext : Ensures _ fun _ _ _ => False).bind fun _ => ?_
        refine hitems.mono ?_
        intro s as s' _ _ hnever
        cases hnever
      · rename_i hbelow
        refine hitems.mono ?_
        intro s as s' hlist hcount
        exact hlist hcount (Nat.lt_of_not_le hbelow)

/-- What stands between two parentheses. -/
inductive ListReads (R : Nat → List Token → α → Nat → Prop) :
    Nat → List Token → List α → Nat → Prop where
  | none (i : Nat) : ListReads R i [] [] i
  | some {i j : Nat} {ts : List Token} {as : List α} :
      CommaReads R i ts as j →
      as.length ≤ maxArity →
      ListReads R i ts as j

theorem ensures_parenthesized
    {R : Nat → List Token → α → Nat → Prop}
    {item : Parser α}
    {excess : SyntaxFault}
    (hitem : Ensures item (Reads R)) :
    Ensures (parenthesized item excess) (Reads (ListReads R)) := by
  refine (ensures_check _).bind fun closes => ?_
  cases closes with
  | true =>
      refine .pure ?_
      rintro s' s rfl
      exact ⟨[], rfl, .none _⟩
  | false =>
      refine ensures_remaining.bind fun count => ?_
      refine (ensures_commaSeparated hitem (count + 1) 0).mono ?_
      rintro s2 as s3 hlist s1 ⟨rfl, rfl⟩ s rfl
      obtain ⟨hbound, ts, hts, has⟩ := hlist (Nat.lt_succ_self _)
      exact ⟨ts, hts, .some has (by simpa using hbound)⟩

/-- Where items take tokens, the bound on their number is never what ends a sequence. -/
theorem ensures_manyUntil
    {R : Nat → List Token → α → Nat → Prop}
    {item : Parser α}
    {done : Parser Bool}
    {E : List Token → Prop}
    (hnil : E [])
    (hdone : Ensures done fun s b s' => s' = s ∧ (b = true → E s.rest))
    (hitem : Ensures item (Reads R))
    (htakes : ∀ {i ts a j}, R i ts a j → ts ≠ [])
    (count : Nat) :
    Ensures (manyUntil done item count) fun s as s' =>
      Reads (SeqReads R) s as s' ∧ (s.rest.length ≤ count → E s'.rest) := by
  induction count with
  | zero =>
      refine .pure ?_
      intro s
      refine ⟨⟨[], rfl, .nil _⟩, ?_⟩
      intro hcount
      have hempty : s.rest = [] := List.length_eq_zero_iff.mp (Nat.le_zero.mp hcount)
      rw [hempty]
      exact hnil
  | succ count ih =>
      refine hdone.bind fun ended => ?_
      cases ended with
      | true =>
          refine .pure ?_
          rintro s' s ⟨rfl, hended⟩
          exact ⟨⟨[], rfl, .nil _⟩, fun _ => hended rfl⟩
      | false =>
          refine hitem.bind fun first => ih.bind fun rest => .pure ?_
          rintro s3 s2 ⟨⟨ys, hys, hothers⟩, hended⟩ s1 ⟨xs, hxs, hfirst⟩ s ⟨rfl, -⟩
          refine ⟨⟨xs ++ ys, by simp [hxs, hys], .cons hfirst hothers⟩, ?_⟩
          intro hcount
          have hpos := List.length_pos_iff.mpr (htakes hfirst)
          apply hended
          rw [hxs, List.length_append] at hcount
          omega

end Lists

section Expressions

variable {ex : Parser Expr}

theorem operatorNode_ne_var
    (rank id : Nat)
    (left right : Expr)
    (operator name : Token) :
    operatorNode rank left operator right ≠ .var id name := by
  unfold operatorNode
  split <;> simp

theorem operatorNode_ne_get
    (rank : Nat)
    (left right object : Expr)
    (operator name : Token) :
    operatorNode rank left operator right ≠ .get object name := by
  unfold operatorNode
  split <;> simp

/-- A variable stands for a single name, at any rank. -/
theorem ExprReads.var_inv :
    ∀ {rank i : Nat} {ts : List Token} {e : Expr} {j : Nat},
      ExprReads rank i ts e j →
      ∀ ⦃id : Nat⦄ ⦃name : Token⦄, e = .var id name →
      id = i ∧ j = i + 1 ∧ ts = [name] ∧ name.kind = .identifier
  | _, _, _, _, _, .literal _ _ _ _, _, _, heq => by cases heq
  | _, _, _, _, _, .var _ _ hname, _, _, heq => by
      cases heq
      exact ⟨rfl, rfl, rfl, hname⟩
  | _, _, _, _, _, .this _ _ _, _, _, heq => by cases heq
  | _, _, _, _, _, .super _ _ _ _ _ _ _, _, _, heq => by cases heq
  | _, _, _, _, _, .grouping _ _ _ _ _, _, _, heq => by cases heq
  | _, _, _, _, _, .callNone _ _ _ _ _, _, _, heq => by cases heq
  | _, _, _, _, _, .call _ _ _ _ _ _ _, _, _, heq => by cases heq
  | _, _, _, _, _, .get _ _ _ _ _, _, _, heq => by cases heq
  | _, _, _, _, _, .unary _ _ _, _, _, heq => by cases heq
  | _, _, _, _, _, .operation _ _ _ _, _, _, heq =>
      absurd heq (operatorNode_ne_var _ _ _ _ _ _)
  | _, _, _, _, _, .assign _ _ _ _ _, _, _, heq => by cases heq
  | _, _, _, _, _, .set _ _ _ _ _ _ _ _, _, _, heq => by cases heq
  | _, _, _, _, _, .looser _ h, _, _, heq => ExprReads.var_inv h heq

/-- The tokens of a property end in a dot and its name, at any rank. -/
theorem ExprReads.get_inv :
    ∀ {rank i : Nat} {ts : List Token} {e : Expr} {j : Nat},
      ExprReads rank i ts e j →
      ∀ ⦃object : Expr⦄ ⦃name : Token⦄, e = .get object name →
      ∃ xs dot, ts = xs ++ [dot, name] ∧ ExprReads 8 i xs object j ∧
        dot.kind = .punct .dot ∧ name.kind = .identifier
  | _, _, _, _, _, .literal _ _ _ _, _, _, heq => by cases heq
  | _, _, _, _, _, .var _ _ _, _, _, heq => by cases heq
  | _, _, _, _, _, .this _ _ _, _, _, heq => by cases heq
  | _, _, _, _, _, .super _ _ _ _ _ _ _, _, _, heq => by cases heq
  | _, _, _, _, _, .grouping _ _ _ _ _, _, _, heq => by cases heq
  | _, _, _, _, _, .callNone _ _ _ _ _, _, _, heq => by cases heq
  | _, _, _, _, _, .call _ _ _ _ _ _ _, _, _, heq => by cases heq
  | _, _, _, _, _, .get dot _ hobject hdot hname, _, _, heq => by
      cases heq
      exact ⟨_, dot, rfl, hobject, hdot, hname⟩
  | _, _, _, _, _, .unary _ _ _, _, _, heq => by cases heq
  | _, _, _, _, _, .operation _ _ _ _, _, _, heq =>
      absurd heq (operatorNode_ne_get _ _ _ _ _ _)
  | _, _, _, _, _, .assign _ _ _ _ _, _, _, heq => by cases heq
  | _, _, _, _, _, .set _ _ _ _ _ _ _ _, _, _, heq => by cases heq
  | _, _, _, _, _, .looser _ h, _, _, heq => ExprReads.get_inv h heq

theorem CommaReads.arguments
    {i j : Nat}
    {ts : List Token}
    {arguments : List Expr}
    (h : CommaReads (ExprReads 0) i ts arguments j) :
    ArgumentsRead i ts arguments j := by
  induction h with
  | one hfirst =>
      exact .one hfirst
  | more comma hfirst hcomma _ ih =>
      exact .more comma hfirst hcomma ih

/-- Behind the tokens of `left`, a loop over operators reads on at the same rank. -/
theorem ensures_joinLeft
    {rank : Nat}
    (hoperand : Ensures (level (rank + 1) ex) (Reads (ExprReads (rank + 1))))
    (count : Nat)
    (left : Expr) :
    Ensures (joinLeft (operatorKinds rank) (operatorNode rank) (level (rank + 1) ex) count left)
      fun s e s' => ∀ i xs, ExprReads rank i xs left s.nextId →
        Reads (fun _ ts e j => ExprReads rank i (xs ++ ts) e j) s e s' := by
  induction count generalizing left with
  | zero =>
      refine .pure ?_
      intro s i xs hleft
      exact ⟨[], rfl, by simpa using hleft⟩
  | succ count ih =>
      refine (ensures_acceptAny? _).bind fun operator => ?_
      cases operator with
      | none =>
          refine .pure ?_
          rintro s' s ⟨rfl, -⟩ i xs hleft
          exact ⟨[], rfl, by simpa using hleft⟩
      | some operator =>
          refine hoperand.bind fun right => (ih _).mono ?_
          rintro s2 e s3 hothers s1 ⟨ys, hys, hright⟩ s ⟨hmoved, hkind⟩ i xs hleft
          rw [← hmoved.nextId] at hleft
          obtain ⟨zs, hzs, hwhole⟩ := hothers i _ (.operation operator hleft hkind hright)
          refine ⟨operator :: (ys ++ zs), ?_, ?_⟩
          · simp [hmoved.rest, hys, hzs]
          · simpa using hwhole

theorem ensures_operators
    {rank : Nat}
    (hrank : 1 ≤ rank ∧ rank ≤ 6)
    (hoperand : Ensures (level (rank + 1) ex) (Reads (ExprReads (rank + 1)))) :
    Ensures (level rank ex) (Reads (ExprReads rank)) := by
  rw [level_operators hrank]
  refine hoperand.bind fun left => ensures_remaining.bind fun count => ?_
  refine (ensures_joinLeft hoperand count left).mono ?_
  rintro s2 e s3 hothers s1 ⟨rfl, -⟩ s ⟨xs, hxs, hleft⟩
  obtain ⟨ys, hys, hwhole⟩ := hothers _ _ (.looser (by omega) hleft)
  exact ⟨xs ++ ys, by simp [hxs, hys], hwhole⟩

theorem ensures_superAccess
    (keyword : Token) :
    Ensures (superAccess keyword) fun s e s' =>
      keyword.kind = .keyword .super →
      Reads (fun i ts e j => ExprReads 9 i (keyword :: ts) e j) s e s' := by
  refine (ensures_expect _ _).bind fun dot => (ensures_expect _ _).bind fun method => ?_
  refine ensures_fresh.bind fun id => .pure ?_
  rintro s3 s2 ⟨rfl, hnext, hrest⟩ s1 ⟨hmethod, hname⟩ s ⟨hmoved, hdot⟩ hkeyword
  refine ⟨[dot, method], by simp [hmoved.rest, hmethod.rest, hrest], ?_⟩
  rw [hnext, hmethod.nextId, hmoved.nextId]
  exact .super _ keyword dot method hkeyword hdot hname

theorem ensures_grouped
    (hex : Ensures ex (Reads (ExprReads 0)))
    (left : Token) :
    Ensures (grouped ex) fun s e s' =>
      left.kind = .punct .leftParen →
      Reads (fun i ts e j => ExprReads 9 i (left :: ts) e j) s e s' := by
  refine hex.bind fun inner => (ensures_expect _ _).bind fun right => .pure ?_
  rintro s2 s1 ⟨hmoved, hright⟩ s ⟨ts, hts, hinner⟩ hleft
  refine ⟨ts ++ [right], by simp [hts, hmoved.rest], ?_⟩
  rw [hmoved.nextId]
  exact .grouping left right hleft hinner hright

/-- Every other kind of token that starts a primary expression is that of a literal. -/
theorem literal_of_primaryKind
    {t : Token}
    (h : t.kind ∈ primaryKinds)
    (hname : t.kind ≠ .identifier)
    (hthis : t.kind ≠ .keyword .this)
    (hsuper : t.kind ≠ .keyword .super)
    (hparen : t.kind ≠ .punct .leftParen) :
    ∃ value, literalOf? t = some value := by
  simp only [primaryKinds, List.mem_cons, List.not_mem_nil, or_false] at h
  rcases h with h | h | h | h | h | h | h | h | h
  all_goals first
    | exact absurd h ‹_›
    | exact ⟨_, by simp only [literalOf?, Token.literal?, h]; rfl⟩

theorem ensures_primary
    (hex : Ensures ex (Reads (ExprReads 0))) :
    Ensures (primary ex) (Reads (ExprReads 9)) := by
  refine (ensures_acceptAny? _).bind fun result => ?_
  cases result with
  | none =>
      exact .fail
  | some t =>
      dsimp only
      split
      · rename_i hkind
        refine ensures_fresh.bind fun id => .pure ?_
        rintro s2 s1 ⟨rfl, hnext, hrest⟩ s ⟨hmoved, -⟩
        refine ⟨[t], by simp [hmoved.rest, hrest], ?_⟩
        rw [hnext, hmoved.nextId]
        exact .var _ t hkind
      · rename_i hkind
        refine ensures_fresh.bind fun id => .pure ?_
        rintro s2 s1 ⟨rfl, hnext, hrest⟩ s ⟨hmoved, -⟩
        refine ⟨[t], by simp [hmoved.rest, hrest], ?_⟩
        rw [hnext, hmoved.nextId]
        exact .this _ t hkind
      · rename_i hkind
        refine (ensures_superAccess t).mono ?_
        rintro s1 e s2 hreads s ⟨hmoved, -⟩
        obtain ⟨ts, hts, hwhole⟩ := hreads hkind
        rw [hmoved.nextId] at hwhole
        exact ⟨t :: ts, by simp [hmoved.rest, hts], hwhole⟩
      · rename_i hkind
        refine (ensures_grouped hex t).mono ?_
        rintro s1 e s2 hreads s ⟨hmoved, -⟩
        obtain ⟨ts, hts, hwhole⟩ := hreads hkind
        rw [hmoved.nextId] at hwhole
        exact ⟨t :: ts, by simp [hmoved.rest, hts], hwhole⟩
      · rename_i hname hthis hsuper hparen
        refine .pure ?_
        rintro s1 s ⟨hmoved, hkind⟩
        obtain ⟨value, hvalue⟩ := literal_of_primaryKind hkind hname hthis hsuper hparen
        refine ⟨[t], by simp [hmoved.rest], ?_⟩
        rw [hmoved.nextId, hvalue]
        exact .literal _ t value hvalue

/-- The arguments of a call and the parenthesis behind them. -/
theorem ExprReads.calls
    {i k j : Nat}
    {xs ys : List Token}
    {callee : Expr}
    {arguments : List Expr}
    (left right : Token)
    (hcallee : ExprReads 8 i xs callee k)
    (hleft : left.kind = .punct .leftParen)
    (harguments : ListReads (ExprReads 0) k ys arguments j)
    (hright : right.kind = .punct .rightParen) :
    ExprReads 8 i (xs ++ left :: (ys ++ [right])) (.call callee right arguments) j := by
  cases harguments with
  | none =>
      exact .callNone left right hcallee hleft hright
  | some harguments hlimit =>
      exact .call left right hcallee hleft harguments.arguments hlimit hright

theorem ensures_finishCall
    (hex : Ensures ex (Reads (ExprReads 0)))
    (callee : Expr) :
    Ensures (finishCall ex callee) fun s e s' =>
      ∀ left, left.kind = .punct .leftParen → ∀ i xs, ExprReads 8 i xs callee s.nextId →
        Reads (fun _ ts e j => ExprReads 8 i (xs ++ left :: ts) e j) s e s' := by
  refine (ensures_parenthesized hex).bind fun arguments => ?_
  refine (ensures_expect _ _).bind fun right => .pure ?_
  rintro s2 s1 ⟨hmoved, hright⟩ s ⟨ys, hys, harguments⟩ left hleft i xs hcallee
  refine ⟨ys ++ [right], by simp [hys, hmoved.rest], ?_⟩
  rw [hmoved.nextId]
  exact .calls left right hcallee hleft harguments hright

/-- Behind the tokens of `e`, a loop over calls and property names reads on. -/
theorem ensures_suffixes
    (hex : Ensures ex (Reads (ExprReads 0)))
    (count : Nat)
    (e : Expr) :
    Ensures (suffixes ex count e) fun s e' s' => ∀ i xs, ExprReads 8 i xs e s.nextId →
      Reads (fun _ ts e' j => ExprReads 8 i (xs ++ ts) e' j) s e' s' := by
  induction count generalizing e with
  | zero =>
      refine .pure ?_
      intro s i xs hfront
      exact ⟨[], rfl, by simpa using hfront⟩
  | succ count ih =>
      refine (ensures_accept _).bind fun calls => ?_
      cases calls with
      | true =>
          refine (ensures_finishCall hex e).bind fun called => (ih called).mono ?_
          intro s2 e' s3 hothers s1 hcalled s hparen i xs hfront
          obtain ⟨left, hmoved, hleft⟩ : ∃ t, Moved s t s1 ∧ t.kind = .punct .leftParen := by
            simpa using hparen
          rw [← hmoved.nextId] at hfront
          obtain ⟨ys, hys, hcall⟩ := hcalled left hleft i xs hfront
          obtain ⟨zs, hzs, hwhole⟩ := hothers i _ hcall
          refine ⟨left :: (ys ++ zs), by simp [hmoved.rest, hys, hzs], ?_⟩
          simpa using hwhole
      | false =>
          refine (ensures_accept _).bind fun gets => ?_
          cases gets with
          | true =>
              refine (ensures_expect _ _).bind fun name => (ih _).mono ?_
              rintro s3 e' s4 hothers s2 ⟨hname, hkind⟩ s1 hdot s hparen i xs hfront
              obtain ⟨dot, hmoved, hdot⟩ : ∃ t, Moved s1 t s2 ∧ t.kind = .punct .dot := by
                simpa using hdot
              obtain ⟨rfl, -⟩ : s1 = s ∧ _ := by simpa using hparen
              rw [← hmoved.nextId, ← hname.nextId] at hfront
              obtain ⟨ts, hts, hwhole⟩ := hothers i _ (.get dot name hfront hdot hkind)
              refine ⟨dot :: name :: ts, by simp [hmoved.rest, hname.rest, hts], ?_⟩
              simpa using hwhole
          | false =>
              refine .pure ?_
              intro s2 s1 hdot s hparen i xs hfront
              obtain ⟨rfl, -⟩ : s2 = s1 ∧ _ := by simpa using hdot
              obtain ⟨rfl, -⟩ : s2 = s ∧ _ := by simpa using hparen
              exact ⟨[], rfl, by simpa using hfront⟩

theorem ensures_call
    (hex : Ensures ex (Reads (ExprReads 0))) :
    Ensures (call ex) (Reads (ExprReads 8)) := by
  refine (ensures_primary hex).bind fun e => ensures_remaining.bind fun count => ?_
  refine (ensures_suffixes hex count e).mono ?_
  rintro s2 e' s3 hothers s1 ⟨rfl, -⟩ s ⟨xs, hxs, hfront⟩
  obtain ⟨ys, hys, hwhole⟩ := hothers _ _ (.looser (by omega) hfront)
  exact ⟨xs ++ ys, by simp [hxs, hys], hwhole⟩

theorem ensures_signs
    (count : Nat) :
    Ensures (signs count) fun s operators s' =>
      s.rest = operators ++ s'.rest ∧ s'.nextId = s.nextId ∧
        ∀ t ∈ operators, t.kind ∈ signKinds := by
  induction count with
  | zero =>
      refine .pure ?_
      intro s
      exact ⟨rfl, rfl, by simp⟩
  | succ count ih =>
      refine (ensures_acceptAny? _).bind fun sign => ?_
      cases sign with
      | none =>
          refine .pure ?_
          rintro s' s ⟨rfl, -⟩
          exact ⟨rfl, rfl, by simp⟩
      | some sign =>
          refine ih.bind fun operators => .pure ?_
          rintro s2 s1 ⟨hrest, hnext, hkinds⟩ s ⟨hmoved, hkind⟩
          refine ⟨by simp [hmoved.rest, hrest], by rw [hnext, hmoved.nextId], ?_⟩
          intro t ht
          rcases List.mem_cons.mp ht with rfl | ht
          · exact hkind
          · exact hkinds t ht

theorem ExprReads.signed
    {i j : Nat}
    {ts : List Token}
    {e : Expr}
    (h : ExprReads 7 i ts e j)
    (operators : List Token)
    (hkinds : ∀ t ∈ operators, t.kind ∈ signKinds) :
    ExprReads 7 i (operators ++ ts) (operators.foldr .unary e) j := by
  induction operators with
  | nil =>
      exact h
  | cons sign operators ih =>
      have hothers := ih fun t ht => hkinds t (List.mem_cons_of_mem _ ht)
      exact .unary sign (hkinds sign List.mem_cons_self) hothers

theorem ensures_unary
    (hex : Ensures ex (Reads (ExprReads 0))) :
    Ensures (unary ex) (Reads (ExprReads 7)) := by
  refine ensures_remaining.bind fun count => (ensures_signs count).bind fun operators => ?_
  refine (ensures_call hex).bind fun operand => .pure ?_
  rintro s3 s2 ⟨ts, hts, hoperand⟩ s1 ⟨hrest, hnext, hkinds⟩ s ⟨rfl, -⟩
  refine ⟨operators ++ ts, by simp [hrest, hts], ?_⟩
  rw [← hnext]
  exact ExprReads.signed (.looser (by omega) hoperand) operators hkinds

/-- All levels of operators, from the tightest to the loosest. -/
theorem ensures_disjunction
    (hex : Ensures ex (Reads (ExprReads 0))) :
    Ensures (disjunction ex) (Reads (ExprReads 1)) := by
  have hfactor : Ensures (level 6 ex) (Reads (ExprReads 6)) :=
    ensures_operators (by omega) (ensures_unary hex)
  have hterm : Ensures (level 5 ex) (Reads (ExprReads 5)) :=
    ensures_operators (by omega) hfactor
  have hcomparison : Ensures (level 4 ex) (Reads (ExprReads 4)) :=
    ensures_operators (by omega) hterm
  have hequality : Ensures (level 3 ex) (Reads (ExprReads 3)) :=
    ensures_operators (by omega) hcomparison
  have hconjunction : Ensures (level 2 ex) (Reads (ExprReads 2)) :=
    ensures_operators (by omega) hequality
  exact (ensures_operators (by omega) hconjunction : Ensures (level 1 ex) _)

theorem ensures_assignTo
    (target : Expr)
    (equals : Token)
    (value : Expr) :
    Ensures (assignTo target equals value) fun s e s' =>
      s' = s ∧ ∀ i xs k ys, equals.kind = .punct .equal → ExprReads 1 i xs target k →
        ExprReads 0 k ys value s.nextId →
        ExprReads 0 i (xs ++ equals :: ys) e s'.nextId := by
  unfold assignTo
  split
  · refine .pure ?_
    intro s
    refine ⟨rfl, ?_⟩
    intro i xs k ys hequals htarget hvalue
    obtain ⟨rfl, rfl, rfl, hname⟩ := htarget.var_inv rfl
    exact .assign _ equals hname hequals hvalue
  · refine .pure ?_
    intro s
    refine ⟨rfl, ?_⟩
    intro i xs k ys hequals htarget hvalue
    obtain ⟨zs, dot, rfl, hobject, hdot, hname⟩ := htarget.get_inv rfl
    simpa using ExprReads.set dot _ equals hobject hdot hname hequals hvalue
  · refine (ensures_report : Ensures _ fun _ _ _ => False).bind fun _ => .pure ?_
    intro s' s hnever
    cases hnever

theorem ensures_assignment
    (hex : Ensures ex (Reads (ExprReads 0))) :
    Ensures (assignment ex) (Reads (ExprReads 0)) := by
  refine (ensures_disjunction hex).bind fun target => ?_
  refine (ensures_acceptAny? _).bind fun result => ?_
  cases result with
  | none =>
      refine .pure ?_
      rintro s2 s1 ⟨rfl, -⟩ s ⟨xs, hxs, htarget⟩
      exact ⟨xs, hxs, .looser (by omega) htarget⟩
  | some equals =>
      refine hex.bind fun value => (ensures_assignTo target equals value).mono ?_
      rintro s3 e s4 ⟨rfl, hassign⟩ s2 ⟨ys, hys, hvalue⟩ s1 ⟨hmoved, hequals⟩ s
        ⟨xs, hxs, htarget⟩
      rw [hmoved.nextId] at hvalue
      refine ⟨xs ++ equals :: ys, by simp [hxs, hmoved.rest, hys], ?_⟩
      exact hassign _ _ _ _ (List.mem_singleton.mp hequals) htarget hvalue

theorem ensures_expressionWithin
    (depth : Nat) :
    Ensures (expressionWithin depth) (Reads (ExprReads 0)) := by
  induction depth with
  | zero =>
      exact .fail
  | succ depth ih =>
      exact ensures_assignment ih

theorem ensures_expression : Ensures expression (Reads (ExprReads 0)) := by
  refine ensures_remaining.bind fun count => (ensures_expressionWithin (count + 1)).mono ?_
  rintro s1 e s2 hreads s ⟨rfl, -⟩
  exact hreads

theorem ensures_loneExpression :
    Ensures loneExpression fun s e s' => ExprReads 0 s.nextId s.rest e s'.nextId := by
  refine ensures_expression.bind fun e => ensures_atEnd.bind fun ended => ?_
  cases ended with
  | false =>
      exact .fail
  | true =>
      refine .pure ?_
      rintro s2 s1 ⟨rfl, hended⟩ s ⟨ts, hts, hreads⟩
      rw [hended rfl, List.append_nil] at hts
      rw [hts]
      exact hreads

end Expressions

end Grammar

end Lox
