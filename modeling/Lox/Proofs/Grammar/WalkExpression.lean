import Lox.Proofs.Grammar.Walking

/-!
# Walking along expressions

The walks for expressions do what the parsers for expressions do.  The loops of the parsers are
bounded by the number of tokens left, and their nesting by one more; since each round and each level
of nesting takes a token, these bounds are never reached, and the walks, which do not have them, do
not run out of fuel either.  An expression never reads a semicolon.
-/

namespace Lox
namespace Grammar

open Lox.Parser

/-- A call with at most `count` signs in front of it. -/
def signed (ex : Parser Expr) (count : Nat) : Parser Expr := do
  let operators ← signs count
  let operand ← call ex
  return operators.foldr .unary operand

theorem signed_zero (ex : Parser Expr) : signed ex 0 = call ex := by
  simp [signed, signs]

/-- The signs can be read one by one, each with what it stands in front of. -/
theorem signed_succ
    (ex : Parser Expr)
    (count : Nat) :
    signed ex (count + 1) = (do
      match ← acceptAny? signKinds with
      | none => call ex
      | some sign => return .unary sign (← signed ex count)) := by
  rw [signed, signs, bind_assoc]
  refine bind_congr fun found => ?_
  cases found with
  | none =>
      simp
  | some sign =>
      simp [signed]

section Expressions

variable {c : Passage}
variable {A : Token.Kind → Prop}
variable (hA : ∀ kind, kind ≠ .punct .semicolon → A kind)
variable {m n : Nat}
variable {ex : Parser Expr}
variable (hex : Walks c A m (Expr.shifted c.ids) ex Walk.expression fun _ => m)

theorem shifted_operatorNode
    (k rank : Nat)
    (left : Expr)
    (operator : Token)
    (right : Expr) :
    (operatorNode rank left operator right).shifted k =
      operatorNode rank (left.shifted k) operator (right.shifted k) := by
  unfold operatorNode
  split <;> rfl

include hA in
/-- All of some kinds can be read if the semicolon is none of them. -/
theorem reads_of_not_mem
    {kinds : List Token.Kind}
    (h : .punct .semicolon ∉ kinds) :
    ∀ kind ∈ kinds, A kind := by
  intro kind hmem
  apply hA
  rintro rfl
  exact h hmem

section Operands

variable {rank : Nat}
variable {operand : Parser Expr}
variable (hoperand : Walks c A m (Expr.shifted c.ids) operand
  (fun fuel => Walk.operation fuel (rank + 1)) fun _ => m)

include hA hoperand

theorem walks_joinLeft
    (count : Nat)
    (left : Expr)
    (hm : n ≤ m)
    (hcount : n ≤ count + 1) :
    Walks c A n (Expr.shifted c.ids)
      (joinLeft (operatorKinds rank) (operatorNode rank) operand count left)
      (fun fuel => Walk.joinLeft fuel rank (left.shifted c.ids)) fun _ => n := by
  have hkinds : ∀ kind ∈ operatorKinds rank, A kind :=
    reads_of_not_mem hA fun hmem => nomatch carryingRank_of_operator hmem
  induction count generalizing left n with
  | zero =>
      refine .exhausted hcount (Nat.le_refl n) ?_
      intro s hrest hshows
      refine .unfold (Walk.joinLeft.eq_2 rank _) ?_
      have hmiss : Avoids (operatorKinds rank) s.rest := hrest ▸ avoids_nil _
      exact (Passage.runs_acceptAny?_miss hshows hmiss).bind_arrives (.of_runs (.pure _))
  | succ count ih =>
      rw [joinLeft]
      refine .unfold (Walk.joinLeft.eq_2 rank _) ?_
      refine (walks_acceptAny? hkinds).bind fun found => ?_
      cases found with
      | none =>
          exact .pure rfl (Nat.le_refl n)
      | some operator =>
          refine (hoperand.stays (by simp only [Option.isSome, cond_true]; omega)).bind
            fun right => ?_
          have hothers := ih (n := n - 1) (operatorNode rank left operator right)
            (by omega) (by omega)
          rw [shifted_operatorNode] at hothers
          exact hothers.mono (Nat.le_refl _) fun _ => Nat.sub_le n 1

variable (rank) in
theorem walks_leftAssociative
    (hrank : rank ≤ 6) :
    Walks c A m (Expr.shifted c.ids)
      (leftAssociative (operatorKinds rank) (operatorNode rank) operand)
      (fun fuel => Walk.operation fuel rank) fun _ => m := by
  refine .unfold (fun fuel => (Walk.operation.eq_2 rank fuel).trans (if_pos hrank)) ?_
  refine hoperand.bind fun left => .remaining fun count hcount => ?_
  have hothers := walks_joinLeft hA hoperand count left hcount (Nat.le_refl _)
  exact hothers.mono (Nat.le_refl _) fun _ => hcount

end Operands

include hA

theorem walks_superAccess
    (keyword : Token) :
    Walks c A m (Expr.shifted c.ids) (superAccess keyword) (fun _ => Walk.superAccess keyword)
      fun _ => m := by
  refine (walks_expect (hA _ (by decide)) _).bind fun _ => ?_
  refine (walks_expect (hA _ (by decide)) _).bind fun method => ?_
  refine walks_fresh.bind fun id => .pure rfl ?_
  omega

include hex

theorem walks_grouped :
    Walks c A m (Expr.shifted c.ids) (grouped ex) Walk.grouped fun _ => m := by
  refine .unfold Walk.grouped.eq_2 ?_
  refine hex.bind fun inner => (walks_expect (hA _ (by decide)) _).bind fun _ => .pure rfl ?_
  omega

theorem walks_primary :
    Walks c A (m + 1) (Expr.shifted c.ids) (primary ex) Walk.primary fun _ => m := by
  have hkinds : ∀ kind ∈ primaryKinds, A kind := reads_of_not_mem hA (by decide)
  refine .unfold Walk.primary.eq_2 ?_
  refine (walks_acceptAny? hkinds).bind fun found => ?_
  cases found with
  | none =>
      exact walks_fail _ _ _
  | some t =>
      have hliteral : Walks c A m (Expr.shifted c.ids)
          (pure (Expr.literal ((literalOf? t).getD .nil)) : Parser Expr)
          (fun _ => pure (Expr.literal ((literalOf? t).getD .nil))) fun _ => m :=
        .pure rfl (Nat.le_refl m)
      obtain ⟨kind, lexeme, line⟩ := t
      cases kind with
      | identifier =>
          exact walks_fresh.bind fun id => .pure rfl (Nat.le_refl m)
      | punct mark =>
          cases mark with
          | leftParen =>
              exact walks_grouped hA hex
          | _ =>
              exact hliteral
      | keyword word =>
          cases word with
          | this =>
              exact walks_fresh.bind fun id => .pure rfl (Nat.le_refl m)
          | super =>
              exact walks_superAccess hA _
          | _ =>
              exact hliteral
      | string =>
          exact hliteral
      | number =>
          exact hliteral

theorem walks_finishCall
    (callee : Expr) :
    Walks c A m (Expr.shifted c.ids) (finishCall ex callee)
      (fun fuel => Walk.finishCall fuel (callee.shifted c.ids)) fun _ => m := by
  have hlist := walks_parenthesized (fun fuel before => Walk.arguments.eq_2 before fuel)
    (hA _ (by decide)) hex
  refine .unfold (Walk.finishCall.eq_2 _) ?_
  refine (hlist.unfold Walk.argumentList.eq_2).bind fun values => ?_
  refine (walks_expect (hA _ (by decide)) _).bind fun paren => .pure ?_ ?_
  · simp only [Expr.shifted, Expr.shiftedAll_eq_map, id]
  · omega

theorem walks_suffixes
    (count : Nat)
    (e : Expr)
    (hm : n ≤ m + 1)
    (hcount : n ≤ count + 1) :
    Walks c A n (Expr.shifted c.ids) (suffixes ex count e)
      (fun fuel => Walk.suffixes fuel (e.shifted c.ids)) fun _ => n := by
  induction count generalizing e n with
  | zero =>
      refine .exhausted hcount (Nat.le_refl n) ?_
      intro s hrest hshows
      have hmiss : ∀ kind, Avoids [kind] s.rest := fun kind => hrest ▸ avoids_nil _
      refine .unfold (Walk.suffixes.eq_2 _) ?_
      refine (Passage.runs_accept_miss hshows (hmiss _)).bind_arrives ?_
      exact (Passage.runs_accept_miss hshows (hmiss _)).bind_arrives (.of_runs (.pure _))
  | succ count ih =>
      have hothers : ∀ e : Expr, Walks c A (n - 1) (Expr.shifted c.ids) (suffixes ex count e)
          (fun fuel => Walk.suffixes fuel (e.shifted c.ids)) fun _ => n := by
        intro e
        exact (ih (n := n - 1) e (by omega) (by omega)).mono (Nat.le_refl _) fun _ => Nat.sub_le n 1
      rw [suffixes]
      refine .unfold (Walk.suffixes.eq_2 _) ?_
      refine (walks_accept (hA _ (by decide))).bind fun isCall => ?_
      cases isCall with
      | true =>
          have hcall := (walks_finishCall hA hex e).stays (n := n - 1) (by omega)
          exact hcall.bind fun called => hothers called
      | false =>
          refine (walks_accept (hA _ (by decide))).bind fun isGet => ?_
          cases isGet with
          | true =>
              refine ((walks_expect (hA _ (by decide)) _).stays (Nat.le_refl _)).bind fun name => ?_
              exact hothers (.get e name)
          | false =>
              exact .pure rfl (Nat.le_refl n)

theorem walks_call :
    Walks c A (m + 1) (Expr.shifted c.ids) (call ex) Walk.call fun _ => m + 1 := by
  refine .unfold Walk.call.eq_2 ?_
  refine (walks_primary hA hex).bind fun e => .remaining fun count hcount => ?_
  have hothers := walks_suffixes hA hex count e (n := count + 1) (by omega) (Nat.le_refl _)
  exact hothers.mono (Nat.le_refl _) fun _ => by omega

theorem walks_signed
    (count : Nat)
    (hm : n ≤ m + 1)
    (hcount : n ≤ count + 1) :
    Walks c A n (Expr.shifted c.ids) (signed ex count) Walk.unary fun _ => n := by
  have hkinds : ∀ kind ∈ signKinds, A kind := reads_of_not_mem hA (by decide)
  have hcall := (walks_call hA hex).stays hm
  induction count generalizing n with
  | zero =>
      -- No sign is read here, and none is there to be read.
      rw [signed_zero]
      intro s hs
      have hrest : s.rest = [] := List.eq_nil_of_length_eq_zero (by omega)
      have hmiss : Avoids signKinds s.rest := hrest ▸ avoids_nil _
      obtain ⟨hadvances, hleaves, hruns⟩ := hcall s hs
      refine ⟨hadvances, hleaves, fun hshows => ?_⟩
      have hnone := Passage.runs_acceptAny?_miss (hshows.of_advances hadvances) hmiss
      exact .unfold Walk.unary.eq_2 (hnone.bind_arrives (hruns hshows))
  | succ count ih =>
      rw [signed_succ]
      refine .unfold Walk.unary.eq_2 ?_
      refine (walks_acceptAny? hkinds).bind fun found => ?_
      cases found with
      | none =>
          exact hcall
      | some sign =>
          have hnested := ih (n := n - 1) (by omega) (by omega) (hcall.stays (Nat.sub_le n 1))
          exact hnested.bind fun e => .pure rfl (Nat.sub_le n 1)

theorem walks_unary :
    Walks c A (m + 1) (Expr.shifted c.ids) (unary ex) Walk.unary fun _ => m + 1 := by
  refine .remaining fun count hcount => ?_
  have hsigned := walks_signed hA hex count (n := count + 1) (by omega) (Nat.le_refl _)
  exact hsigned.mono (Nat.le_refl _) fun _ => by omega

/-- All levels of operators, from the tightest to the loosest. -/
theorem walks_disjunction :
    Walks c A (m + 1) (Expr.shifted c.ids) (disjunction ex)
      (fun fuel => Walk.operation fuel 1) fun _ => m + 1 := by
  have hunary : Walks c A (m + 1) (Expr.shifted c.ids) (unary ex)
      (fun fuel => Walk.operation fuel 7) fun _ => m + 1 :=
    (walks_unary hA hex).unfold (Walk.operation.eq_2 7)
  have hfactor := walks_leftAssociative hA 6 hunary (by decide)
  have hterm := walks_leftAssociative hA 5 hfactor (by decide)
  have hcomparison := walks_leftAssociative hA 4 hterm (by decide)
  have hequality := walks_leftAssociative hA 3 hcomparison (by decide)
  have hconjunction := walks_leftAssociative hA 2 hequality (by decide)
  exact walks_leftAssociative hA 1 hconjunction (by decide)

omit hA hex in
theorem walks_assignTo
    (target : Expr)
    (equals : Token)
    (value : Expr) :
    Walks c A m (Expr.shifted c.ids) (assignTo target equals value)
      (fun _ => Walk.assignTo (target.shifted c.ids) equals (value.shifted c.ids)) fun _ => m := by
  cases target with
  | var id name =>
      exact .pure rfl (Nat.le_refl m)
  | get object name =>
      exact .pure rfl (Nat.le_refl m)
  | _ =>
      exact (walks_report (.token equals) _).bind fun _ => .pure rfl (Nat.le_refl m)

theorem walks_assignment :
    Walks c A (m + 1) (Expr.shifted c.ids) (assignment ex) Walk.expression fun _ => m + 1 := by
  have hkinds : ∀ kind ∈ [Token.Kind.punct .equal], A kind := reads_of_not_mem hA (by decide)
  refine .unfold Walk.expression.eq_2 ?_
  refine (walks_disjunction hA hex).bind fun target => (walks_acceptAny? hkinds).bind fun found => ?_
  cases found with
  | none =>
      exact .pure rfl (Nat.le_refl _)
  | some equals =>
      refine hex.bind fun value => ?_
      exact (walks_assignTo target equals value).mono (Nat.le_refl _) fun _ => Nat.le_succ m

omit hex

/-- Nesting takes a token on each level. -/
theorem walks_expressionWithin
    (depth : Nat) :
    Walks c A depth (Expr.shifted c.ids) (expressionWithin depth) Walk.expression
      fun _ => depth := by
  induction depth with
  | zero =>
      exact .none
  | succ depth ih =>
      exact walks_assignment hA ih

theorem walks_expression :
    Walks c A m (Expr.shifted c.ids) expression Walk.expression fun _ => m := by
  refine .remaining fun count hcount => ?_
  exact (walks_expressionWithin hA (count + 1)).mono (Nat.le_refl _) fun _ => hcount

theorem walks_loneExpression :
    Walks c A m (Expr.shifted c.ids) loneExpression Walk.loneExpression fun _ => m :=
  (walks_expression hA).bind fun _ => walks_atEnd.bind fun _ =>
    .ite (fun _ => .pure rfl (Nat.le_refl m)) fun _ => walks_fail _ _ _

end Expressions

end Grammar
end Lox
