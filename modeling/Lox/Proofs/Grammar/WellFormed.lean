import Lox.Grammar.Statement
import Lox.Proofs.Grammar.Shape

/-!
# Trees that are read are well formed

Whatever a parser gives, with faults or without, is shaped, keeps only tokens that it was read
from, and numbers its references without repetition.  `Yields` is the judgement for this: it also
follows parsers that fail, since another declaration may be read behind the failure, and has to
find the numbers that were given out before still unused.
-/

namespace Lox

namespace Parser

variable {α β : Type}
variable {ts : List Token}

/-- A parser that reads tokens out of `ts` leaves tokens out of `ts`, never takes numbers back, and
gives only what `R` allows between the first number and the one behind the last. -/
def Yields (ts : List Token) (p : Parser α) (R : Nat → α → Nat → Prop) : Prop :=
  ∀ s, s.rest ⊆ ts →
    (p s).2.rest ⊆ ts ∧ s.nextId ≤ (p s).2.nextId ∧
      ∀ a, (p s).1 = .ok a → R s.nextId a (p s).2.nextId

namespace Yields

theorem mono
    {p : Parser α}
    {R T : Nat → α → Nat → Prop}
    (h : Yields ts p R)
    (himp : ∀ i a j, R i a j → T i a j) :
    Yields ts p T := by
  intro s hs
  obtain ⟨hrest, hnext, hgives⟩ := h s hs
  exact ⟨hrest, hnext, fun a ha => himp _ _ _ (hgives a ha)⟩

theorem pure
    {a : α}
    {T : Nat → α → Nat → Prop}
    (h : ∀ i, T i a i) :
    Yields ts (Pure.pure a) T := by
  intro s hs
  refine ⟨hs, Nat.le_refl _, ?_⟩
  intro b hb
  cases hb
  exact h s.nextId

/-- What the second parser gives may depend on where the first one started. -/
theorem bind
    {p : Parser α}
    {f : α → Parser β}
    {R : Nat → α → Nat → Prop}
    {T : Nat → β → Nat → Prop}
    (hp : Yields ts p R)
    (hf : ∀ a, Yields ts (f a) fun k b j => ∀ i, R i a k → T i b j) :
    Yields ts (p >>= f) T := by
  intro s hs
  obtain ⟨hrest, hnext, hgives⟩ := hp s hs
  rw [bind_apply]
  rcases hrun : p s with ⟨result, s'⟩
  rw [hrun] at hrest hnext hgives
  cases result with
  | error e =>
      refine ⟨hrest, hnext, ?_⟩
      intro b hb
      cases hb
  | ok a =>
      obtain ⟨hrest', hnext', hgives'⟩ := hf a s' hrest
      refine ⟨hrest', Nat.le_trans hnext hnext', ?_⟩
      intro b hb
      exact hgives' b hb s.nextId (hgives a rfl)

theorem fail
    {fault : SyntaxFault}
    {T : Nat → α → Nat → Prop} :
    Yields ts (Parser.fail fault) T := by
  intro s hs
  refine ⟨hs, Nat.le_refl _, ?_⟩
  intro a ha
  cases ha

end Yields

/-- A parser that only looks. -/
theorem yields_look
    {p : Parser α}
    (h : ∀ s, (p s).2 = s) :
    Yields ts p fun i _ j => j = i := by
  intro s hs
  rw [h s]
  exact ⟨hs, Nat.le_refl _, fun _ _ => rfl⟩

theorem yields_remaining : Yields ts remaining fun i _ j => j = i :=
  yields_look fun _ => rfl

theorem yields_atEnd : Yields ts atEnd fun i _ j => j = i :=
  yields_look fun _ => rfl

theorem yields_check
    (kind : Token.Kind) :
    Yields ts (check kind) fun i _ j => j = i := by
  refine yields_look fun s => ?_
  unfold check
  split <;> rfl

theorem yields_report
    {found : Terminal}
    {fault : SyntaxFault} :
    Yields ts (report found fault) fun i _ j => j = i := by
  intro s hs
  exact ⟨hs, Nat.le_refl _, fun _ _ => rfl⟩

theorem yields_reportNext
    {fault : SyntaxFault} :
    Yields ts (reportNext fault) fun i _ j => j = i := by
  intro s hs
  exact ⟨hs, Nat.le_refl _, fun _ _ => rfl⟩

theorem yields_fresh : Yields ts fresh fun i n j => n = i ∧ j = i + 1 := by
  intro s hs
  refine ⟨hs, Nat.le_succ _, ?_⟩
  intro n hn
  cases hn
  exact ⟨rfl, rfl⟩

theorem yields_acceptAny?
    (kinds : List Token.Kind) :
    Yields ts (acceptAny? kinds) fun i result j =>
      j = i ∧ ∀ t, result = some t → t ∈ ts ∧ t.kind ∈ kinds := by
  intro s hs
  unfold acceptAny?
  split
  · refine ⟨hs, Nat.le_refl _, ?_⟩
    intro result hresult
    cases hresult
    simp
  · rename_i t rest hrest
    rw [hrest, List.cons_subset] at hs
    split
    · rename_i hkind
      refine ⟨hs.2, Nat.le_refl _, ?_⟩
      intro result hresult
      cases hresult
      refine ⟨rfl, ?_⟩
      intro t' ht'
      cases ht'
      exact ⟨hs.1, hkind⟩
    · refine ⟨?_, Nat.le_refl _, ?_⟩
      · rw [hrest]
        exact List.cons_subset.mpr hs
      · intro result hresult
        cases hresult
        simp

theorem yields_accept
    (kind : Token.Kind) :
    Yields ts (accept kind) fun i _ j => j = i :=
  (yields_acceptAny? [kind]).bind fun _ => .pure fun _ _ h => h.1

theorem yields_expect
    (kind : Token.Kind)
    (fault : SyntaxFault) :
    Yields ts (expect kind fault) fun i t j => j = i ∧ t ∈ ts ∧ t.kind = kind := by
  refine (yields_acceptAny? [kind]).bind fun result => ?_
  cases result with
  | none =>
      exact .fail
  | some t =>
      refine .pure ?_
      rintro k i ⟨rfl, hread⟩
      obtain ⟨hmem, hkind⟩ := hread t rfl
      exact ⟨rfl, hmem, List.mem_singleton.mp hkind⟩

section Lists

variable {R : Nat → α → Nat → Prop}
variable {T : Nat → List α → Nat → Prop}
variable {item : Parser α}
variable (hnil : ∀ i, T i [] i)
variable (hcons : ∀ {i k j a as}, R i a k → T k as j → T i (a :: as) j)
variable (hitem : Yields ts item R)

include hnil hcons hitem

theorem yields_manyUntil
    {done : Parser Bool}
    (hdone : Yields ts done fun i _ j => j = i)
    (count : Nat) :
    Yields ts (manyUntil done item count) T := by
  induction count with
  | zero =>
      exact .pure hnil
  | succ count ih =>
      refine hdone.bind fun ended => ?_
      cases ended with
      | true =>
          refine .pure ?_
          rintro k i rfl
          exact hnil k
      | false =>
          refine hitem.bind fun first => ih.bind fun rest => .pure ?_
          rintro j l hrest k hfirst i rfl
          exact hcons hfirst hrest

theorem yields_commaSeparated
    {excess : SyntaxFault}
    (count before : Nat) :
    Yields ts (commaSeparated item excess count before) T := by
  induction count generalizing before with
  | zero =>
      exact .pure hnil
  | succ count ih =>
      have hitems : Yields ts
          (do
            let first ← item
            if ← accept (.punct .comma) then
              return first :: (← commaSeparated item excess count (before + 1))
            else
              return [first])
          T := by
        refine hitem.bind fun first => (yields_accept _).bind fun more => ?_
        cases more with
        | false =>
            refine .pure ?_
            rintro k l rfl i hfirst
            exact hcons hfirst (hnil k)
        | true =>
            refine (ih (before + 1)).bind fun rest => .pure ?_
            rintro j k hrest l rfl i hfirst
            exact hcons hfirst hrest
      unfold commaSeparated
      split
      · refine yields_reportNext.bind fun _ => hitems.mono ?_
        rintro k as j has i rfl
        exact has
      · exact hitems

theorem yields_parenthesized
    {excess : SyntaxFault} :
    Yields ts (parenthesized item excess) T := by
  refine (yields_check _).bind fun closes => ?_
  cases closes with
  | true =>
      refine .pure ?_
      rintro k i rfl
      exact hnil k
  | false =>
      refine yields_remaining.bind fun count => ?_
      refine (yields_commaSeparated hnil hcons hitem (count + 1) 0).mono ?_
      rintro k as j has l rfl i rfl
      exact has

end Lists

end Parser

namespace Grammar

open Lox.Parser

/-- What reading tokens out of `ts` with numbers from `i` to `j` makes sure of. -/
structure Fits (ts : List Token) (i j : Nat) (shaped : Prop) (ids : List Nat)
    (tokens : List Token) : Prop where
  shaped : shaped
  fresh : Fresh i j ids
  le : i ≤ j
  kept : ∀ t ∈ tokens, t ∈ ts

namespace Fits

variable {ts : List Token}
variable {i j k : Nat}
variable {A B : Prop}
variable {as bs : List Nat}
variable {ps qs : List Token}

theorem empty (i : Nat) : Fits ts i i True [] [] where
  shaped := trivial
  fresh := .nil i i
  le := Nat.le_refl i
  kept := by
    simp

/-- Another way to say what is shaped, with further tokens that were read. -/
theorem recast
    (h : Fits ts i j A as ps)
    (hshaped : A → B)
    (hkept : ∀ t ∈ qs, t ∈ ps ∨ t ∈ ts) :
    Fits ts i j B as qs where
  shaped := hshaped h.shaped
  fresh := h.fresh
  le := h.le
  kept := by
    intro t ht
    rcases hkept t ht with hold | hnew
    · exact h.kept t hold
    · exact hnew

/-- One reading behind the other. -/
theorem append
    (hx : Fits ts i k A as ps)
    (hy : Fits ts k j B bs qs) :
    Fits ts i j (A ∧ B) (as ++ bs) (ps ++ qs) where
  shaped := ⟨hx.shaped, hy.shaped⟩
  fresh := hx.fresh.append hy.fresh hx.le hy.le
  le := Nat.le_trans hx.le hy.le
  kept := by
    intro t ht
    rcases List.mem_append.mp ht with ht | ht
    · exact hx.kept t ht
    · exact hy.kept t ht

/-- The numbers in another order. -/
theorem perm
    (h : Fits ts i j A as ps)
    (hperm : bs.Perm as) :
    Fits ts i j A bs ps :=
  { h with fresh := h.fresh.perm hperm }

/-- A result that what was read behind it has no part in. -/
theorem widen
    (h : Fits ts i k A as ps)
    (hkj : k ≤ j) :
    Fits ts i j A as ps where
  shaped := h.shaped
  fresh := h.fresh.widen (Nat.le_refl i) hkj
  le := Nat.le_trans h.le hkj
  kept := h.kept

end Fits

section Expressions

variable {ts : List Token}
variable {ex : Parser Expr}

/-- An expression that was read. -/
def ExprFits (ts : List Token) (i : Nat) (e : Expr) (j : Nat) : Prop :=
  Fits ts i j e.Shaped e.ids e.tokens

/-- Expressions that were read. -/
def ExprsFit (ts : List Token) (i : Nat) (es : List Expr) (j : Nat) : Prop :=
  Fits ts i j (Expr.ShapedAll es) (Expr.idsAll es) (Expr.tokensAll es)

/-- An expression that was read, or left out. -/
def OptionFits (ts : List Token) (i : Nat) (value : Option Expr) (j : Nat) : Prop :=
  Fits ts i j (Expr.ShapedOption value) (Expr.idsOption value) (Expr.tokensOption value)

theorem yields_leftAssociative
    {kinds : List Token.Kind}
    {join : Expr → Token → Expr → Expr}
    {operand : Parser Expr}
    (hjoin : ∀ {i k j left operator right}, operator ∈ ts → operator.kind ∈ kinds →
      ExprFits ts i left k → ExprFits ts k right j →
      ExprFits ts i (join left operator right) j)
    (hoperand : Yields ts operand (ExprFits ts)) :
    Yields ts (leftAssociative kinds join operand) (ExprFits ts) := by
  have hloop : ∀ count left, Yields ts (joinLeft kinds join operand count left)
      fun k e j => ∀ i, ExprFits ts i left k → ExprFits ts i e j := by
    intro count
    induction count with
    | zero =>
        intro left
        exact .pure fun _ _ hleft => hleft
    | succ count ih =>
        intro left
        refine (yields_acceptAny? kinds).bind fun result => ?_
        cases result with
        | none =>
            refine .pure ?_
            rintro k l ⟨rfl, -⟩ i hleft
            exact hleft
        | some operator =>
            refine hoperand.bind fun right => (ih _).mono ?_
            rintro k e j hothers l hright l' ⟨rfl, hread⟩ i hleft
            obtain ⟨hmem, hkind⟩ := hread operator rfl
            exact hothers i (hjoin hmem hkind hleft hright)
  refine hoperand.bind fun left => yields_remaining.bind fun count => (hloop count left).mono ?_
  rintro k e j hothers l rfl i hleft
  exact hothers i hleft

theorem binary_fits
    {kinds : List Token.Kind}
    (hkinds : kinds ⊆ binaryKinds)
    {i k j : Nat}
    {left right : Expr}
    {operator : Token}
    (hmem : operator ∈ ts)
    (hkind : operator.kind ∈ kinds)
    (hleft : ExprFits ts i left k)
    (hright : ExprFits ts k right j) :
    ExprFits ts i (.binary left operator right) j := by
  refine (hleft.append hright).recast (fun h => ⟨h.1, hkinds hkind, h.2⟩) ?_
  intro t ht
  simp only [Expr.tokens, List.mem_append, List.mem_cons] at ht ⊢
  grind

theorem logical_fits
    {kinds : List Token.Kind}
    (hkinds : kinds ⊆ logicalKinds)
    {i k j : Nat}
    {left right : Expr}
    {operator : Token}
    (hmem : operator ∈ ts)
    (hkind : operator.kind ∈ kinds)
    (hleft : ExprFits ts i left k)
    (hright : ExprFits ts k right j) :
    ExprFits ts i (.logical left operator right) j := by
  refine (hleft.append hright).recast (fun h => ⟨h.1, hkinds hkind, h.2⟩) ?_
  intro t ht
  simp only [Expr.tokens, List.mem_append, List.mem_cons] at ht ⊢
  grind

theorem yields_superAccess
    (keyword : Token) :
    Yields ts (superAccess keyword) fun i e j =>
      keyword ∈ ts → keyword.kind = .keyword .super → ExprFits ts i e j := by
  refine (yields_expect _ _).bind fun dot => (yields_expect _ _).bind fun method => ?_
  refine yields_fresh.bind fun id => .pure ?_
  rintro j k ⟨rfl, rfl⟩ l ⟨rfl, hmethod, hname⟩ i ⟨rfl, -⟩ hmem hkind
  refine ⟨⟨hkind, hname⟩, .single _, Nat.le_succ _, ?_⟩
  simp [Expr.tokens, hmem, hmethod]

theorem yields_grouped
    (hex : Yields ts ex (ExprFits ts)) :
    Yields ts (grouped ex) (ExprFits ts) := by
  refine hex.bind fun inner => (yields_expect _ _).bind fun right => .pure ?_
  rintro j k ⟨rfl, -⟩ i hinner
  exact hinner

theorem yields_primary
    (hex : Yields ts ex (ExprFits ts)) :
    Yields ts (primary ex) (ExprFits ts) := by
  refine (yields_acceptAny? _).bind fun result => ?_
  cases result with
  | none =>
      exact .fail
  | some t =>
      dsimp only
      split
      · rename_i hkind
        refine yields_fresh.bind fun id => .pure ?_
        rintro j k ⟨rfl, rfl⟩ i ⟨rfl, hread⟩
        refine ⟨hkind, .single _, Nat.le_succ _, ?_⟩
        simp [Expr.tokens, (hread t rfl).1]
      · rename_i hkind
        refine yields_fresh.bind fun id => .pure ?_
        rintro j k ⟨rfl, rfl⟩ i ⟨rfl, hread⟩
        refine ⟨hkind, .single _, Nat.le_succ _, ?_⟩
        simp [Expr.tokens, (hread t rfl).1]
      · rename_i hkind
        refine (yields_superAccess t).mono ?_
        rintro k e j he i ⟨rfl, hread⟩
        exact he (hread t rfl).1 hkind
      · refine (yields_grouped hex).mono ?_
        rintro k e j he i ⟨rfl, -⟩
        exact he
      · refine .pure ?_
        rintro k i ⟨rfl, -⟩
        exact .empty k

theorem arguments_cons_fit
    {i k j : Nat}
    {e : Expr}
    {rest : List Expr}
    (he : ExprFits ts i e k)
    (hrest : ExprsFit ts k rest j) :
    ExprsFit ts i (e :: rest) j :=
  he.append hrest

theorem yields_finishCall
    (hex : Yields ts ex (ExprFits ts))
    (callee : Expr) :
    Yields ts (finishCall ex callee) fun k e j =>
      ∀ i, ExprFits ts i callee k → ExprFits ts i e j := by
  refine (yields_parenthesized (T := ExprsFit ts) Fits.empty arguments_cons_fit hex).bind
    fun arguments => ?_
  refine (yields_expect _ _).bind fun paren => .pure ?_
  rintro j l ⟨rfl, hmem, hkind⟩ k harguments i hcallee
  refine (hcallee.append harguments).recast (fun h => ⟨h.1, hkind, h.2⟩) ?_
  intro t ht
  simp only [Expr.tokens, List.mem_append, List.mem_singleton] at ht ⊢
  grind

theorem get_fits
    {i j : Nat}
    {object : Expr}
    {name : Token}
    (hobject : ExprFits ts i object j)
    (hmem : name ∈ ts)
    (hname : name.kind = .identifier) :
    ExprFits ts i (.get object name) j := by
  refine Fits.recast hobject (fun h => ⟨h, hname⟩) ?_
  intro t ht
  simp only [Expr.tokens, List.mem_append, List.mem_singleton] at ht
  grind

theorem yields_suffixes
    (hex : Yields ts ex (ExprFits ts))
    (count : Nat)
    (e : Expr) :
    Yields ts (suffixes ex count e) fun k e' j =>
      ∀ i, ExprFits ts i e k → ExprFits ts i e' j := by
  induction count generalizing e with
  | zero =>
      exact .pure fun _ _ he => he
  | succ count ih =>
      refine (yields_accept _).bind fun calls => ?_
      cases calls with
      | true =>
          refine (yields_finishCall hex e).bind fun called => (ih called).mono ?_
          rintro k e' j hothers l hcalled l' rfl i he
          exact hothers i (hcalled i he)
      | false =>
          refine (yields_accept _).bind fun gets => ?_
          cases gets with
          | true =>
              refine (yields_expect _ _).bind fun name => (ih _).mono ?_
              rintro k e' j hothers l ⟨rfl, hmem, hname⟩ l' rfl l'' rfl i he
              exact hothers i (get_fits he hmem hname)
          | false =>
              refine .pure ?_
              rintro k l rfl l' rfl i he
              exact he

theorem yields_call
    (hex : Yields ts ex (ExprFits ts)) :
    Yields ts (call ex) (ExprFits ts) := by
  refine (yields_primary hex).bind fun e => yields_remaining.bind fun count => ?_
  refine (yields_suffixes hex count e).mono ?_
  rintro k e' j hothers l rfl i he
  exact hothers i he

theorem yields_signs
    (count : Nat) :
    Yields ts (signs count) fun i operators j =>
      j = i ∧ ∀ t ∈ operators, t ∈ ts ∧ t.kind ∈ signKinds := by
  induction count with
  | zero =>
      exact .pure fun _ => ⟨rfl, by simp⟩
  | succ count ih =>
      refine (yields_acceptAny? _).bind fun result => ?_
      cases result with
      | none =>
          refine .pure ?_
          rintro k i ⟨rfl, -⟩
          exact ⟨rfl, by simp⟩
      | some sign =>
          refine ih.bind fun operators => .pure ?_
          rintro j k ⟨rfl, hothers⟩ i ⟨rfl, hread⟩
          refine ⟨rfl, ?_⟩
          intro t ht
          rcases List.mem_cons.mp ht with rfl | ht
          · exact hread t rfl
          · exact hothers t ht

theorem signed_fits
    {i j : Nat}
    {e : Expr}
    (he : ExprFits ts i e j)
    {operators : List Token}
    (hoperators : ∀ t ∈ operators, t ∈ ts ∧ t.kind ∈ signKinds) :
    ExprFits ts i (operators.foldr .unary e) j := by
  induction operators with
  | nil =>
      exact he
  | cons sign operators ih =>
      obtain ⟨hmem, hkind⟩ := hoperators sign List.mem_cons_self
      have hothers := ih fun t ht => hoperators t (List.mem_cons_of_mem _ ht)
      refine Fits.recast hothers (fun h => ⟨hkind, h⟩) ?_
      intro t ht
      rcases List.mem_cons.mp ht with rfl | ht
      · exact .inr hmem
      · exact .inl ht

theorem yields_unary
    (hex : Yields ts ex (ExprFits ts)) :
    Yields ts (unary ex) (ExprFits ts) := by
  refine yields_remaining.bind fun count => (yields_signs count).bind fun operators => ?_
  refine (yields_call hex).bind fun operand => .pure ?_
  rintro j k hoperand l ⟨rfl, hoperators⟩ i rfl
  exact signed_fits hoperand hoperators

/-- All levels of operators, from the tightest to the loosest. -/
theorem yields_disjunction
    (hex : Yields ts ex (ExprFits ts)) :
    Yields ts (disjunction ex) (ExprFits ts) := by
  have hfactor : Yields ts (factor ex) (ExprFits ts) :=
    yields_leftAssociative (binary_fits (by decide)) (yields_unary hex)
  have hterm : Yields ts (term ex) (ExprFits ts) :=
    yields_leftAssociative (binary_fits (by decide)) hfactor
  have hcomparison : Yields ts (comparison ex) (ExprFits ts) :=
    yields_leftAssociative (binary_fits (by decide)) hterm
  have hequality : Yields ts (equality ex) (ExprFits ts) :=
    yields_leftAssociative (binary_fits (by decide)) hcomparison
  have hconjunction : Yields ts (conjunction ex) (ExprFits ts) :=
    yields_leftAssociative (logical_fits (by decide)) hequality
  exact yields_leftAssociative (logical_fits (by decide)) hconjunction

theorem yields_assignTo
    (target : Expr)
    (equals : Token)
    (value : Expr) :
    Yields ts (assignTo target equals value) fun l e j =>
      ∀ i k, ExprFits ts i target k → ExprFits ts k value l → ExprFits ts i e j := by
  unfold assignTo
  split
  · exact .pure fun _ _ _ htarget hvalue => htarget.append hvalue
  · refine .pure ?_
    intro j i k htarget hvalue
    refine (htarget.append hvalue).recast (fun h => ⟨h.1.1, h.1.2, h.2⟩) ?_
    intro t ht
    simp only [Expr.tokens, List.mem_append, List.mem_cons] at ht ⊢
    grind
  · refine yields_report.bind fun _ => .pure ?_
    rintro j l rfl i k htarget hvalue
    exact htarget.widen hvalue.le

theorem yields_assignment
    (hex : Yields ts ex (ExprFits ts)) :
    Yields ts (assignment ex) (ExprFits ts) := by
  refine (yields_disjunction hex).bind fun target => ?_
  refine (yields_acceptAny? _).bind fun result => ?_
  cases result with
  | none =>
      refine .pure ?_
      rintro k l ⟨rfl, -⟩ i htarget
      exact htarget
  | some equals =>
      refine hex.bind fun value => (yields_assignTo target equals value).mono ?_
      rintro l e j hassign k hvalue l' ⟨rfl, -⟩ i htarget
      exact hassign i _ htarget hvalue

theorem yields_expressionWithin
    (depth : Nat) :
    Yields ts (expressionWithin depth) (ExprFits ts) := by
  induction depth with
  | zero =>
      exact .fail
  | succ depth ih =>
      exact yields_assignment ih

theorem yields_expression : Yields ts expression (ExprFits ts) := by
  refine yields_remaining.bind fun count => (yields_expressionWithin (count + 1)).mono ?_
  rintro k e j he i rfl
  exact he

theorem yields_optionalExpression
    (kind : Token.Kind) :
    Yields ts (optionalExpression kind) (OptionFits ts) := by
  refine (yields_check _).bind fun missing => ?_
  cases missing with
  | true =>
      refine .pure ?_
      rintro k i rfl
      exact .empty k
  | false =>
      refine yields_expression.bind fun e => .pure ?_
      rintro j k he i rfl
      exact he

end Expressions

section Statements

variable {ts : List Token}

/-- A statement or declaration that was read. -/
def StmtFits (ts : List Token) (i : Nat) (s : Stmt) (j : Nat) : Prop :=
  Fits ts i j s.Shaped s.ids s.tokens

/-- A statement that was read and can be a branch. -/
def BranchFits (ts : List Token) (i : Nat) (s : Stmt) (j : Nat) : Prop :=
  Fits ts i j (s.isBranch = true ∧ s.Shaped) s.ids s.tokens

/-- Statements that were read. -/
def StmtsFit (ts : List Token) (i : Nat) (body : List Stmt) (j : Nat) : Prop :=
  Fits ts i j (Stmt.ShapedAll body) (Stmt.idsAll body) (Stmt.tokensAll body)

/-- A function that was read. -/
def FunctionFits (ts : List Token) (i : Nat) (decl : FunctionDecl) (j : Nat) : Prop :=
  Fits ts i j (Stmt.ShapedFunction decl) (Stmt.idsFunction decl) (Stmt.tokensFunction decl)

/-- Functions that were read. -/
def FunctionsFit (ts : List Token) (i : Nat) (methods : List FunctionDecl) (j : Nat) : Prop :=
  Fits ts i j (Stmt.ShapedFunctions methods) (Stmt.idsFunctions methods)
    (Stmt.tokensFunctions methods)

/-- What is left of a declaration: itself, or nothing where it failed. -/
def RecoveredFits (ts : List Token) (i : Nat) (s : Option Stmt) (j : Nat) : Prop :=
  StmtsFit ts i s.toList j

theorem BranchFits.stmt
    {i j : Nat}
    {s : Stmt}
    (h : BranchFits ts i s j) :
    StmtFits ts i s j :=
  h.recast And.right fun _ ht => .inl ht

theorem StmtFits.recovered
    {i j : Nat}
    {s : Stmt}
    (h : StmtFits ts i s j) :
    RecoveredFits ts i (some s) j := by
  simpa [RecoveredFits, StmtsFit, StmtFits, Stmt.ShapedAll, Stmt.idsAll, Stmt.tokensAll] using h

theorem dropToStatement_suffix (ts : List Token) : dropToStatement ts <:+ ts := by
  induction ts with
  | nil =>
      exact List.suffix_refl []
  | cons t rest ih =>
      unfold dropToStatement
      split
      · exact List.suffix_refl _
      · split
        · exact List.suffix_cons t rest
        · exact ih.trans (List.suffix_cons t rest)

theorem dropFailed_suffix_tail (ts : List Token) : dropFailed ts <:+ ts.tail := by
  cases ts with
  | nil =>
      exact List.suffix_refl []
  | cons t rest =>
      rw [dropFailed, List.tail_cons]
      split
      · exact List.suffix_refl rest
      · exact dropToStatement_suffix rest

theorem dropFailed_subset
    (rest : List Token) :
    dropFailed rest ⊆ rest :=
  ((dropFailed_suffix_tail rest).trans (List.tail_suffix rest)).subset

/-- Behind a failure there is nothing to be kept, and the numbers given out are not given out
again. -/
theorem yields_recovering
    {p : Parser Stmt}
    (hp : Yields ts p (StmtFits ts)) :
    Yields ts (recovering p) (RecoveredFits ts) := by
  intro s hs
  obtain ⟨hrest, hnext, hgives⟩ := hp s hs
  unfold recovering
  rcases hrun : p s with ⟨result, s'⟩
  rw [hrun] at hrest hnext hgives
  cases result with
  | ok a =>
      refine ⟨hrest, hnext, ?_⟩
      intro b hb
      cases hb
      exact (hgives a rfl).recovered
  | error e =>
      refine ⟨List.Subset.trans (dropFailed_subset _) hrest, hnext, ?_⟩
      intro b hb
      cases hb
      exact (Fits.empty s.nextId).widen hnext

theorem yields_bodyEnds : Yields ts bodyEnds fun i _ j => j = i := by
  refine yields_atEnd.bind fun ended => ?_
  cases ended with
  | true =>
      exact .pure fun _ _ h => h
  | false =>
      refine (yields_check _).mono ?_
      rintro k closes j rfl i rfl
      rfl

/-- Declarations one after the other, without those that failed. -/
theorem yields_declarations
    {done : Parser Bool}
    {decl : Parser (Option Stmt)}
    (hdone : Yields ts done fun i _ j => j = i)
    (hdecl : Yields ts decl (RecoveredFits ts))
    (count : Nat) :
    Yields ts (manyUntil done decl count) fun i body j => StmtsFit ts i (body.filterMap id) j := by
  refine yields_manyUntil Fits.empty ?_ hdecl hdone count
  intro i k j first rest hfirst hrest
  have h := Fits.append hfirst hrest
  cases first with
  | none =>
      exact h.recast And.right fun _ ht => .inl ht
  | some s =>
      simp only [Option.toList, Stmt.ShapedAll, Stmt.idsAll, Stmt.tokensAll, and_true,
        List.append_nil] at h
      exact h

theorem yields_block
    {decl : Parser (Option Stmt)}
    (hdecl : Yields ts decl (RecoveredFits ts)) :
    Yields ts (block decl) (StmtsFit ts) := by
  refine yields_remaining.bind fun count => ?_
  refine (yields_declarations yields_bodyEnds hdecl count).bind fun body => ?_
  refine (yields_expect _ _).bind fun brace => .pure ?_
  rintro j k ⟨rfl, -⟩ l hbody i rfl
  exact hbody

theorem yields_params :
    Yields ts (parenthesized (expect .identifier .parameterName) .tooManyParameters)
      fun i params j => j = i ∧ ∀ p ∈ params, p ∈ ts ∧ p.kind = .identifier := by
  refine yields_parenthesized (fun _ => ⟨rfl, by simp⟩) ?_ (yields_expect _ _)
  rintro i k j p params ⟨rfl, hmem, hkind⟩ ⟨rfl, hothers⟩
  refine ⟨rfl, ?_⟩
  intro q hq
  rcases List.mem_cons.mp hq with rfl | hq
  · exact ⟨hmem, hkind⟩
  · exact hothers q hq

theorem yields_function
    {decl : Parser (Option Stmt)}
    (hdecl : Yields ts decl (RecoveredFits ts))
    (sort : FunctionSort) :
    Yields ts (function decl sort) (FunctionFits ts) := by
  refine (yields_expect _ _).bind fun name => (yields_expect _ _).bind fun left => ?_
  refine yields_params.bind fun params => (yields_expect _ _).bind fun right => ?_
  refine (yields_expect _ _).bind fun brace => (yields_block hdecl).bind fun body => .pure ?_
  rintro j k hbody l ⟨rfl, -⟩ l' ⟨rfl, -⟩ m ⟨rfl, hparams⟩ m' ⟨rfl, -⟩ i ⟨rfl, hmem, hname⟩
  refine Fits.recast hbody (fun h => ⟨hname, fun p hp => (hparams p hp).2, h⟩) ?_
  intro t ht
  simp only [Stmt.tokensFunction, List.mem_cons, List.mem_append] at ht
  rcases ht with rfl | ht | ht
  · exact .inr hmem
  · exact .inr (hparams t ht).1
  · exact .inl ht

theorem yields_superclass :
    Yields ts superclass fun i parent j =>
      Fits ts i j (Expr.VariableOption parent) (Expr.idsOption parent)
        (Expr.tokensOption parent) := by
  refine (yields_accept _).bind fun derived => ?_
  cases derived with
  | false =>
      refine .pure ?_
      rintro k i rfl
      exact .empty k
  | true =>
      refine (yields_expect _ _).bind fun name => yields_fresh.bind fun id => .pure ?_
      rintro j k ⟨rfl, rfl⟩ l ⟨rfl, hmem, hname⟩ i rfl
      refine ⟨hname, .single _, Nat.le_succ _, ?_⟩
      simp [Expr.tokensOption, Expr.tokens, hmem]

theorem yields_classDeclaration
    {decl : Parser (Option Stmt)}
    (hdecl : Yields ts decl (RecoveredFits ts)) :
    Yields ts (classDeclaration decl) (StmtFits ts) := by
  refine (yields_expect _ _).bind fun name => yields_superclass.bind fun parent => ?_
  refine (yields_expect _ _).bind fun left => yields_remaining.bind fun count => ?_
  refine (yields_manyUntil (T := FunctionsFit ts) Fits.empty (fun hf hrest => hf.append hrest)
    (yields_function hdecl .method) yields_bodyEnds count).bind fun methods => ?_
  refine (yields_expect _ _).bind fun right => .pure ?_
  rintro j k ⟨rfl, -⟩ l hmethods l' rfl m ⟨rfl, -⟩ m' hparent i ⟨rfl, hmem, hname⟩
  refine (hparent.append hmethods).recast (fun h => ⟨hname, h⟩) ?_
  intro t ht
  rcases List.mem_cons.mp ht with rfl | ht
  · exact .inr hmem
  · exact .inl ht

theorem yields_variableDeclaration : Yields ts variableDeclaration (StmtFits ts) := by
  have hend : ∀ name initializer, Yields ts
      (do
        let _ ← expect (.punct .semicolon) .variableEnd
        return Stmt.var name initializer)
      fun k s j => ∀ i, name ∈ ts → name.kind = .identifier →
        OptionFits ts i initializer k → StmtFits ts i s j := by
    intro name initializer
    refine (yields_expect _ _).bind fun semicolon => .pure ?_
    rintro j k ⟨rfl, -⟩ i hmem hname hinitializer
    refine Fits.recast hinitializer (fun h => ⟨hname, h⟩) ?_
    intro t ht
    rcases List.mem_cons.mp ht with rfl | ht
    · exact .inr hmem
    · exact .inl ht
  refine (yields_expect _ _).bind fun name => (yields_accept _).bind fun initialized => ?_
  cases initialized with
  | false =>
      refine (hend name none).mono ?_
      rintro k s j hs l rfl i ⟨rfl, hmem, hname⟩
      exact hs k hmem hname (.empty k)
  | true =>
      refine yields_expression.bind fun e => (hend name (some e)).mono ?_
      rintro k s j hs l he l' rfl i ⟨rfl, hmem, hname⟩
      exact hs _ hmem hname he

theorem yields_expressionStatement : Yields ts expressionStatement (BranchFits ts) := by
  refine yields_expression.bind fun e => (yields_expect _ _).bind fun semicolon => .pure ?_
  rintro j k ⟨rfl, -⟩ i he
  exact Fits.recast he (fun h => ⟨rfl, h⟩) fun _ ht => .inl ht

theorem yields_printStatement : Yields ts printStatement (BranchFits ts) := by
  refine yields_expression.bind fun e => (yields_expect _ _).bind fun semicolon => .pure ?_
  rintro j k ⟨rfl, -⟩ i he
  exact Fits.recast he (fun h => ⟨rfl, h⟩) fun _ ht => .inl ht

theorem yields_forInitializer : Yields ts forInitializer (RecoveredFits ts) := by
  refine (yields_accept _).bind fun missing => ?_
  cases missing with
  | true =>
      refine .pure ?_
      rintro k i rfl
      exact .empty k
  | false =>
      refine (yields_accept _).bind fun declared => ?_
      cases declared with
      | true =>
          refine yields_variableDeclaration.bind fun s => .pure ?_
          rintro j k hs l rfl i rfl
          exact hs.recovered
      | false =>
          refine yields_expressionStatement.bind fun s => .pure ?_
          rintro j k hs l rfl i rfl
          exact hs.stmt.recovered

/-- The condition of a `for` loop is always there. -/
theorem condition_fits
    {i j : Nat}
    {condition : Option Expr}
    (h : OptionFits ts i condition j) :
    ExprFits ts i (condition.getD (.literal (.bool true))) j := by
  cases condition with
  | none =>
      exact ⟨trivial, h.fresh, h.le, h.kept⟩
  | some e =>
      exact h

theorem loop_fits
    {i k j : Nat}
    {condition : Expr}
    {body : Stmt}
    (hcondition : ExprFits ts i condition k)
    (hbody : BranchFits ts k body j) :
    BranchFits ts i (.loop condition body) j :=
  (Fits.append hcondition hbody).recast (fun h => ⟨rfl, h⟩) fun _ ht => .inl ht

/-- The body of a `for` loop with the increment behind it. -/
def roundOf (increment : Option Expr) (body : Stmt) : Stmt :=
  match increment with
  | some e => .block [body, .expression e]
  | none => body

/-- The increment is read in front of the body and stands behind it. -/
theorem roundOf_fits
    {i k j : Nat}
    {increment : Option Expr}
    {body : Stmt}
    (hincrement : OptionFits ts i increment k)
    (hbody : BranchFits ts k body j) :
    BranchFits ts i (roundOf increment body) j := by
  have h := Fits.append hincrement hbody
  cases increment with
  | none =>
      exact h.recast And.right fun _ ht => .inl ht
  | some e =>
      have hperm : (roundOf (some e) body).ids.Perm (e.ids ++ body.ids) := by
        simpa [roundOf, Stmt.ids, Stmt.idsAll] using List.perm_append_comm
      refine Fits.perm (h.recast (fun h => ⟨rfl, h.2.2, h.1, trivial⟩) ?_) hperm
      intro t ht
      simp only [roundOf, Stmt.tokens, Stmt.tokensAll, List.append_nil, List.mem_append] at ht
      exact .inl (List.mem_append.mpr ht.symm)

/-- What a `for` loop is read as is shaped. -/
theorem forLoop_fits
    {i k l m j : Nat}
    {first : Option Stmt}
    {condition increment : Option Expr}
    {body : Stmt}
    (hfirst : RecoveredFits ts i first k)
    (hcondition : OptionFits ts k condition l)
    (hincrement : OptionFits ts l increment m)
    (hbody : BranchFits ts m body j) :
    BranchFits ts i (forLoop first condition increment body) j := by
  have hloop := loop_fits (condition_fits hcondition) (roundOf_fits hincrement hbody)
  have h := Fits.append hfirst hloop
  cases first with
  | none =>
      exact h.recast And.right fun _ ht => .inl ht
  | some s =>
      have hblock : forLoop (some s) condition increment body =
          .block [s, .loop (condition.getD (.literal (.bool true))) (roundOf increment body)] := by
        rfl
      rw [hblock]
      refine ⟨⟨rfl, h.shaped.1.1, hloop.shaped.2, trivial⟩, ?_, h.le, ?_⟩
      · simpa [Stmt.ids, Stmt.idsAll] using h.fresh
      · simpa [Stmt.tokens, Stmt.tokensAll] using h.kept

variable {nested : Parser Stmt}
variable {inner : Parser (Option Stmt)}

theorem yields_forStatement
    (hnested : Yields ts nested (BranchFits ts)) :
    Yields ts (forStatement nested) (BranchFits ts) := by
  refine (yields_expect _ _).bind fun left => yields_forInitializer.bind fun first => ?_
  refine (yields_optionalExpression _).bind fun condition => ?_
  refine (yields_expect _ _).bind fun semicolon => ?_
  refine (yields_optionalExpression _).bind fun increment => ?_
  refine (yields_expect _ _).bind fun right => hnested.bind fun body => .pure ?_
  rintro j k hbody l ⟨rfl, -⟩ l' hincrement m ⟨rfl, -⟩ m' hcondition n hfirst i ⟨rfl, -⟩
  exact forLoop_fits hfirst hcondition hincrement hbody

theorem yields_ifStatement
    (hnested : Yields ts nested (BranchFits ts)) :
    Yields ts (ifStatement nested) (BranchFits ts) := by
  refine (yields_expect _ _).bind fun left => yields_expression.bind fun condition => ?_
  refine (yields_expect _ _).bind fun right => hnested.bind fun thenBranch => ?_
  refine (yields_accept _).bind fun other => ?_
  cases other with
  | false =>
      refine .pure ?_
      rintro j k rfl l hthen l' ⟨rfl, -⟩ m hcondition i ⟨rfl, -⟩
      exact (Fits.append hcondition hthen).recast (fun h => ⟨rfl, h⟩) fun _ ht => .inl ht
  | true =>
      refine hnested.bind fun elseBranch => .pure ?_
      rintro j k helse l rfl l' hthen m ⟨rfl, -⟩ m' hcondition i ⟨rfl, -⟩
      refine (Fits.append hcondition (Fits.append hthen helse)).recast ?_ fun _ ht => .inl ht
      rintro ⟨hc, ⟨hb, hs⟩, hb', hs'⟩
      exact ⟨rfl, hc, hb, hs, hb', hs'⟩

theorem yields_whileStatement
    (hnested : Yields ts nested (BranchFits ts)) :
    Yields ts (whileStatement nested) (BranchFits ts) := by
  refine (yields_expect _ _).bind fun left => yields_expression.bind fun condition => ?_
  refine (yields_expect _ _).bind fun right => hnested.bind fun body => .pure ?_
  rintro j k hbody l ⟨rfl, -⟩ l' hcondition i ⟨rfl, -⟩
  exact loop_fits hcondition hbody

theorem yields_returnStatement
    (keyword : Token) :
    Yields ts (returnStatement keyword) fun i s j =>
      keyword ∈ ts → keyword.kind = .keyword .return_ → BranchFits ts i s j := by
  refine (yields_optionalExpression _).bind fun value => (yields_expect _ _).bind fun semicolon => ?_
  refine .pure ?_
  rintro j k ⟨rfl, -⟩ i hvalue hmem hkind
  refine Fits.recast hvalue (fun h => ⟨rfl, hkind, h⟩) ?_
  intro t ht
  rcases List.mem_cons.mp ht with rfl | ht
  · exact .inr hmem
  · exact .inl ht

theorem yields_statement
    (hnested : Yields ts nested (BranchFits ts))
    (hinner : Yields ts inner (RecoveredFits ts)) :
    Yields ts (statement nested inner) (BranchFits ts) := by
  refine (yields_acceptAny? _).bind fun result => ?_
  cases result with
  | none =>
      refine yields_expressionStatement.mono ?_
      rintro k s j hs i ⟨rfl, -⟩
      exact hs
  | some t =>
      dsimp only
      split
      · refine (yields_forStatement hnested).mono ?_
        rintro k s j hs i ⟨rfl, -⟩
        exact hs
      · refine (yields_ifStatement hnested).mono ?_
        rintro k s j hs i ⟨rfl, -⟩
        exact hs
      · refine (yields_whileStatement hnested).mono ?_
        rintro k s j hs i ⟨rfl, -⟩
        exact hs
      · rename_i hkind
        refine (yields_returnStatement t).mono ?_
        rintro k s j hs i ⟨rfl, hread⟩
        exact hs (hread t rfl).1 hkind
      · refine (yields_block hinner).bind fun body => .pure ?_
        rintro j k hbody i ⟨rfl, -⟩
        exact Fits.recast hbody (fun h => ⟨rfl, h⟩) fun _ ht => .inl ht
      · refine yields_printStatement.mono ?_
        rintro k s j hs i ⟨rfl, -⟩
        exact hs

theorem yields_declaration
    (hnested : Yields ts nested (BranchFits ts))
    (hinner : Yields ts inner (RecoveredFits ts)) :
    Yields ts (declaration nested inner) (RecoveredFits ts) := by
  refine yields_recovering ?_
  refine (yields_accept _).bind fun isClass => ?_
  cases isClass with
  | true =>
      refine (yields_classDeclaration hinner).mono ?_
      rintro k s j hs i rfl
      exact hs
  | false =>
      refine (yields_accept _).bind fun isFunction => ?_
      cases isFunction with
      | true =>
          refine (yields_function hinner .function).bind fun decl => .pure ?_
          rintro j k hdecl l rfl i rfl
          exact hdecl
      | false =>
          refine (yields_accept _).bind fun isVariable => ?_
          cases isVariable with
          | true =>
              refine yields_variableDeclaration.mono ?_
              rintro k s j hs l rfl l' rfl i rfl
              exact hs
          | false =>
              refine (yields_statement hnested hinner).mono ?_
              rintro k s j hs l rfl l' rfl i rfl
              exact hs.stmt

end Statements

theorem yields_within
    {ts : List Token}
    (depth : Nat) :
    Yields ts (statementWithin depth) (BranchFits ts) ∧
      Yields ts (declarationWithin depth) (RecoveredFits ts) := by
  induction depth with
  | zero =>
      exact ⟨.fail, yields_recovering .fail⟩
  | succ depth ih =>
      exact ⟨yields_statement ih.1 ih.2, yields_declaration ih.1 ih.2⟩

/-- What is known of every program that is read, with faults or without. -/
theorem readProgram_fits
    (ts : List Token)
    (endLine : Nat) :
    Fits ts 0 (Grammar.readProgram ts endLine).idCount
      (Stmt.ShapedAll (Grammar.readProgram ts endLine).result)
      (Stmt.idsAll (Grammar.readProgram ts endLine).result)
      (Stmt.tokensAll (Grammar.readProgram ts endLine).result) := by
  have hprogram : Yields ts program (StmtsFit ts) := by
    refine yields_remaining.bind fun count => ?_
    refine (yields_declarations yields_atEnd (yields_within (count + 1)).2 count).bind fun body => ?_
    refine .pure ?_
    rintro j k hbody i rfl
    exact hbody
  obtain ⟨-, hnext, hgives⟩ := hprogram ⟨ts, endLine, 0, []⟩ (List.Subset.refl ts)
  unfold Grammar.readProgram
  rcases hrun : program ⟨ts, endLine, 0, []⟩ with ⟨result, s⟩
  rw [hrun] at hnext hgives
  cases result with
  | ok statements =>
      exact hgives statements rfl
  | error e =>
      exact (Fits.empty 0).widen hnext

end Grammar

end Lox
