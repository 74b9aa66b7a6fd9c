import Lox.Proofs.Grammar.Reading

/-!
# Reading expressions

The parsers for expressions read what readings of expressions tell them to: standing in front of
tokens that have a reading, each parser takes exactly these tokens and gives the tree of the
reading, provided that the next token does not carry the expression on.

Operators of one level, calls and property names are read by loops.  What such a loop does behind
the tokens of a reading is said by `resume`: having read the tokens of a reading is the same as
standing in the loop with its tree as the left operand.
-/

namespace Lox

namespace Parser

/-- Whether the next token, if there is one, is of none of the given kinds. -/
def Avoids (kinds : List Token.Kind) (rest : List Token) : Prop :=
  ∀ t tail, rest = t :: tail → t.kind ∉ kinds

/-- In front of the tokens `ts` and then `rest`, the parser reads exactly `ts`, gives `a`, numbers
references from `i` to `j`, and reports nothing. -/
def Takes {α : Type} (p : Parser α) (i : Nat) (ts : List Token) (a : α) (j : Nat)
    (rest : List Token) : Prop :=
  ∀ (endLine : Nat) (errors : List SyntaxError),
    p ⟨ts ++ rest, endLine, i, errors⟩ = (.ok a, ⟨rest, endLine, j, errors⟩)

theorem avoids_nil (kinds : List Token.Kind) : Avoids kinds [] := by
  intro t tail h
  cases h

theorem avoids_cons
    {kinds : List Token.Kind}
    {t : Token}
    {rest : List Token}
    (h : t.kind ∉ kinds) :
    Avoids kinds (t :: rest) := by
  intro u tail heq
  cases heq
  exact h

theorem Avoids.mono
    {kinds others : List Token.Kind}
    {rest : List Token}
    (h : Avoids kinds rest)
    (hothers : others ⊆ kinds) :
    Avoids others rest := by
  intro t tail heq hmem
  exact h t tail heq (hothers hmem)

section Steps

variable {t : Token}
variable {rest : List Token}
variable {endLine i : Nat}
variable {errors : List SyntaxError}

theorem acceptAny?_hit
    {kinds : List Token.Kind}
    (h : t.kind ∈ kinds) :
    acceptAny? kinds ⟨t :: rest, endLine, i, errors⟩ =
      (.ok (some t), ⟨rest, endLine, i, errors⟩) := by
  simp [acceptAny?, h]

theorem acceptAny?_miss
    {kinds : List Token.Kind}
    (h : Avoids kinds rest) :
    acceptAny? kinds ⟨rest, endLine, i, errors⟩ =
      (.ok none, ⟨rest, endLine, i, errors⟩) := by
  cases rest with
  | nil =>
      rfl
  | cons t tail =>
      have hkind := h t tail rfl
      simp [acceptAny?, hkind]

theorem accept?_hit
    {kind : Token.Kind}
    (h : t.kind = kind) :
    accept? kind ⟨t :: rest, endLine, i, errors⟩ =
      (.ok (some t), ⟨rest, endLine, i, errors⟩) := by
  exact acceptAny?_hit (by simp [h])

theorem accept?_miss
    {kind : Token.Kind}
    (h : Avoids [kind] rest) :
    accept? kind ⟨rest, endLine, i, errors⟩ =
      (.ok none, ⟨rest, endLine, i, errors⟩) := by
  exact acceptAny?_miss h

theorem accept_hit
    {kind : Token.Kind}
    (h : t.kind = kind) :
    accept kind ⟨t :: rest, endLine, i, errors⟩ =
      (.ok true, ⟨rest, endLine, i, errors⟩) := by
  simp [accept, bind_apply, accept?_hit h]

theorem accept_miss
    {kind : Token.Kind}
    (h : Avoids [kind] rest) :
    accept kind ⟨rest, endLine, i, errors⟩ =
      (.ok false, ⟨rest, endLine, i, errors⟩) := by
  simp [accept, bind_apply, accept?_miss h]

theorem expect_hit
    {kind : Token.Kind}
    {fault : SyntaxFault}
    (h : t.kind = kind) :
    expect kind fault ⟨t :: rest, endLine, i, errors⟩ =
      (.ok t, ⟨rest, endLine, i, errors⟩) := by
  simp [expect, bind_apply, accept?_hit h]

theorem check_hit
    {kind : Token.Kind}
    (h : t.kind = kind) :
    check kind ⟨t :: rest, endLine, i, errors⟩ =
      (.ok true, ⟨t :: rest, endLine, i, errors⟩) := by
  simp [check, h]

theorem check_miss
    {kind : Token.Kind}
    (h : Avoids [kind] rest) :
    check kind ⟨rest, endLine, i, errors⟩ =
      (.ok false, ⟨rest, endLine, i, errors⟩) := by
  cases rest with
  | nil =>
      rfl
  | cons t tail =>
      have hkind : t.kind ≠ kind := by
        simpa using h t tail rfl
      simp [check, hkind]

end Steps

end Parser

namespace Grammar

open Lox.Parser

/-- The parser for expressions of the given rank, over a parser for nested expressions. -/
def level : Nat → Parser Expr → Parser Expr
  | 0 => assignment
  | 1 => disjunction
  | 2 => conjunction
  | 3 => equality
  | 4 => comparison
  | 5 => term
  | 6 => factor
  | 7 => unary
  | 8 => call
  | _ => primary

/-- The rank of the expressions that a token of the given kind carries on. -/
def carryingRank : Token.Kind → Option Nat
  | .punct .equal => some 0
  | .keyword .or => some 1
  | .keyword .and => some 2
  | .punct .bangEqual => some 3
  | .punct .equalEqual => some 3
  | .punct .greater => some 4
  | .punct .greaterEqual => some 4
  | .punct .less => some 4
  | .punct .lessEqual => some 4
  | .punct .minus => some 5
  | .punct .plus => some 5
  | .punct .star => some 6
  | .punct .slash => some 6
  | .punct .leftParen => some 8
  | .punct .dot => some 8
  | _ => none

/-- The next token carries no expression on that is at least as tight as the given rank. -/
def Stops (rank : Nat) (rest : List Token) : Prop :=
  ∀ t tail, rest = t :: tail → ∀ other, carryingRank t.kind = some other → other < rank

theorem Stops.mono
    {rank tighter : Nat}
    {rest : List Token}
    (h : Stops rank rest)
    (hle : rank ≤ tighter) :
    Stops tighter rest := by
  intro t tail heq other hother
  exact Nat.lt_of_lt_of_le (h t tail heq other hother) hle

theorem Stops.avoids
    {rank : Nat}
    {rest : List Token}
    {kinds : List Token.Kind}
    (h : Stops rank rest)
    (hkinds : ∀ kind ∈ kinds, ∃ other, carryingRank kind = some other ∧ rank ≤ other) :
    Avoids kinds rest := by
  intro t tail heq hmem
  obtain ⟨other, hother, hle⟩ := hkinds t.kind hmem
  have hlt := h t tail heq other hother
  omega

theorem stops_nil (rank : Nat) : Stops rank [] := by
  intro t tail h
  cases h

theorem stops_cons
    {rank : Nat}
    {t : Token}
    {rest : List Token}
    (h : ∀ other, carryingRank t.kind = some other → other < rank) :
    Stops rank (t :: rest) := by
  intro u tail heq
  cases heq
  exact h

/-- A token that carries nothing on stops every expression. -/
theorem stops_of_none
    {rank : Nat}
    {t : Token}
    {rest : List Token}
    (h : carryingRank t.kind = none) :
    Stops rank (t :: rest) := by
  apply stops_cons
  intro other hother
  rw [h] at hother
  cases hother

theorem carryingRank_of_operator
    {rank : Nat}
    {kind : Token.Kind}
    (h : kind ∈ operatorKinds rank) :
    carryingRank kind = some rank := by
  unfold operatorKinds at h
  split at h <;> simp at h <;> grind [carryingRank]

theorem rank_of_operator
    {rank : Nat}
    {kind : Token.Kind}
    (h : kind ∈ operatorKinds rank) :
    1 ≤ rank ∧ rank ≤ 6 := by
  unfold operatorKinds at h
  split at h <;> simp at h ⊢

/-- An operator stops all expressions that are tighter than its rank. -/
theorem stops_operator
    {rank : Nat}
    {t : Token}
    {rest : List Token}
    (h : t.kind ∈ operatorKinds rank) :
    Stops (rank + 1) (t :: rest) := by
  apply stops_cons
  intro other hother
  rw [carryingRank_of_operator h] at hother
  cases hother
  exact Nat.lt_succ_self rank

theorem Stops.avoids_operators
    {rank : Nat}
    {rest : List Token}
    (h : Stops rank rest) :
    Avoids (operatorKinds rank) rest := by
  apply h.avoids
  intro kind hmem
  exact ⟨rank, carryingRank_of_operator hmem, Nat.le_refl _⟩

section Loops

variable {ex : Parser Expr}
variable {rest : List Token}
variable {endLine i : Nat}
variable {errors : List SyntaxError}

theorem level_operators
    {rank : Nat}
    (h : 1 ≤ rank ∧ rank ≤ 6)
    (ex : Parser Expr) :
    level rank ex =
      leftAssociative (operatorKinds rank) (operatorNode rank) (level (rank + 1) ex) := by
  obtain ⟨hlow, hhigh⟩ := h
  match rank, hlow, hhigh with
  | 1, _, _ => rfl
  | 2, _, _ => rfl
  | 3, _, _ => rfl
  | 4, _, _ => rfl
  | 5, _, _ => rfl
  | 6, _, _ => rfl

theorem joinLeft_miss
    {kinds : List Token.Kind}
    {join : Expr → Token → Expr → Expr}
    {operand : Parser Expr}
    (h : Avoids kinds rest)
    (count : Nat)
    (e : Expr) :
    joinLeft kinds join operand count e ⟨rest, endLine, i, errors⟩ =
      (.ok e, ⟨rest, endLine, i, errors⟩) := by
  cases count with
  | zero =>
      rfl
  | succ count =>
      simp [joinLeft, bind_apply, acceptAny?_miss h]

theorem suffixes_miss
    (h : Stops 8 rest)
    (count : Nat)
    (e : Expr) :
    suffixes ex count e ⟨rest, endLine, i, errors⟩ =
      (.ok e, ⟨rest, endLine, i, errors⟩) := by
  cases count with
  | zero =>
      rfl
  | succ count =>
      have hparen : Avoids [.punct .leftParen] rest :=
        h.avoids (by simp [carryingRank])
      have hdot : Avoids [.punct .dot] rest :=
        h.avoids (by simp [carryingRank])
      simp [suffixes, bind_apply, accept_miss hparen, accept_miss hdot]

/-- The rest of an expression of the given rank, once its left part `e` was read. -/
def resume (ex : Parser Expr) (rank count : Nat) (e : Expr) : Parser Expr :=
  if rank = 8 then
    suffixes ex count e
  else
    joinLeft (operatorKinds rank) (operatorNode rank) (level (rank + 1) ex) count e

theorem resume_miss
    {rank : Nat}
    (h : Stops rank rest)
    (count : Nat)
    (e : Expr) :
    resume ex rank count e ⟨rest, endLine, i, errors⟩ =
      (.ok e, ⟨rest, endLine, i, errors⟩) := by
  unfold resume
  by_cases hrank : rank = 8
  · subst hrank
    rw [if_pos rfl]
    exact suffixes_miss h count e
  · rw [if_neg hrank]
    exact joinLeft_miss h.avoids_operators count e

end Loops

section Primaries

variable {ex : Parser Expr}
variable {i j : Nat}
variable {ts rest : List Token}

theorem kind_of_literal
    {t : Token}
    {value : Literal}
    (h : literalOf? t = some value) :
    t.kind = .keyword .false_ ∨ t.kind = .keyword .true_ ∨ t.kind = .keyword .null ∨
      t.kind = .number ∨ t.kind = .string := by
  unfold literalOf? Token.literal? at h
  split at h
  · simp_all
  · simp_all
  · simp_all
  · split at h <;> simp_all

theorem primaryKind_of_literal
    {t : Token}
    {value : Literal}
    (h : literalOf? t = some value) :
    t.kind ∈ primaryKinds := by
  rcases kind_of_literal h with hkind | hkind | hkind | hkind | hkind <;>
    simp [primaryKinds, hkind]

theorem takes_literal
    {t : Token}
    {value : Literal}
    (h : literalOf? t = some value) :
    (level 9 ex).Takes i [t] (.literal value) i rest := by
  intro endLine errors
  have hmem := primaryKind_of_literal h
  change primary ex ⟨t :: rest, endLine, i, errors⟩ = _
  simp only [primary, bind_apply, acceptAny?_hit hmem]
  rcases kind_of_literal h with hkind | hkind | hkind | hkind | hkind <;>
    simp [hkind, h]

theorem takes_var
    {name : Token}
    (hname : name.kind = .identifier) :
    (level 9 ex).Takes i [name] (.var i name) (i + 1) rest := by
  intro endLine errors
  have hmem : name.kind ∈ primaryKinds := by
    simp [primaryKinds, hname]
  change primary ex ⟨name :: rest, endLine, i, errors⟩ = _
  simp [primary, bind_apply, acceptAny?_hit hmem, hname, fresh]

theorem takes_this
    {keyword : Token}
    (hkeyword : keyword.kind = .keyword .this) :
    (level 9 ex).Takes i [keyword] (.this i keyword) (i + 1) rest := by
  intro endLine errors
  have hmem : keyword.kind ∈ primaryKinds := by
    simp [primaryKinds, hkeyword]
  change primary ex ⟨keyword :: rest, endLine, i, errors⟩ = _
  simp [primary, bind_apply, acceptAny?_hit hmem, hkeyword, fresh]

theorem takes_super
    {keyword dot method : Token}
    (hkeyword : keyword.kind = .keyword .super)
    (hdot : dot.kind = .punct .dot)
    (hmethod : method.kind = .identifier) :
    (level 9 ex).Takes i [keyword, dot, method] (.super i keyword method) (i + 1) rest := by
  intro endLine errors
  have hmem : keyword.kind ∈ primaryKinds := by
    simp [primaryKinds, hkeyword]
  change primary ex ⟨keyword :: dot :: method :: rest, endLine, i, errors⟩ = _
  simp [primary, superAccess, bind_apply, acceptAny?_hit hmem, hkeyword, expect_hit hdot,
    expect_hit hmethod, fresh]

theorem takes_grouping
    {leftParen rightParen : Token}
    {e : Expr}
    (hleft : leftParen.kind = .punct .leftParen)
    (hinner : ex.Takes i ts e j (rightParen :: rest))
    (hright : rightParen.kind = .punct .rightParen) :
    (level 9 ex).Takes i (leftParen :: (ts ++ [rightParen])) (.grouping e) j rest := by
  intro endLine errors
  have hmem : leftParen.kind ∈ primaryKinds := by
    simp [primaryKinds, hleft]
  have happend : leftParen :: (ts ++ [rightParen]) ++ rest =
      leftParen :: (ts ++ rightParen :: rest) := by
    simp
  rw [happend]
  change primary ex _ = _
  simp [primary, grouped, bind_apply, acceptAny?_hit hmem, hleft, hinner endLine errors,
    expect_hit hright]

end Primaries

/-- Behind the tokens `ts`, the parser of the given rank stands in its loop with `e` as the left
part, and can go round as often as there are tokens. -/
def Resumes (ex : Parser Expr) (rank i : Nat) (ts : List Token) (e : Expr) (j : Nat)
    (rest : List Token) : Prop :=
  ∃ count, rest.length ≤ count ∧
    ∀ (endLine : Nat) (errors : List SyntaxError),
      level rank ex ⟨ts ++ rest, endLine, i, errors⟩ =
        resume ex rank count e ⟨rest, endLine, j, errors⟩

section Resumption

variable {ex : Parser Expr}
variable {rank i k j : Nat}
variable {ts xs ys rest : List Token}
variable {e left right object callee value : Expr}

theorem Resumes.takes
    (h : Resumes ex rank i ts e j rest)
    (hstops : Stops rank rest) :
    (level rank ex).Takes i ts e j rest := by
  obtain ⟨count, _, hlevel⟩ := h
  intro endLine errors
  rw [hlevel]
  exact resume_miss hstops count e

/-- An expression of a rank without a loop is resumed when it is taken. -/
theorem resumes_of_takes
    (h : (level rank ex).Takes i ts e j rest)
    (hkinds : operatorKinds rank = [])
    (hrank : rank ≠ 8) :
    Resumes ex rank i ts e j rest := by
  refine ⟨rest.length, Nat.le_refl _, ?_⟩
  intro endLine errors
  rw [h endLine errors]
  unfold resume
  rw [if_neg hrank, hkinds]
  symm
  apply joinLeft_miss
  intro t tail _
  exact List.not_mem_nil

theorem signs_miss
    {endLine : Nat}
    {errors : List SyntaxError}
    (h : Avoids signKinds rest)
    (count : Nat) :
    signs count ⟨rest, endLine, i, errors⟩ = (.ok [], ⟨rest, endLine, i, errors⟩) := by
  cases count with
  | zero =>
      rfl
  | succ count =>
      have hmiss : Avoids [.punct .bang, .punct .minus] rest := h
      simp [signs, bind_apply, acceptAny?_miss hmiss]

/-- Each parser hands on what the next tighter one reads, if nothing of its own follows. -/
theorem resumes_looser
    (hrank : rank < 9)
    (h : (level (rank + 1) ex).Takes i ts e j rest)
    (hassign : rank = 0 → Stops 0 rest)
    (hsigns : rank = 7 → Avoids signKinds (ts ++ rest)) :
    Resumes ex rank i ts e j rest := by
  by_cases hoperators : 1 ≤ rank ∧ rank ≤ 6
  · refine ⟨rest.length, Nat.le_refl _, ?_⟩
    intro endLine errors
    have hne : rank ≠ 8 := by
      omega
    rw [level_operators hoperators]
    simp only [leftAssociative, bind_apply, h endLine errors, remaining, resume, if_neg hne]
  · have hcases : rank = 0 ∨ rank = 7 ∨ rank = 8 := by
      omega
    rcases hcases with rfl | rfl | rfl
    · apply resumes_of_takes _ rfl (by decide)
      intro endLine errors
      have hequal : Avoids [.punct .equal] rest :=
        (hassign rfl).avoids (by simp [carryingRank])
      have htarget : disjunction ex ⟨ts ++ rest, endLine, i, errors⟩ =
          (.ok e, ⟨rest, endLine, j, errors⟩) := h endLine errors
      change assignment ex _ = _
      simp [assignment, bind_apply, htarget, accept?_miss hequal]
    · apply resumes_of_takes _ rfl (by decide)
      intro endLine errors
      have hoperand : call ex ⟨ts ++ rest, endLine, i, errors⟩ =
          (.ok e, ⟨rest, endLine, j, errors⟩) := h endLine errors
      change unary ex _ = _
      simp only [unary, bind_apply, remaining, signs_miss (hsigns rfl), hoperand,
        List.foldr_nil, pure_apply]
    · refine ⟨rest.length, Nat.le_refl _, ?_⟩
      intro endLine errors
      have hprimary : primary ex ⟨ts ++ rest, endLine, i, errors⟩ =
          (.ok e, ⟨rest, endLine, j, errors⟩) := h endLine errors
      change call ex _ = suffixes ex _ _ _
      simp only [call, bind_apply, hprimary, remaining]

/-- What a tighter parser reads, a looser one reads as well, if nothing of its own follows. -/
theorem takes_looser
    {tighter : Nat}
    (hlow : 1 ≤ rank)
    (hle : rank ≤ tighter)
    (hhigh : tighter ≤ 9)
    (h : (level tighter ex).Takes i ts e j rest)
    (hstops : Stops rank rest)
    (hsigns : Avoids signKinds (ts ++ rest)) :
    (level rank ex).Takes i ts e j rest := by
  obtain ⟨steps, rfl⟩ := Nat.exists_eq_add_of_le hle
  induction steps with
  | zero =>
      exact h
  | succ steps ih =>
      apply ih (Nat.le_add_right _ _) (by omega)
      have hstops' : Stops (rank + steps) rest :=
        hstops.mono (Nat.le_add_right _ _)
      have hlt : rank + steps < 9 := by
        omega
      have hne : rank + steps ≠ 0 := by
        omega
      have hresumes : Resumes ex (rank + steps) i ts e j rest :=
        resumes_looser hlt h (fun hzero => absurd hzero hne) (fun _ => hsigns)
      exact hresumes.takes hstops'

theorem resumes_callNone
    {leftParen rightParen : Token}
    (hcallee : Resumes ex 8 i xs callee j (leftParen :: rightParen :: rest))
    (hleft : leftParen.kind = .punct .leftParen)
    (hright : rightParen.kind = .punct .rightParen) :
    Resumes ex 8 i (xs ++ [leftParen, rightParen]) (.call callee rightParen []) j rest := by
  obtain ⟨count, hcount, hlevel⟩ := hcallee
  cases count with
  | zero =>
      simp at hcount
  | succ count =>
      refine ⟨count, by simp at hcount; omega, ?_⟩
      intro endLine errors
      have happend : xs ++ [leftParen, rightParen] ++ rest =
          xs ++ leftParen :: rightParen :: rest := by
        simp
      rw [happend, hlevel]
      simp [resume, suffixes, finishCall, parenthesized, bind_apply, accept_hit hleft,
        check_hit hright, expect_hit hright]

theorem resumes_call
    {leftParen rightParen : Token}
    {arguments : List Expr}
    (hcallee : Resumes ex 8 i xs callee k (leftParen :: (ys ++ rightParen :: rest)))
    (hleft : leftParen.kind = .punct .leftParen)
    (hnonempty : Avoids [.punct .rightParen] (ys ++ rightParen :: rest))
    (harguments :
      (commaSeparated ex .tooManyArguments ((ys ++ rightParen :: rest).length + 1) 0).Takes
        k ys arguments j (rightParen :: rest))
    (hright : rightParen.kind = .punct .rightParen) :
    Resumes ex 8 i (xs ++ leftParen :: (ys ++ [rightParen])) (.call callee rightParen arguments)
      j rest := by
  obtain ⟨count, hcount, hlevel⟩ := hcallee
  cases count with
  | zero =>
      simp at hcount
  | succ count =>
      refine ⟨count, by simp at hcount; omega, ?_⟩
      intro endLine errors
      have happend : xs ++ leftParen :: (ys ++ [rightParen]) ++ rest =
          xs ++ leftParen :: (ys ++ rightParen :: rest) := by
        simp
      have hlist := harguments endLine errors
      rw [happend, hlevel]
      simp only [resume, if_true, suffixes, finishCall, parenthesized, bind_apply,
        accept_hit hleft, check_miss hnonempty, remaining, Bool.false_eq_true, if_false,
        hlist, expect_hit hright, pure_apply]

theorem resumes_get
    {dot name : Token}
    (hobject : Resumes ex 8 i xs object j (dot :: name :: rest))
    (hdot : dot.kind = .punct .dot)
    (hname : name.kind = .identifier) :
    Resumes ex 8 i (xs ++ [dot, name]) (.get object name) j rest := by
  obtain ⟨count, hcount, hlevel⟩ := hobject
  cases count with
  | zero =>
      simp at hcount
  | succ count =>
      refine ⟨count, by simp at hcount; omega, ?_⟩
      intro endLine errors
      have happend : xs ++ [dot, name] ++ rest = xs ++ dot :: name :: rest := by
        simp
      have hparen : Avoids [.punct .leftParen] (dot :: name :: rest) :=
        avoids_cons (by simp [hdot])
      rw [happend, hlevel]
      simp [resume, suffixes, bind_apply, accept_miss hparen, accept_hit hdot,
        expect_hit hname]

/-- A sign in front of an operand is put in front of its tree. -/
theorem takes_unary
    {sign : Token}
    (hsign : sign.kind ∈ signKinds)
    (hoperand : (level 7 ex).Takes i ts e j rest) :
    (level 7 ex).Takes i (sign :: ts) (.unary sign e) j rest := by
  intro endLine errors
  have hread : unary ex ⟨ts ++ rest, endLine, i, errors⟩ =
      (.ok e, ⟨rest, endLine, j, errors⟩) := hoperand endLine errors
  have hmem : sign.kind ∈ ([.punct .bang, .punct .minus] : List Token.Kind) := hsign
  change unary ex ⟨sign :: (ts ++ rest), endLine, i, errors⟩ = _
  simp only [unary, bind_apply, remaining, List.length_cons, signs, acceptAny?_hit hmem]
    at hread ⊢
  -- Both runs read the same further signs; only the first one differs.
  cases hsigns : signs (ts ++ rest).length ⟨ts ++ rest, endLine, i, errors⟩ with
  | mk outcome s =>
      rw [hsigns] at hread
      cases outcome with
      | error fault =>
          cases hread
      | ok operators =>
          simp only [pure_apply] at hread ⊢
          cases hcall : call ex s with
          | mk outcome s =>
              rw [hcall] at hread
              cases outcome with
              | error fault =>
                  cases hread
              | ok operand =>
                  simp only [Prod.mk.injEq, Except.ok.injEq] at hread ⊢
                  obtain ⟨htree, hstate⟩ := hread
                  simp [htree, hstate]

theorem resumes_operation
    {operator : Token}
    (hleft : Resumes ex rank i xs left k (operator :: (ys ++ rest)))
    (hoperator : operator.kind ∈ operatorKinds rank)
    (hright : (level (rank + 1) ex).Takes k ys right j rest) :
    Resumes ex rank i (xs ++ operator :: ys) (operatorNode rank left operator right) j rest := by
  obtain ⟨count, hcount, hlevel⟩ := hleft
  have hrank := rank_of_operator hoperator
  have hne : rank ≠ 8 := by
    omega
  cases count with
  | zero =>
      simp at hcount
  | succ count =>
      refine ⟨count, by simp at hcount; omega, ?_⟩
      intro endLine errors
      have happend : xs ++ operator :: ys ++ rest = xs ++ operator :: (ys ++ rest) := by
        simp
      have hoperand := hright endLine errors
      rw [happend, hlevel]
      simp only [resume, if_neg hne, joinLeft, bind_apply, acceptAny?_hit hoperator, hoperand]

/-- An assignment is read when its target is read as a variable. -/
theorem takes_assign
    {name equals : Token}
    (hname : name.kind = .identifier)
    (hequals : equals.kind = .punct .equal)
    (hvalue : ex.Takes (i + 1) ts value j rest) :
    (level 0 ex).Takes i (name :: equals :: ts) (.assign i name value) j rest := by
  intro endLine errors
  have hprimary : (level 9 ex).Takes i [name] (.var i name) (i + 1)
      (equals :: (ts ++ rest)) :=
    takes_var hname
  have hstops : Stops 1 (equals :: (ts ++ rest)) := by
    apply stops_cons
    intro other hother
    simp [hequals, carryingRank] at hother
    omega
  have hsigns : Avoids signKinds ([name] ++ equals :: (ts ++ rest)) :=
    avoids_cons (by simp [hname, signKinds])
  have htarget : disjunction ex ⟨name :: equals :: (ts ++ rest), endLine, i, errors⟩ =
      (.ok (.var i name), ⟨equals :: (ts ++ rest), endLine, i + 1, errors⟩) :=
    takes_looser (Nat.le_refl _) (by decide) (by decide) hprimary hstops hsigns endLine errors
  change assignment ex ⟨name :: equals :: (ts ++ rest), endLine, i, errors⟩ = _
  simp [assignment, bind_apply, htarget, accept?_hit hequals, hvalue endLine errors, assignTo]

/-- An assignment to a property is read when its target is read as a property. -/
theorem takes_set
    {dot name equals : Token}
    (hobject : Resumes ex 8 i xs object k (dot :: name :: equals :: (ts ++ rest)))
    (hdot : dot.kind = .punct .dot)
    (hname : name.kind = .identifier)
    (hequals : equals.kind = .punct .equal)
    (hsigns : Avoids signKinds (xs ++ dot :: name :: equals :: (ts ++ rest)))
    (hvalue : ex.Takes k ts value j rest) :
    (level 0 ex).Takes i (xs ++ dot :: name :: equals :: ts) (.set object name value) j
      rest := by
  intro endLine errors
  have hstops : Stops 1 (equals :: (ts ++ rest)) := by
    apply stops_cons
    intro other hother
    simp [hequals, carryingRank] at hother
    omega
  have hget : (level 8 ex).Takes i (xs ++ [dot, name]) (.get object name) k
      (equals :: (ts ++ rest)) :=
    (resumes_get hobject hdot hname).takes (hstops.mono (by decide))
  have happend : xs ++ [dot, name] ++ equals :: (ts ++ rest) =
      xs ++ dot :: name :: equals :: (ts ++ rest) := by
    simp
  have htarget : disjunction ex
      ⟨xs ++ dot :: name :: equals :: (ts ++ rest), endLine, i, errors⟩ =
      (.ok (.get object name), ⟨equals :: (ts ++ rest), endLine, k, errors⟩) := by
    have hdisjunction : (level 1 ex).Takes i (xs ++ [dot, name]) (.get object name) k
        (equals :: (ts ++ rest)) := by
      apply takes_looser (Nat.le_refl _) (by decide) (by decide) hget hstops
      rw [happend]
      exact hsigns
    have hread := hdisjunction endLine errors
    rw [happend] at hread
    exact hread
  have happend' : xs ++ dot :: name :: equals :: ts ++ rest =
      xs ++ dot :: name :: equals :: (ts ++ rest) := by
    simp
  rw [happend']
  change assignment ex _ = _
  simp [assignment, bind_apply, htarget, accept?_hit hequals, hvalue endLine errors, assignTo]

end Resumption

/-- The first token of an expression of the given rank: a primary, or a sign if the rank allows
for signs. -/
def Starts (rank : Nat) (ts : List Token) : Prop :=
  ∃ t tail, ts = t :: tail ∧ (t.kind ∈ primaryKinds ∨ (rank ≤ 7 ∧ t.kind ∈ signKinds))

theorem Starts.append
    {rank : Nat}
    {xs : List Token}
    (h : Starts rank xs)
    (ys : List Token) :
    Starts rank (xs ++ ys) := by
  obtain ⟨t, tail, rfl, hkind⟩ := h
  exact ⟨t, tail ++ ys, rfl, hkind⟩

theorem Starts.looser
    {rank tighter : Nat}
    {ts : List Token}
    (h : Starts tighter ts)
    (hle : rank ≤ tighter) :
    Starts rank ts := by
  obtain ⟨t, tail, rfl, hkind | ⟨hrank, hkind⟩⟩ := h
  · exact ⟨t, tail, rfl, Or.inl hkind⟩
  · exact ⟨t, tail, rfl, Or.inr ⟨by omega, hkind⟩⟩

theorem starts_cons
    {rank : Nat}
    {t : Token}
    (h : t.kind ∈ primaryKinds)
    (tail : List Token) :
    Starts rank (t :: tail) := by
  exact ⟨t, tail, rfl, Or.inl h⟩

/-- The first token of a tight expression is no sign. -/
theorem Starts.avoids_signs
    {rank : Nat}
    {ts : List Token}
    (h : Starts rank ts)
    (hrank : 8 ≤ rank)
    (rest : List Token) :
    Avoids signKinds (ts ++ rest) := by
  obtain ⟨t, tail, rfl, hkind | ⟨hle, _⟩⟩ := h
  · apply avoids_cons
    intro hsign
    simp only [signKinds, List.mem_cons, List.not_mem_nil, or_false] at hsign
    rcases hsign with hsign | hsign <;> simp [hsign, primaryKinds] at hkind
  · omega

theorem ExprReads.starts
    {rank i j : Nat}
    {ts : List Token}
    {e : Expr}
    (h : ExprReads rank i ts e j) :
    Starts rank ts := by
  -- Argument lists need no induction hypothesis: they never come first.
  refine @ExprReads.rec (fun rank _ ts _ _ _ => Starts rank ts) (fun _ _ _ _ _ => True)
    ?literal ?var ?this ?super ?grouping ?callNone ?call ?get ?unary ?operation ?assign ?set
    ?looser ?one ?more _ _ _ _ _ h
  case literal =>
    intro i t value hvalue
    exact starts_cons (primaryKind_of_literal hvalue) _
  case var =>
    intro i name hname
    exact starts_cons (by simp [primaryKinds, hname]) _
  case this =>
    intro i keyword hkeyword
    exact starts_cons (by simp [primaryKinds, hkeyword]) _
  case super =>
    intro i keyword dot method hkeyword _ _
    exact starts_cons (by simp [primaryKinds, hkeyword]) _
  case grouping =>
    intro i j ts e left right hleft _ _ _
    exact starts_cons (by simp [primaryKinds, hleft]) _
  case callNone =>
    intro i j xs callee left right _ _ _ ih
    exact ih.append _
  case call =>
    intro i k j xs ys callee arguments left right _ _ _ _ _ ih _
    exact ih.append _
  case get =>
    intro i j xs object dot name _ _ _ ih
    exact ih.append _
  case unary =>
    intro i j ts e sign hsign _ _
    exact ⟨sign, ts, rfl, Or.inr ⟨Nat.le_refl _, hsign⟩⟩
  case operation =>
    intro rank i k j xs ys left right operator _ _ _ ih _
    exact ih.append _
  case assign =>
    intro i j ts value name equals hname _ _ _
    exact starts_cons (by simp [primaryKinds, hname]) _
  case set =>
    intro i k j xs ts object value dot name equals _ _ _ _ _ ih _
    exact (ih.append _).looser (Nat.zero_le _)
  case looser =>
    intro rank i j ts e _ _ ih
    exact ih.looser (Nat.le_succ _)
  case one =>
    intros
    trivial
  case more =>
    intros
    trivial

theorem Starts.ne_nil
    {rank : Nat}
    {ts : List Token}
    (h : Starts rank ts) :
    0 < ts.length := by
  obtain ⟨t, tail, rfl, _⟩ := h
  simp

/-- No expression starts with a token of the given kind. -/
theorem Starts.avoids
    {rank : Nat}
    {ts : List Token}
    (h : Starts rank ts)
    {kind : Token.Kind}
    (hprimary : kind ∉ primaryKinds)
    (hsign : kind ∉ signKinds)
    (rest : List Token) :
    Avoids [kind] (ts ++ rest) := by
  obtain ⟨t, tail, rfl, hkind⟩ := h
  apply avoids_cons
  intro hmem
  have heq : t.kind = kind := by
    simpa using hmem
  rw [heq] at hkind
  rcases hkind with hkind | ⟨_, hkind⟩
  · exact hprimary hkind
  · exact hsign hkind

theorem carryingRank_ne_seven (kind : Token.Kind) : carryingRank kind ≠ some 7 := by
  unfold carryingRank
  split <;> simp

/-- Each argument takes a token. -/
theorem ArgumentsRead.length_le
    {i j : Nat}
    {ts : List Token}
    {arguments : List Expr}
    (h : ArgumentsRead i ts arguments j) :
    arguments.length ≤ ts.length := by
  refine @ArgumentsRead.rec (fun _ _ _ _ _ _ => True)
    (fun _ ts arguments _ _ => arguments.length ≤ ts.length)
    (by intros; trivial) (by intros; trivial) (by intros; trivial) (by intros; trivial)
    (by intros; trivial) (by intros; trivial) (by intros; trivial) (by intros; trivial)
    (by intros; trivial) (by intros; trivial) (by intros; trivial) (by intros; trivial)
    (by intros; trivial) ?one ?more _ _ _ _ h
  case one =>
    intro i j ts e he _
    exact he.starts.ne_nil
  case more =>
    intro i k j xs ys e others comma he _ _ _ ih
    have := he.starts.ne_nil
    simp
    omega

theorem ArgumentsRead.avoids_close
    {i j : Nat}
    {ts : List Token}
    {arguments : List Expr}
    (h : ArgumentsRead i ts arguments j)
    (rest : List Token) :
    Avoids [.punct .rightParen] (ts ++ rest) := by
  cases h with
  | one he =>
      exact he.starts.avoids (by decide) (by decide) rest
  | more comma he _ _ =>
      rw [List.append_assoc]
      exact he.starts.avoids (by decide) (by decide) _

theorem takes_within
    {depth i j : Nat}
    {ts rest : List Token}
    {e : Expr}
    (h : Resumes (expressionWithin depth) 0 i ts e j rest)
    (hstops : Stops 0 rest) :
    (expressionWithin (depth + 1)).Takes i ts e j rest := by
  exact h.takes hstops

mutual

/-- The parser of the rank of a reading reads its tokens as its tree. -/
theorem ExprReads.resumes :
    ∀ {rank i j : Nat} {ts : List Token} {e : Expr},
      ExprReads rank i ts e j →
      ∀ ⦃depth : Nat⦄, ts.length ≤ depth →
      ∀ ⦃rest : List Token⦄, Stops (rank + 1) rest → (rank = 0 → Stops 0 rest) →
        Resumes (expressionWithin depth) rank i ts e j rest
  | _, _, _, _, _, .literal i t value hvalue => by
      intro depth hdepth rest hstops hassign
      exact resumes_of_takes (takes_literal hvalue) rfl (by decide)
  | _, _, _, _, _, .var i name hname => by
      intro depth hdepth rest hstops hassign
      exact resumes_of_takes (takes_var hname) rfl (by decide)
  | _, _, _, _, _, .this i keyword hkeyword => by
      intro depth hdepth rest hstops hassign
      exact resumes_of_takes (takes_this hkeyword) rfl (by decide)
  | _, _, _, _, _, .super i keyword dot method hkeyword hdot hmethod => by
      intro depth hdepth rest hstops hassign
      exact resumes_of_takes (takes_super hkeyword hdot hmethod) rfl (by decide)
  | _, _, _, _, _, @ExprReads.grouping i j ts e left right hleft hinner hright => by
      intro depth hdepth rest hstops hassign
      cases depth with
      | zero =>
          simp at hdepth
      | succ depth =>
          have hlength : ts.length ≤ depth := by
            simp at hdepth
            omega
          have hclose : Stops 0 (right :: rest) :=
            stops_of_none (by rw [hright]; rfl)
          have hnested :=
            hinner.resumes hlength (hclose.mono (Nat.zero_le _)) (fun _ => hclose)
          exact resumes_of_takes
            (takes_grouping hleft (takes_within hnested hclose) hright) rfl (by decide)
  | _, _, _, _, _, @ExprReads.callNone i j xs callee left right hcallee hleft hright => by
      intro depth hdepth rest hstops hassign
      have hlength : xs.length ≤ depth := by
        simp at hdepth
        omega
      have hstops' : Stops 9 (left :: right :: rest) :=
        stops_cons (by simp [hleft, carryingRank])
      have hresumes := hcallee.resumes hlength hstops' (by simp)
      exact resumes_callNone hresumes hleft hright
  | _, _, _, _, _, @ExprReads.call i k j xs ys callee arguments left right hcallee hleft
      harguments hlimit hright => by
      intro depth hdepth rest hstops hassign
      cases depth with
      | zero =>
          simp at hdepth
      | succ depth =>
          have hlength : xs.length ≤ depth + 1 := by
            simp at hdepth
            omega
          have hlength' : ys.length ≤ depth := by
            simp at hdepth
            omega
          have hstops' : Stops 9 (left :: (ys ++ right :: rest)) :=
            stops_cons (by simp [hleft, carryingRank])
          have hclose : Stops 0 (right :: rest) :=
            stops_of_none (by rw [hright]; rfl)
          have hcomma : Avoids [.punct .comma] (right :: rest) :=
            avoids_cons (by simp [hright])
          have hcount : arguments.length ≤ (ys ++ right :: rest).length + 1 := by
            have := harguments.length_le
            simp
            omega
          have hresumes := hcallee.resumes hlength hstops' (by simp)
          have hlimit' : 0 + arguments.length ≤ maxArity := by
            simpa using hlimit
          have hlist := harguments.takes hlength' hcount hlimit' hclose hcomma
          exact resumes_call hresumes hleft (harguments.avoids_close _) hlist hright
  | _, _, _, _, _, @ExprReads.get i j xs object dot name hobject hdot hname => by
      intro depth hdepth rest hstops hassign
      have hlength : xs.length ≤ depth := by
        simp at hdepth
        omega
      have hstops' : Stops 9 (dot :: name :: rest) :=
        stops_cons (by simp [hdot, carryingRank])
      have hresumes := hobject.resumes hlength hstops' (by simp)
      exact resumes_get hresumes hdot hname
  | _, _, _, _, _, @ExprReads.unary i j ts e sign hsign hoperand => by
      intro depth hdepth rest hstops hassign
      have hlength : ts.length ≤ depth := by
        simp at hdepth
        omega
      have hresumes := hoperand.resumes hlength hstops (by simp)
      have hstops' : Stops 7 rest := by
        intro t tail heq other hother
        have hlt := hstops t tail heq other hother
        have hne : other ≠ 7 := by
          rintro rfl
          exact carryingRank_ne_seven t.kind hother
        omega
      exact resumes_of_takes (takes_unary hsign (hresumes.takes hstops')) rfl (by decide)
  | rank, _, _, _, _, @ExprReads.operation _ i k j xs ys left right operator hleft hoperator
      hright => by
      intro depth hdepth rest hstops hassign
      have hlength : xs.length ≤ depth := by
        simp at hdepth
        omega
      have hlength' : ys.length ≤ depth := by
        simp at hdepth
        omega
      have hrank := rank_of_operator hoperator
      have hne : rank ≠ 0 := by
        omega
      have hstops' : Stops (rank + 1) (operator :: (ys ++ rest)) :=
        stops_operator hoperator
      have hresumes := hleft.resumes hlength hstops' (fun hzero => absurd hzero hne)
      have hoperand :=
        hright.resumes hlength' (hstops.mono (Nat.le_succ _)) (by simp)
      exact resumes_operation hresumes hoperator (hoperand.takes hstops)
  | _, _, _, _, _, @ExprReads.assign i j ts value name equals hname hequals hvalue => by
      intro depth hdepth rest hstops hassign
      cases depth with
      | zero =>
          simp at hdepth
      | succ depth =>
          have hlength : ts.length ≤ depth := by
            simp at hdepth
            omega
          have hresumes := hvalue.resumes hlength hstops hassign
          exact resumes_of_takes
            (takes_assign hname hequals (takes_within hresumes (hassign rfl))) rfl (by decide)
  | _, _, _, _, _, @ExprReads.set i k j xs ts object value dot name equals hobject hdot hname
      hequals hvalue => by
      intro depth hdepth rest hstops hassign
      cases depth with
      | zero =>
          simp at hdepth
      | succ depth =>
          have hlength : xs.length ≤ depth + 1 := by
            simp at hdepth
            omega
          have hlength' : ts.length ≤ depth := by
            simp at hdepth
            omega
          have hstops' : Stops 9 (dot :: name :: equals :: (ts ++ rest)) :=
            stops_cons (by simp [hdot, carryingRank])
          have hresumes := hobject.resumes hlength hstops' (by simp)
          have hresumes' := hvalue.resumes hlength' hstops hassign
          have hsigns :=
            hobject.starts.avoids_signs (Nat.le_refl _) (dot :: name :: equals :: (ts ++ rest))
          exact resumes_of_takes
            (takes_set hresumes hdot hname hequals hsigns
              (takes_within hresumes' (hassign rfl)))
            rfl (by decide)
  | rank, _, _, _, _, @ExprReads.looser _ i j ts e hrank htighter => by
      intro depth hdepth rest hstops hassign
      have hresumes := htighter.resumes hdepth (hstops.mono (Nat.le_succ _)) (by simp)
      apply resumes_looser hrank (hresumes.takes hstops) hassign
      intro hseven
      subst hseven
      exact htighter.starts.avoids_signs (Nat.le_refl _) rest

/-- Arguments are read by the loop for lists with commas. -/
theorem ArgumentsRead.takes :
    ∀ {i j : Nat} {ts : List Token} {arguments : List Expr},
      ArgumentsRead i ts arguments j →
      ∀ ⦃depth : Nat⦄, ts.length ≤ depth →
      ∀ ⦃count before : Nat⦄,
        arguments.length ≤ count → before + arguments.length ≤ maxArity →
      ∀ ⦃rest : List Token⦄, Stops 0 rest → Avoids [.punct .comma] rest →
        (commaSeparated (expressionWithin (depth + 1)) .tooManyArguments count before).Takes
          i ts arguments j rest
  | _, _, _, _, .one he => by
      intro depth hdepth count before hcount hlimit rest hclose hcomma
      cases count with
      | zero =>
          simp at hcount
      | succ count =>
          have hresumes :=
            he.resumes hdepth (hclose.mono (Nat.zero_le _)) (fun _ => hclose)
          have hbelow : ¬ maxArity ≤ before := by
            simp at hlimit
            omega
          intro endLine errors
          simp [commaSeparated, bind_apply, hbelow, takes_within hresumes hclose endLine errors,
            accept_miss hcomma]
  | _, _, _, _, @ArgumentsRead.more i k j xs ys e others comma he hkind hothers => by
      intro depth hdepth count before hcount hlimit rest hclose hcomma
      cases count with
      | zero =>
          simp at hcount
      | succ count =>
          have hlength : xs.length ≤ depth := by
            simp at hdepth
            omega
          have hlength' : ys.length ≤ depth := by
            simp at hdepth
            omega
          have hstops : Stops 0 (comma :: (ys ++ rest)) :=
            stops_of_none (by rw [hkind]; rfl)
          have hresumes :=
            he.resumes hlength (hstops.mono (Nat.zero_le _)) (fun _ => hstops)
          have hcount' : others.length ≤ count := by
            simp at hcount
            omega
          have hlimit' : before + 1 + others.length ≤ maxArity := by
            simp at hlimit
            omega
          have hlist := hothers.takes hlength' hcount' hlimit' hclose hcomma
          have hbelow : ¬ maxArity ≤ before := by
            simp at hlimit
            omega
          have happend : xs ++ comma :: ys ++ rest = xs ++ comma :: (ys ++ rest) := by
            simp
          intro endLine errors
          rw [happend]
          simp [commaSeparated, bind_apply, hbelow, takes_within hresumes hstops endLine errors,
            accept_hit hkind, hlist endLine errors]

end

/-- A reading of an expression is what the parser for expressions finds. -/
theorem ExprReads.takes
    {i j : Nat}
    {ts : List Token}
    {e : Expr}
    (h : ExprReads 0 i ts e j)
    {rest : List Token}
    (hstops : Stops 0 rest) :
    expression.Takes i ts e j rest := by
  intro endLine errors
  have hlength : ts.length ≤ (ts ++ rest).length := by
    simp
  have hresumes := h.resumes hlength (hstops.mono (Nat.zero_le _)) (fun _ => hstops)
  simp only [expression, bind_apply, remaining]
  exact takes_within hresumes hstops endLine errors

end Grammar
end Lox
