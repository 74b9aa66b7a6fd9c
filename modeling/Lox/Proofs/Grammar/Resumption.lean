import Lox.Proofs.Grammar.Progress
import Mathlib.Order.Bounds.Basic

/-!
# Where reading goes on after a failure

A declaration that fails leaves the parser in front of some token.  Reading goes on at the next
boundary: in front of a keyword that starts a statement, behind a semicolon, or at the end of the
text.  But the token in front of which the parser stood is dropped unseen.  So if it is itself such a
keyword, as it is where a semicolon was forgotten, then the statement that it starts is lost; if it is
none, nothing is lost.
-/

namespace Lox
namespace Grammar

open Lox.Parser

/-- Places are indices in a list of tokens.  From one place on, another one is a boundary between
statements if it is the end, if a statement can start there, or if it is behind a semicolon that was
passed. -/
def Boundary (tokens : List Token) (from_ place : Nat) : Prop :=
  place = tokens.length ∨
    (∃ t, tokens[place]? = some t ∧ startsStatement t.kind = true) ∨
    (from_ < place ∧ ∃ t, tokens[place - 1]? = some t ∧ t.kind = .punct .semicolon)

section Boundaries

variable {tokens rest : List Token}
variable {t : Token}
variable {i k : Nat}

theorem getElem?_of_drop_eq_cons (h : tokens.drop k = t :: rest) : tokens[k]? = some t := by
  rw [← List.head?_drop, h, List.head?_cons]

theorem drop_succ_of_drop_eq_cons (h : tokens.drop k = t :: rest) : tokens.drop (k + 1) = rest := by
  rw [← List.tail_drop, h, List.tail_cons]

/-- Here no keyword stands, and no semicolon in front of it. -/
theorem not_boundary
    (hat : tokens[k]? = some t)
    (hstarts : startsStatement t.kind = false)
    (hbehind : ∀ x, i < k → tokens[k - 1]? = some x → x.kind ≠ .punct .semicolon) :
    ¬ Boundary tokens i k := by
  rintro (hend | ⟨x, hx, hword⟩ | ⟨hlt, x, hx, hsemicolon⟩)
  · rw [hend, List.getElem?_eq_none (Nat.le_refl _)] at hat
    cases hat
  · rw [hat] at hx
    cases hx
    rw [hstarts] at hword
    cases hword
  · exact hbehind x hlt hx hsemicolon

/-- The search for the next boundary need not look where none is. -/
theorem isLeast_boundary_of_succ
    (hnot : ¬ Boundary tokens i k)
    (j : Nat) :
    IsLeast { n | k ≤ n ∧ Boundary tokens i n } j ↔
      IsLeast { n | k + 1 ≤ n ∧ Boundary tokens i n } j := by
  have hsame : { n | k ≤ n ∧ Boundary tokens i n } = { n | k + 1 ≤ n ∧ Boundary tokens i n } := by
    ext n
    constructor
    · rintro ⟨hle, hboundary⟩
      have hne : k ≠ n := by
        rintro rfl
        exact hnot hboundary
      exact ⟨by omega, hboundary⟩
    · rintro ⟨hle, hboundary⟩
      exact ⟨by omega, hboundary⟩
  rw [hsame]

theorem isLeast_boundary_self
    (h : Boundary tokens i k) :
    IsLeast { n | k ≤ n ∧ Boundary tokens i n } k :=
  ⟨⟨Nat.le_refl k, h⟩, fun _ hn => hn.1⟩

end Boundaries

section Dropping

variable {tokens : List Token}
variable {i : Nat}

/-- Behind a token that is no semicolon, tokens are dropped up to the next boundary. -/
theorem exists_dropToStatement
    (rest : List Token)
    {k : Nat}
    (hrest : tokens.drop k = rest)
    (hle : k ≤ tokens.length)
    (hfrom : i < k)
    (hbehind : ∀ x, tokens[k - 1]? = some x → x.kind ≠ .punct .semicolon) :
    ∃ j, dropToStatement rest = tokens.drop j ∧
      IsLeast { n | k ≤ n ∧ Boundary tokens i n } j := by
  induction rest generalizing k with
  | nil =>
      have hend : k = tokens.length := Nat.le_antisymm hle (List.drop_eq_nil_iff.mp hrest)
      exact ⟨k, hrest.symm, isLeast_boundary_self (.inl hend)⟩
  | cons t rest ih =>
      have hat := getElem?_of_drop_eq_cons hrest
      have hnext := drop_succ_of_drop_eq_cons hrest
      have hlt : k < tokens.length := (List.getElem?_eq_some_iff.mp hat).1
      rw [dropToStatement]
      cases hstarts : startsStatement t.kind with
      | true =>
          exact ⟨k, hrest.symm, isLeast_boundary_self (.inr (.inl ⟨t, hat, hstarts⟩))⟩
      | false =>
          have hnot : ¬ Boundary tokens i k := not_boundary hat hstarts fun x _ => hbehind x
          by_cases hsemicolon : t.kind = .punct .semicolon
          · refine ⟨k + 1, by simp [hsemicolon, hnext], ?_⟩
            rw [isLeast_boundary_of_succ hnot]
            exact isLeast_boundary_self (.inr (.inr ⟨by omega, t, hat, hsemicolon⟩))
          · have hpassed : ∀ x, tokens[k + 1 - 1]? = some x → x.kind ≠ .punct .semicolon := by
              intro x hx
              rw [Nat.add_sub_cancel, hat] at hx
              cases hx
              exact hsemicolon
            obtain ⟨j, hdrop, hleast⟩ := ih hnext hlt (by omega) hpassed
            refine ⟨j, by simp [hsemicolon, hdrop], ?_⟩
            rwa [isLeast_boundary_of_succ hnot]

/-- After a failure at a place, reading goes on at the first boundary behind it. -/
theorem exists_dropFailed
    (hle : i ≤ tokens.length) :
    ∃ j, dropFailed (tokens.drop i) = tokens.drop j ∧
      IsLeast { n | min (i + 1) tokens.length ≤ n ∧ Boundary tokens i n } j := by
  cases hrest : tokens.drop i with
  | nil =>
      have hend : i = tokens.length := Nat.le_antisymm hle (List.drop_eq_nil_iff.mp hrest)
      have hmin : min (i + 1) tokens.length = i := by
        omega
      rw [hmin]
      exact ⟨i, hrest.symm, isLeast_boundary_self (.inl hend)⟩
  | cons t rest =>
      have hat := getElem?_of_drop_eq_cons hrest
      have hnext := drop_succ_of_drop_eq_cons hrest
      have hlt : i < tokens.length := (List.getElem?_eq_some_iff.mp hat).1
      rw [Nat.min_eq_left hlt, dropFailed]
      by_cases hsemicolon : t.kind = .punct .semicolon
      · refine ⟨i + 1, by simp [hsemicolon, hnext], ?_⟩
        exact isLeast_boundary_self (.inr (.inr ⟨Nat.lt_succ_self i, t, hat, hsemicolon⟩))
      · have hpassed : ∀ x, tokens[i + 1 - 1]? = some x → x.kind ≠ .punct .semicolon := by
          intro x hx
          rw [Nat.add_sub_cancel, hat] at hx
          cases hx
          exact hsemicolon
        rw [if_neg hsemicolon]
        exact exists_dropToStatement rest hnext hlt (Nat.lt_succ_self i) hpassed

/-- That is the first boundary from the place on, unless the token there starts a statement. -/
theorem isLeast_boundary_iff
    (hle : i ≤ tokens.length)
    {j : Nat}
    (hleast : IsLeast { n | min (i + 1) tokens.length ≤ n ∧ Boundary tokens i n } j) :
    IsLeast { n | i ≤ n ∧ Boundary tokens i n } j ↔
      ∀ t, tokens[i]? = some t → startsStatement t.kind = false := by
  constructor
  · intro hfirst t hat
    have hlt : i < tokens.length := (List.getElem?_eq_some_iff.mp hat).1
    have hbehind := hleast.1.1
    cases hstarts : startsStatement t.kind with
    | false =>
        rfl
    | true =>
        have hhere : j ≤ i := hfirst.2 ⟨Nat.le_refl i, .inr (.inl ⟨t, hat, hstarts⟩)⟩
        omega
  · intro hnone
    rcases Nat.lt_or_eq_of_le hle with hlt | hend
    · have hat := List.getElem?_eq_getElem hlt
      have hnot : ¬ Boundary tokens i i :=
        not_boundary hat (hnone _ hat) fun _ h => absurd h (Nat.lt_irrefl i)
      rw [isLeast_boundary_of_succ hnot]
      rwa [Nat.min_eq_left hlt] at hleast
    · rwa [show min (i + 1) tokens.length = i by omega] at hleast

end Dropping

/-- Reading goes on at the first boundary behind the token in front of which a declaration failed,
so no other keyword that starts a statement is dropped.  It goes on at the first boundary from that
token on, and so drops none at all, if and only if that token starts no statement. -/
theorem failed_declaration_resumes
    {tokens : List Token}
    {depth : Nat}
    {s s' : State}
    {e : SyntaxError}
    (htokens : s.rest <:+ tokens)
    (hdepth : s.rest.length ≤ depth)
    (hfails : attempt (statementWithin depth) (declarationWithin depth) s = (.error e, s')) :
    ∃ i j, i ≤ tokens.length ∧ s'.rest = tokens.drop i ∧
      declarationWithin (depth + 1) s = (.ok none, { s'.report e with rest := tokens.drop j }) ∧
      IsLeast { n | min (i + 1) tokens.length ≤ n ∧ Boundary tokens i n } j ∧
      (∀ n t, i < n → n < j → tokens[n]? = some t → startsStatement t.kind = false) ∧
      (IsLeast { n | i ≤ n ∧ Boundary tokens i n } j ↔
        ∀ t, tokens[i]? = some t → startsStatement t.kind = false) := by
  have hwalks := walks_attemptWithin (c := .whole [⟨.identifier, "", 0⟩] 0) (A := fun _ => True)
    (fun _ => trivial) (List.cons_ne_nil _ _) depth
  obtain ⟨front, hfront, -⟩ := (hwalks s (Nat.lt_succ_of_le hdepth)).1.reads
  rw [hfails] at hfront
  have hsuffix : s'.rest <:+ tokens := List.IsSuffix.trans ⟨front, hfront.symm⟩ htokens
  obtain ⟨i, hi, hrest⟩ : ∃ i, i ≤ tokens.length ∧ s'.rest = tokens.drop i :=
    ⟨tokens.length - s'.rest.length, Nat.sub_le _ _, List.suffix_iff_eq_drop.mp hsuffix⟩
  obtain ⟨j, hdrop, hleast⟩ := exists_dropFailed hi
  refine ⟨i, j, hi, hrest, ?_, hleast, ?_, isLeast_boundary_iff hi hleast⟩
  · change declaration _ _ _ = _
    rw [declaration_eq, recovering, hfails]
    simp only [hrest, hdrop]
  · intro n t hbehind hlt hat
    cases hstarts : startsStatement t.kind with
    | false =>
        rfl
    | true =>
        have hle : j ≤ n := hleast.2 ⟨by omega, .inr (.inl ⟨t, hat, hstarts⟩)⟩
        omega

/-- Two print statements, with the semicolon between them forgotten. -/
def forgottenSemicolon : List Token :=
  [⟨.keyword .print, "print", 1⟩, ⟨.identifier, "a", 1⟩, ⟨.keyword .print, "print", 1⟩,
    ⟨.identifier, "b", 1⟩, ⟨.punct .semicolon, ";", 1⟩]

theorem attempt_forgottenSemicolon :
    attempt (statementWithin 5) (declarationWithin 5) ⟨forgottenSemicolon, 1, 0, []⟩ =
      (.error ⟨.token ⟨.keyword .print, "print", 1⟩, .printEnd⟩,
        ⟨forgottenSemicolon.drop 2, 1, 1, []⟩) := by
  rfl

theorem failed_declaration_resumes_forgottenSemicolon :
    attempt (statementWithin 5) (declarationWithin 5) ⟨forgottenSemicolon, 1, 0, []⟩ =
        (.error ⟨.token ⟨.keyword .print, "print", 1⟩, .printEnd⟩,
          ⟨forgottenSemicolon.drop 2, 1, 1, []⟩) ∧
      ∃ i j, i ≤ 5 ∧ forgottenSemicolon.drop 2 = forgottenSemicolon.drop i ∧
        (declarationWithin 6 ⟨forgottenSemicolon, 1, 0, []⟩).2.rest = forgottenSemicolon.drop j ∧
        IsLeast { n | min (i + 1) 5 ≤ n ∧ Boundary forgottenSemicolon i n } j := by
  obtain ⟨i, j, hi, hrest, hruns, hleast, -⟩ := failed_declaration_resumes
    (s := ⟨forgottenSemicolon, 1, 0, []⟩) (List.suffix_refl _) (Nat.le_refl 5)
    attempt_forgottenSemicolon
  exact ⟨attempt_forgottenSemicolon, i, j, hi, hrest, by rw [hruns], hleast⟩

/-- The second statement could be read: the parser stands in front of it.  But it is dropped, too,
and nothing is read. -/
theorem forgottenSemicolon_drops_keyword :
    attempt (statementWithin 5) (declarationWithin 5) ⟨forgottenSemicolon, 1, 0, []⟩ =
        (.error ⟨.token ⟨.keyword .print, "print", 1⟩, .printEnd⟩,
          ⟨forgottenSemicolon.drop 2, 1, 1, []⟩) ∧
      IsLeast { n | 2 ≤ n ∧ Boundary forgottenSemicolon 2 n } 2 ∧
      (declarationWithin 6 ⟨forgottenSemicolon, 1, 0, []⟩).2.rest ≠ forgottenSemicolon.drop 2 ∧
      Grammar.readProgram forgottenSemicolon 1 =
        ⟨[], [⟨.token ⟨.keyword .print, "print", 1⟩, .printEnd⟩], 1⟩ := by
  refine ⟨attempt_forgottenSemicolon, ?_, by decide, by rfl⟩
  exact isLeast_boundary_self (.inr (.inl ⟨⟨.keyword .print, "print", 1⟩, rfl, rfl⟩))

end Grammar
end Lox
