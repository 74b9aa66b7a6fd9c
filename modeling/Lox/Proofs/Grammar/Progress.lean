import Lox.Proofs.Grammar.WalkStatement
import Lox.Token.Scan

/-!
# Reading always gets to the end

A walk along a whole list does what the parsers do there, whatever the list is.  So it ends, which is
to say that it has an answer with any fuel that is enough; it looks at terminals of the list only,
and it never moves backward.  Each declaration that it comes to moves it forward, so a program is
read up to the end of the text.
-/

namespace Lox

/-- The walker stands in the list, has looked at terminals of it only, and never further back than
before. -/
structure Walker.Orderly (n : Nat) (k : Walker) : Prop where
  le : k.current ≤ n
  within : ∀ x ∈ k.looks, x.Within n ∧ x.position ≤ k.current
  sorted : k.looks.Pairwise fun x y => x.position ≤ y.position

theorem Walker.Reaches.orderly
    {n : Nat}
    {k : Walker}
    (h : Walker.start.Reaches n k)
    (hle : k.current ≤ n) :
    k.Orderly n := by
  obtain ⟨looks, hlooks, hwithin, hsorted⟩ := h.looks
  rw [Walker.start, List.nil_append] at hlooks
  subst hlooks
  exact ⟨hle, fun x hx => ⟨(hwithin x hx).1, (hwithin x hx).2.2⟩, hsorted⟩

namespace Walk

/-- Walks along a whole list of tokens as a program. -/
def readProgram (fuel : Nat) (tokens : List Token) (endLine : Nat) :
    Option (Parse (List Stmt) × Walker) :=
  match program fuel (tokens.map .token ++ [.eof endLine]) .start with
  | none => none
  | some (.ok declarations, k) => some (⟨declarations.filterMap id, k.errors, k.nextId⟩, k)
  | some (.error e, k) => some (⟨[], k.errors ++ [e], k.nextId⟩, k)

/-- Walks along a whole list of tokens as one expression. -/
def readExpression (fuel : Nat) (tokens : List Token) (endLine : Nat) :
    Option (Parse (Option Expr) × Walker) :=
  match loneExpression fuel (tokens.map .token ++ [.eof endLine]) .start with
  | none => none
  | some (.ok e, k) => some (⟨some e, k.errors, k.nextId⟩, k)
  | some (.error e, k) => some (⟨none, k.errors ++ [e], k.nextId⟩, k)

end Walk

/-- The parser sees the whole list. -/
def Passage.whole (tokens : List Token) (endLine : Nat) : Passage :=
  ⟨tokens, endLine, [], 0, []⟩

namespace Grammar

open Lox.Parser

variable {tokens : List Token}
variable {endLine : Nat}

theorem stands_start :
    (Passage.whole tokens endLine).Stands ⟨tokens, endLine, 0, []⟩ .start where
  le := Nat.zero_le _
  rest := by simp [Passage.whole, Walker.start]
  nextId := rfl
  errors := rfl

theorem shows_whole
    {s : State}
    (h : s.endLine = endLine) :
    (Passage.whole tokens endLine).Shows s :=
  fun _ => ⟨rfl, h⟩

theorem recovering_ok
    (p : Parser Stmt)
    (s : State) :
    ∃ a s', recovering p s = (.ok a, s') := by
  unfold recovering
  rcases p s with ⟨_ | _, _⟩
  · exact ⟨_, _, rfl⟩
  · exact ⟨_, _, rfl⟩

theorem declarationWithin_ok
    (depth : Nat)
    (s : State) :
    ∃ a s', declarationWithin depth s = (.ok a, s') := by
  cases depth with
  | zero =>
      exact recovering_ok _ s
  | succ depth =>
      exact recovering_ok _ s

/-- A declaration takes a token, whether it succeeds or fails. -/
theorem declarationWithin_takes
    {depth : Nat}
    {s : State}
    {t : Token}
    {rest : List Token}
    (hrest : s.rest = t :: rest)
    (hdepth : s.rest.length < depth) :
    ∃ a s', declarationWithin depth s = (.ok a, s') ∧ s'.endLine = s.endLine ∧
      s'.rest.length ≤ rest.length := by
  obtain ⟨a, s', hrun⟩ := declarationWithin_ok depth s
  refine ⟨a, s', hrun, ?_⟩
  have hwalks := (walks_within (c := .whole s.rest s.endLine) (A := fun _ => True)
    (fun _ => trivial) (by simp [Passage.whole, hrest]) depth (m := s.rest.length + 1) hdepth).2
  obtain ⟨hadvances, hleaves, -⟩ := hwalks s (Nat.lt_succ_self _)
  rw [hrun] at hadvances hleaves
  refine ⟨hadvances.endLine, ?_⟩
  have hlt := hleaves a rfl
  simp only [hrest, List.length_cons] at hlt
  omega

section ToEnd

variable {α : Type}
variable {item : Parser α}
variable {s s' : State}

theorem toEnd_nil
    (count : Nat)
    (h : s.rest = []) :
    manyUntil atEnd item count s = (.ok [], s) := by
  cases count with
  | zero =>
      rfl
  | succ count =>
      rw [manyUntil, bind_apply, atEnd, h]
      rfl

theorem toEnd_cons
    {t : Token}
    {rest : List Token}
    {a : α}
    {count more : Nat}
    (hcount : count = more + 1)
    (h : s.rest = t :: rest)
    (hitem : item s = (.ok a, s')) :
    manyUntil atEnd item count s =
      ((manyUntil atEnd item more s').1.map (a :: ·), (manyUntil atEnd item more s').2) := by
  rw [hcount, manyUntil, bind_apply, atEnd, h]
  simp only [List.isEmpty_cons, Bool.false_eq_true, if_false, bind_apply, hitem]
  rcases manyUntil atEnd item more s' with ⟨_ | _, _⟩
  · rfl
  · rfl

end ToEnd

/-- Declarations are read up to the end of the text. -/
theorem toEnd_ends
    (depth count : Nat)
    (s : State)
    (hdepth : s.rest.length < depth)
    (hcount : s.rest.length ≤ count) :
    ∃ as s', manyUntil atEnd (declarationWithin depth) count s = (.ok as, s') ∧ s'.rest = [] := by
  induction count generalizing s with
  | zero =>
      exact ⟨[], s, rfl, List.eq_nil_of_length_eq_zero (Nat.le_zero.mp hcount)⟩
  | succ count ih =>
      cases hrest : s.rest with
      | nil =>
          exact ⟨[], s, toEnd_nil _ hrest, hrest⟩
      | cons t rest =>
          obtain ⟨a, s', hrun, -, hle⟩ := declarationWithin_takes hrest hdepth
          rw [hrest, List.length_cons] at hdepth hcount
          obtain ⟨as, s'', hruns, hend⟩ := ih s' (by omega) (by omega)
          refine ⟨a :: as, s'', ?_, hend⟩
          rw [toEnd_cons rfl hrest hrun, hruns]
          rfl

theorem map_shifted_zero_eq_id : Option.map (Stmt.shifted 0) = id := by
  funext value
  cases value <;> simp

/-- A program is what is read up to the end of the text. -/
theorem readProgram_eq
    {declarations : List (Option Stmt)}
    {s : State}
    (hrun : manyUntil atEnd (declarationWithin (tokens.length + 1)) tokens.length
      ⟨tokens, endLine, 0, []⟩ = (.ok declarations, s)) :
    Grammar.readProgram tokens endLine = ⟨declarations.filterMap id, s.errors, s.nextId⟩ := by
  have hprogram : program ⟨tokens, endLine, 0, []⟩ = (.ok (declarations.filterMap id), s) := by
    simp only [program, bind_apply, remaining, hrun, pure_apply]
  rw [Grammar.readProgram, hprogram]

/-- A walk along a program, from where the parser starts to where it ends. -/
theorem arrives_program
    {declarations : List (Option Stmt)}
    {s : State}
    (hrun : manyUntil atEnd (declarationWithin (tokens.length + 1)) tokens.length
      ⟨tokens, endLine, 0, []⟩ = (.ok declarations, s)) :
    (Passage.whole tokens endLine).Arrives ⟨tokens, endLine, 0, []⟩ Walk.program
      (.ok declarations) s := by
  cases htokens : tokens with
  | nil =>
      rw [htokens, toEnd_nil _ rfl] at hrun
      cases hrun
      refine .unfold Walk.program.eq_2 ?_
      have hshows : (Passage.whole [] endLine).Shows ⟨[], endLine, 0, []⟩ := shows_whole rfl
      exact (Passage.runs_atEnd hshows).bind_arrives (.of_runs (.pure []))
  | cons t rest =>
      rw [← htokens]
      have hwalks := walks_toEnd (c := .whole tokens endLine) (A := fun _ => True)
        (fun _ => trivial) (by simp [Passage.whole, htokens]) (tokens.length + 1) tokens.length
        (Nat.le_refl _) (Nat.le_refl _)
      obtain ⟨hadvances, -, hruns⟩ := hwalks ⟨tokens, endLine, 0, []⟩ (Nat.lt_succ_self _)
      rw [hrun] at hadvances hruns
      have hprogram := hruns (shows_whole hadvances.endLine)
      simpa [Passage.whole, map_shifted_zero_eq_id] using hprogram

/-- A walk along an expression. -/
theorem arrives_loneExpression :
    (Passage.whole tokens endLine).Arrives ⟨tokens, endLine, 0, []⟩ Walk.loneExpression
      (loneExpression ⟨tokens, endLine, 0, []⟩).1 (loneExpression ⟨tokens, endLine, 0, []⟩).2 := by
  have hwalks := walks_loneExpression (c := .whole tokens endLine) (A := fun _ => True)
    (m := tokens.length + 1) fun _ _ => trivial
  obtain ⟨hadvances, -, hruns⟩ := hwalks ⟨tokens, endLine, 0, []⟩ (Nat.lt_succ_self _)
  have hshift : Expr.shifted 0 = id := by
    funext e
    exact e.shifted_zero
  have hexpression := hruns (shows_whole hadvances.endLine)
  simpa [Passage.whole, hshift] using hexpression

theorem exists_walk_readProgram :
    ∃ k, (∃ enough, ∀ fuel, enough ≤ fuel →
        Walk.readProgram fuel tokens endLine = some (Grammar.readProgram tokens endLine, k)) ∧
      k.current = tokens.length ∧ k.Orderly tokens.length := by
  obtain ⟨declarations, s, hrun, hend⟩ := toEnd_ends (tokens.length + 1) tokens.length
    ⟨tokens, endLine, 0, []⟩ (Nat.lt_succ_self _) (Nat.le_refl _)
  obtain ⟨k, ⟨enough, hwalk⟩, hk, hreach⟩ := arrives_program hrun .start stands_start
  have hcurrent : k.current = tokens.length := by
    simpa [hend, Passage.whole] using hk.length
  refine ⟨k, ⟨enough, ?_⟩, hcurrent, hreach.orderly (Nat.le_of_eq hcurrent)⟩
  intro fuel hfuel
  have hanswer := hwalk fuel hfuel
  change Walk.program fuel (tokens.map .token ++ [.eof endLine]) .start = _ at hanswer
  rw [Walk.readProgram, hanswer, readProgram_eq hrun]
  simp [hk.errors, hk.nextId, Passage.whole]

theorem exists_walk_readExpression :
    ∃ k, (∃ enough, ∀ fuel, enough ≤ fuel →
        Walk.readExpression fuel tokens endLine = some (Grammar.readExpression tokens endLine, k)) ∧
      k.Orderly tokens.length := by
  have harrives : (Passage.whole tokens endLine).Arrives ⟨tokens, endLine, 0, []⟩
      Walk.loneExpression _ _ := arrives_loneExpression
  obtain ⟨k, ⟨enough, hwalk⟩, hk, hreach⟩ := harrives .start stands_start
  refine ⟨k, ⟨enough, ?_⟩, hreach.orderly hk.le⟩
  intro fuel hfuel
  have hanswer := hwalk fuel hfuel
  change Walk.loneExpression fuel (tokens.map .token ++ [.eof endLine]) .start = _ at hanswer
  rw [Walk.readExpression, Grammar.readExpression, hanswer]
  rcases hrun : loneExpression ⟨tokens, endLine, 0, []⟩ with ⟨_ | _, s⟩
  · rw [hrun] at hk
    simp [hk.errors, hk.nextId, Passage.whole, State.report]
  · rw [hrun] at hk
    simp [hk.errors, hk.nextId, Passage.whole]

/-- Wherever a walker stands in front of a token, a declaration moves it forward. -/
theorem exists_walk_declaration
    {k : Walker}
    (h : k.current < tokens.length) :
    ∃ result k', (∃ enough, ∀ fuel, enough ≤ fuel →
        Walk.declaration fuel (tokens.map .token ++ [.eof endLine]) k = some (.ok result, k')) ∧
      k.current < k'.current ∧ k'.current ≤ tokens.length ∧ k.Reaches tokens.length k' := by
  let s : State := ⟨tokens.drop k.current, endLine, k.nextId, k.errors⟩
  have hstands : (Passage.whole tokens endLine).Stands s k :=
    ⟨Nat.le_of_lt h, by simp [s, Passage.whole], rfl, rfl⟩
  obtain ⟨t, rest, hrest⟩ : ∃ t rest, s.rest = t :: rest :=
    ⟨_, _, List.drop_eq_getElem_cons h⟩
  obtain ⟨result, s', hrun, -, htakes⟩ := declarationWithin_takes hrest (Nat.lt_succ_self _)
  have htokens : tokens ≠ [] := List.ne_nil_of_length_pos (by omega)
  have hwalks := (walks_within (c := .whole tokens endLine) (A := fun _ => True)
    (fun _ => trivial) htokens (s.rest.length + 1) (Nat.le_refl _)).2
  obtain ⟨hadvances, -, hruns⟩ := hwalks s (Nat.lt_succ_self _)
  rw [hrun] at hadvances hruns
  obtain ⟨k', hwalk, hk', hreach⟩ := hruns (shows_whole hadvances.endLine) k hstands
  refine ⟨result, k', ?_, ?_, hk'.le, hreach⟩
  · simpa [Passage.whole, Passage.terminals, map_shifted_zero_eq_id, Except.map] using hwalk
  · have hbefore := hstands.length
    have hbehind := hk'.length
    rw [hrest, List.length_cons] at hbefore
    simp only at hbehind
    omega

/-- Whatever the tokens are, reading them as a program or as an expression ends and never looks
outside the list.  It does not move backward, moves forward with each declaration, and comes to the
end of a program. -/
theorem walk_ends
    (tokens : List Token)
    (endLine : Nat) :
    (∃ k, (∃ enough, ∀ fuel, enough ≤ fuel →
        Walk.readProgram fuel tokens endLine = some (Grammar.readProgram tokens endLine, k)) ∧
      k.current = tokens.length ∧ k.Orderly tokens.length) ∧
    (∃ k, (∃ enough, ∀ fuel, enough ≤ fuel →
        Walk.readExpression fuel tokens endLine = some (Grammar.readExpression tokens endLine, k)) ∧
      k.Orderly tokens.length) ∧
    ∀ k : Walker, k.current < tokens.length →
      ∃ result k', (∃ enough, ∀ fuel, enough ≤ fuel →
          Walk.declaration fuel (tokens.map .token ++ [.eof endLine]) k = some (.ok result, k')) ∧
        k.current < k'.current ∧ k'.current ≤ tokens.length ∧ k.Reaches tokens.length k' :=
  ⟨exists_walk_readProgram, exists_walk_readExpression, fun _ => exists_walk_declaration⟩

/-- In `if(a){b(1+;}print c;` the declaration in the block fails behind `+`, three levels down.  The
fault is reported, both statements are read, and the walk comes to the end; and so does a walk that begins
in front of the failing declaration move forward. -/
theorem walk_ends_recovered :
    let tokens := (Scan.ofSource "if(a)\x7bb(1+;\x7dprint c;").tokens
    (Grammar.readProgram tokens 1).errors = [⟨.token ⟨.punct .semicolon, ";", 1⟩, .expression⟩] ∧
    (Grammar.readProgram tokens 1).result.length = 2 ∧
    (∃ k, (∃ enough, ∀ fuel, enough ≤ fuel →
        Walk.readProgram fuel tokens 1 = some (Grammar.readProgram tokens 1, k)) ∧
      k.current = 14) ∧
    5 < tokens.length ∧
      ∃ result k', (∃ enough, ∀ fuel, enough ≤ fuel →
          Walk.declaration fuel (tokens.map .token ++ [.eof 1]) { Walker.start with current := 5 } =
            some (.ok result, k')) ∧
        5 < k'.current ∧ k'.current ≤ 14 := by
  intro tokens
  have hlength : tokens.length = 14 := by
    decide +kernel
  obtain ⟨⟨k, hread, hend, -⟩, -, hdeclaration⟩ := walk_ends tokens 1
  have hfront : 5 < tokens.length := by
    omega
  obtain ⟨result, k', hwalk, hforward, hwithin, -⟩ :=
    hdeclaration { Walker.start with current := 5 } hfront
  rw [hlength] at hend hwithin
  exact ⟨by decide +kernel, by decide +kernel, ⟨k, hread, hend⟩, hfront, result, k', hwalk, hforward,
    hwithin⟩

end Grammar
end Lox
