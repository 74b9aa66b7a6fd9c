import Lox.Proofs.Grammar.AcceptStatement
import Lox.Proofs.Grammar.Progress

/-!
# Programs one behind the other

Two parsers that one walk follows do the same, wherever it goes: one that sees a stretch of a list
does what another does that sees the whole list, as long as it does not come to the end of the
stretch.  So what was read, numbered and reported in front of a declaration has no influence on it,
and, if it does not come to the end of its tokens, neither has what stands behind.

It follows that a program behind one without faults is read as it is read alone, up to the numbers of
its references.
-/

namespace Lox

open Lox.Parser (State)

/-- The state of a parser that sees the whole list, where another one sees the stretch. -/
def Passage.extend (c : Passage) (s : State) : State :=
  ⟨s.rest ++ c.behind, c.endLine, s.nextId + c.ids, c.errors ++ s.errors⟩

/-- Where a walker stands says all about a parser that sees the whole list. -/
theorem Passage.Stands.eq_extend
    {c : Passage}
    {s t : State}
    {k : Walker}
    (h : c.Stands s k)
    (h' : (whole c.tokens c.endLine).Stands t k)
    (hend : t.endLine = c.endLine) :
    t = c.extend s := by
  obtain ⟨rest, endLine, nextId, errors⟩ := t
  have hrest : rest ++ [] = s.rest ++ c.behind := h'.rest.symm.trans h.rest
  have hnext : nextId + 0 = s.nextId + c.ids := h'.nextId.symm.trans h.nextId
  have herrors : [] ++ errors = c.errors ++ s.errors := h'.errors.symm.trans h.errors
  rw [List.append_nil] at hrest
  rw [Nat.add_zero] at hnext
  rw [List.nil_append] at herrors
  simp only at hend
  rw [hrest, hnext, herrors, hend]
  rfl

namespace Parser

section Extend

variable {α β : Type}
variable {c : Passage}
variable {A A' : Token.Kind → Prop}
variable {m m' : Nat}
variable {f : α → β}
variable {g : β → β}
variable {p : Parser α}
variable {q : Parser β}
variable {w : Nat → Walk β}
variable {bound : α → Nat}
variable {bound' : β → Nat}

/-- A parser that sees the whole list does what one does that sees the stretch, if the same walk
follows both. -/
theorem Walks.extend
    (hp : Walks c A m f p w bound)
    (hq : Walks (.whole c.tokens c.endLine) A' m' g q w bound')
    (hg : g = id)
    {s : State}
    (hs : s.rest.length < m)
    (hs' : (c.extend s).rest.length < m')
    (htokens : c.tokens = (c.extend s).rest)
    (hshows : c.Shows (p s).2) :
    q (c.extend s) = ((p s).1.map f, c.extend (p s).2) := by
  let k : Walker := ⟨0, s.nextId + c.ids, c.errors ++ s.errors, []⟩
  have hstands : c.Stands s k := ⟨Nat.zero_le _, htokens, rfl, rfl⟩
  have hstands' : (Passage.whole c.tokens c.endLine).Stands (c.extend s) k :=
    ⟨Nat.zero_le _, by simp [k, Passage.whole, htokens], rfl, rfl⟩
  obtain ⟨-, -, hruns⟩ := hp s hs
  obtain ⟨hadvances', -, hruns'⟩ := hq (c.extend s) hs'
  have hend : (q (c.extend s)).2.endLine = c.endLine := hadvances'.endLine
  obtain ⟨k₁, ⟨enough, hwalk⟩, hk₁, -⟩ := hruns hshows k hstands
  obtain ⟨k₂, ⟨enough', hwalk'⟩, hk₂, -⟩ := hruns' (Grammar.shows_whole hend) k hstands'
  -- one walk with fuel that is enough for both, so one answer and one walker
  have hsame : some ((q (c.extend s)).1.map g, k₂) = some ((p s).1.map f, k₁) :=
    (hwalk' _ (Nat.le_max_right enough enough')).symm.trans (hwalk _ (Nat.le_max_left enough enough'))
  obtain ⟨hresult, rfl⟩ := Prod.mk.inj (Option.some.inj hsame)
  rw [hg, Except.map_id] at hresult
  exact Prod.ext hresult (hk₁.eq_extend hk₂ hend)

end Extend

end Parser

namespace Grammar

open Lox.Parser

/-- Declarations up to the end of the text are those of the program that the tokens are alone. -/
theorem toEnd_alone
    {tokens : List Token}
    (endLine i : Nat)
    (errors : List SyntaxError)
    {depth count : Nat}
    (hdepth : tokens.length < depth)
    (hcount : tokens.length ≤ count) :
    ∃ declarations, declarations.filterMap id =
        (Grammar.readProgram tokens endLine).result.map (Stmt.shifted i) ∧
      manyUntil atEnd (declarationWithin depth) count ⟨tokens, endLine, i, errors⟩ =
        (.ok declarations, ⟨[], endLine, i + (Grammar.readProgram tokens endLine).idCount,
          errors ++ (Grammar.readProgram tokens endLine).errors⟩) := by
  obtain ⟨declarations, s, hrun, hend⟩ := toEnd_ends (tokens.length + 1) tokens.length
    ⟨tokens, endLine, 0, []⟩ (Nat.lt_succ_self _) (Nat.le_refl _)
  rw [readProgram_eq hrun]
  cases htokens : tokens with
  | nil =>
      rw [htokens, toEnd_nil _ rfl] at hrun
      cases hrun
      exact ⟨[], rfl, by simp [toEnd_nil]⟩
  | cons t rest =>
      rw [← htokens]
      have hne : tokens ≠ [] := by
        simp [htokens]
      let c : Passage := ⟨tokens, endLine, [], i, errors⟩
      have hwalks := walks_toEnd (c := c) (A := fun _ => True) (fun _ => trivial) hne
        (tokens.length + 1) tokens.length (Nat.le_refl _) (Nat.le_refl _)
      have hwalks' := walks_toEnd (c := .whole tokens endLine) (A := fun _ => True)
        (fun _ => trivial) hne depth count hdepth (Nat.succ_le_succ hcount)
      have hadvances := (hwalks ⟨tokens, endLine, 0, []⟩ (Nat.lt_succ_self _)).1
      rw [hrun] at hadvances
      have hzero : List.map (Option.map (Stmt.shifted 0)) = id := by
        rw [map_shifted_zero_eq_id, List.map_id_fun]
      have hsame := hwalks.extend (s := ⟨tokens, endLine, 0, []⟩) hwalks' hzero
        (Nat.lt_succ_self _) (by simp [c, Passage.extend]) (by simp [c, Passage.extend])
        (by rw [hrun]; exact fun _ => ⟨rfl, hadvances.endLine⟩)
      refine ⟨declarations.map (Option.map (Stmt.shifted i)), ?_, ?_⟩
      · simp [List.map_filterMap, List.filterMap_map]
      · rw [hrun] at hsame
        simpa [c, Passage.extend, hend, Nat.add_comm, Except.map] using hsame

/-- A program is a declaration, if that succeeds, and what the tokens behind it are alone. -/
theorem readProgram_first
    {tokens : List Token}
    {endLine : Nat}
    (hne : tokens ≠ [])
    {first : Option Stmt}
    {s : State}
    (hfirst : declarationWithin (tokens.length + 1) ⟨tokens, endLine, 0, []⟩ = (.ok first, s)) :
    Grammar.readProgram tokens endLine =
      ⟨first.toList ++ (Grammar.readProgram s.rest endLine).result.map (Stmt.shifted s.nextId),
        s.errors ++ (Grammar.readProgram s.rest endLine).errors,
        s.nextId + (Grammar.readProgram s.rest endLine).idCount⟩ := by
  obtain ⟨t, tail, rfl⟩ := List.exists_cons_of_ne_nil hne
  obtain ⟨_, _, hrun, hend, htakes⟩ := declarationWithin_takes (s := ⟨t :: tail, endLine, 0, []⟩)
    rfl (Nat.lt_succ_self _)
  rw [hfirst] at hrun
  cases hrun
  obtain ⟨rest, _, i, errors⟩ := s
  cases hend
  have hlength : rest.length ≤ tail.length := htakes
  have hdepth : rest.length < (t :: tail).length + 1 := by
    rw [List.length_cons]
    omega
  obtain ⟨declarations, hdeclarations, halone⟩ :=
    toEnd_alone endLine i errors hdepth hlength
  have hlast : (t :: tail).length = tail.length + 1 := rfl
  have hprogram := toEnd_cons hlast rfl hfirst
  rw [halone] at hprogram
  rw [readProgram_eq hprogram, List.filterMap_cons, hdeclarations]
  cases first <;> rfl

/-- Tokens that have a reading are read in front of any others that do not start with `else`. -/
theorem DeclsRead.front
    {i j : Nat}
    {ts : List Token}
    {body : List Stmt}
    (h : DeclsRead i ts body j)
    {depth : Nat}
    (hdepth : ts.length ≤ depth)
    {rest : List Token}
    (helse : Avoids [.keyword .else_] rest)
    (more endLine : Nat)
    (errors : List SyntaxError) :
    manyUntil atEnd (declarationWithin (depth + 1)) (more + body.length)
        ⟨ts ++ rest, endLine, i, errors⟩ =
      let after := manyUntil atEnd (declarationWithin (depth + 1)) more ⟨rest, endLine, j, errors⟩
      (after.1.map (body.map some ++ ·), after.2) := by
  induction body generalizing i ts with
  | nil =>
      cases h with
      | nil =>
          rcases hafter : manyUntil atEnd (declarationWithin (depth + 1)) more
            ⟨rest, endLine, j, errors⟩ with ⟨_ | _, _⟩ <;> simp [hafter, Except.map]
  | cons s others ih =>
      cases h with
      | @cons _ k _ xs ys _ _ hdecl hothers =>
          have hlength : xs.length ≤ depth := by
            simp at hdepth
            omega
          have hlength' : ys.length ≤ depth := by
            simp at hdepth
            omega
          have hfirst : declarationWithin (depth + 1) ⟨xs ++ (ys ++ rest), endLine, i, errors⟩ =
              (.ok (some s), ⟨ys ++ rest, endLine, k, errors⟩) :=
            hdecl.takes hlength (hothers.avoids_else helse) endLine errors
          have hrest := ih hothers hlength'
          obtain ⟨t, tail, rfl, -⟩ := hdecl.starts
          rw [List.append_assoc]
          change manyUntil atEnd (declarationWithin (depth + 1)) (more + others.length + 1) _ = _
          rw [toEnd_cons rfl rfl hfirst, hrest]
          rcases manyUntil atEnd (declarationWithin (depth + 1)) more
            ⟨rest, endLine, j, errors⟩ with ⟨_ | _, _⟩ <;> rfl

/-- Behind a program without faults, tokens that do not start with `else` are read as they are read
alone, whatever they are; only the references in them are numbered after those of the program. -/
theorem readProgram_append
    {front : List Token}
    {line : Nat}
    (hfront : (Grammar.readProgram front line).errors = [])
    {tokens : List Token}
    (helse : Avoids [.keyword .else_] tokens)
    (endLine : Nat) :
    Grammar.readProgram (front ++ tokens) endLine =
      ⟨(Grammar.readProgram front line).result ++
          (Grammar.readProgram tokens endLine).result.map
            (Stmt.shifted (Grammar.readProgram front line).idCount),
        (Grammar.readProgram tokens endLine).errors,
        (Grammar.readProgram front line).idCount +
          (Grammar.readProgram tokens endLine).idCount⟩ := by
  have hreads := reads_of_readProgram hfront
  have hlength := hreads.length_le
  obtain ⟨more, hmore⟩ := Nat.exists_eq_add_of_le' hlength
  have hcount : more + tokens.length + (Grammar.readProgram front line).result.length =
      (front ++ tokens).length := by
    rw [List.length_append]
    omega
  have hdepth : tokens.length < (front ++ tokens).length + 1 := by
    omega
  have hroom : tokens.length ≤ more + tokens.length := Nat.le_add_left _ more
  obtain ⟨declarations, hdeclarations, halone⟩ :=
    toEnd_alone endLine (Grammar.readProgram front line).idCount [] hdepth hroom
  have hshort : front.length ≤ (front ++ tokens).length := by
    omega
  have hrun := hreads.front hshort helse (more + tokens.length) endLine []
  rw [hcount, halone] at hrun
  rw [readProgram_eq hrun, List.filterMap_append, hdeclarations]
  simp

/-- The second of two statements that are alike has the second number. -/
theorem readProgram_append_alike :
    (Grammar.readProgram [⟨.identifier, "x", 1⟩, ⟨.punct .semicolon, ";", 1⟩] 1).errors = [] ∧
      Avoids [.keyword .else_] [⟨.identifier, "x", 2⟩, ⟨.punct .semicolon, ";", 2⟩] ∧
      (Grammar.readProgram [⟨.identifier, "x", 1⟩, ⟨.punct .semicolon, ";", 1⟩,
        ⟨.identifier, "x", 2⟩, ⟨.punct .semicolon, ";", 2⟩] 2).result =
          [.expression (.var 0 ⟨.identifier, "x", 1⟩),
            .expression (.var 1 ⟨.identifier, "x", 2⟩)] := by
  have hfront : (Grammar.readProgram [⟨.identifier, "x", 1⟩, ⟨.punct .semicolon, ";", 1⟩] 1).errors =
      [] := by
    decide
  have helse : Avoids [.keyword .else_] [⟨.identifier, "x", 2⟩, ⟨.punct .semicolon, ";", 2⟩] :=
    avoids_cons (by decide)
  refine ⟨hfront, helse, ?_⟩
  have happend := readProgram_append hfront helse 2
  exact (congrArg Parse.result happend).trans rfl

end Grammar

end Lox
