import Lox.Token.Scan

/-!
# Lines of a source

The pieces of a source make up the source, so that the line breaks in them are those of the source.
Every token and every fault stands on one of its lines, and the end of the text on the last one.
-/

namespace Lox

/-- The pieces of a text make up the text. -/
theorem Piece.cut_flatten
    (cs : List Char) :
    ((cut cs).map text).flatten = cs := by
  induction hn : cs.length using Nat.strongRecOn generalizing cs with
  | ind n ih =>
      cases cs with
      | nil =>
          rfl
      | cons c cs =>
          subst hn
          rw [cut_cons, List.map_cons, List.flatten_cons, ih _ (length_lead_lt c cs) _ rfl,
            lead_append]

namespace Scan

/-- The line of an item. -/
def Item.line : Item → Nat
  | .token t => t.line
  | .fault line _ => line

theorem line_of_item?
    {p : Piece}
    {line : Nat}
    {item : Item}
    (h : p.item? line = some item) :
    item.line = line := by
  unfold Piece.item? at h
  split at h <;> cases h <;> rfl

/-- Pieces end as many lines further as there are line breaks in them. -/
theorem endLine_ofPieces
    (line : Nat)
    (pieces : List Piece) :
    (ofPieces line pieces).endLine = line + (pieces.map Piece.text).flatten.count '\n' := by
  induction pieces generalizing line with
  | nil =>
      rfl
  | cons p rest ih =>
      rw [ofPieces, ih, List.map_cons, List.flatten_cons, List.count_append, Piece.lineBreaks]
      omega

/-- Items stand between the first line and the last one. -/
theorem line_of_mem_ofPieces
    {line : Nat}
    {pieces : List Piece}
    {item : Item}
    (h : item ∈ (ofPieces line pieces).items) :
    line ≤ item.line ∧ item.line ≤ (ofPieces line pieces).endLine := by
  induction pieces generalizing line with
  | nil =>
      cases h
  | cons p rest ih =>
      rw [ofPieces] at h ⊢
      rcases List.mem_append.mp h with h | h
      · have hline := line_of_item? (Option.mem_toList.mp h)
        rw [hline, endLine_ofPieces]
        omega
      · have hlater := ih h
        dsimp only
        omega

theorem endLine_ofSource
    (source : String) :
    (ofSource source).endLine = 1 + source.toList.count '\n' := by
  rw [ofSource, ofChars, endLine_ofPieces, Piece.cut_flatten]

/-- Items stand on lines of the source. -/
theorem line_of_mem_ofSource
    {source : String}
    {item : Item}
    (h : item ∈ (ofSource source).items) :
    1 ≤ item.line ∧ item.line ≤ 1 + source.toList.count '\n' := by
  rw [← endLine_ofSource]
  exact line_of_mem_ofPieces h

/-- Tokens and the end of the text stand on lines of the source. -/
theorem line_of_mem_terminals
    {source : String}
    {t : Terminal}
    (h : t ∈ (ofSource source).terminals) :
    1 ≤ t.line ∧ t.line ≤ 1 + source.toList.count '\n' := by
  rcases List.mem_append.mp h with h | h
  · obtain ⟨t, ht, rfl⟩ := List.mem_map.mp h
    obtain ⟨item, hitem, htoken⟩ := List.mem_filterMap.mp ht
    cases item with
    | token t' =>
        cases htoken
        exact line_of_mem_ofSource hitem
    | fault line cause =>
        cases htoken
  · cases List.mem_singleton.mp h
    have hend := endLine_ofSource source
    simp only [Terminal.line]
    omega

theorem line_of_mem_faults
    {source : String}
    {entry : Nat × LexFault}
    (h : entry ∈ (ofSource source).faults) :
    1 ≤ entry.1 ∧ entry.1 ≤ 1 + source.toList.count '\n' := by
  obtain ⟨item, hitem, hfault⟩ := List.mem_filterMap.mp h
  cases item with
  | token t =>
      cases hfault
  | fault line cause =>
      cases hfault
      exact line_of_mem_ofSource hitem

end Scan

end Lox
