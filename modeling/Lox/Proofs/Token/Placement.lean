import Lox.Proofs.Token.MaximalMunch

/-!
# Where items stand

A piece of a source ends on the line that the line breaks up to its end tell, and what it yields
carries that line.  So a token on one line carries the line it stands on, a string the line of its
closing quote, and what is left open the last line; the lines of successive entries never decrease.
-/

namespace Lox

open Lexeme

/-- The line on which the sign behind a text stands. -/
def lineAfter (text : List Char) : Nat :=
  1 + text.count '\n'

namespace Piece

/-- A piece, and what stands before it in the source. -/
structure Place where
  before : List Char
  piece : Piece

/-- The source up to the end of a piece. -/
def Place.upTo (place : Place) : List Char :=
  place.before ++ place.piece.text

/-- The places of pieces that follow the given text one after the other. -/
def places (before : List Char) : List Piece → List Place
  | [] => []
  | p :: rest => ⟨before, p⟩ :: places (before ++ p.text) rest

/-- What a piece of a source yields stands on the line on which the piece ends. -/
structure Place.Holds (source : List Char) (place : Place) (item : Scan.Item) : Prop where
  /-- The piece stands in the source. -/
  within : place.upTo <+: source
  yields : place.piece.Yields item
  ends : item.line = lineAfter place.upTo
  /-- Without line breaks in the piece, this is the line on which it starts. -/
  stands : '\n' ∉ place.piece.text → item.line = lineAfter place.before
  /-- The line of a string is that of its closing quote. -/
  closes : place.piece.shape = .token .string →
    ∃ opened, place.upTo = opened ++ ['"'] ∧ item.line = lineAfter opened
  /-- What is left open reaches to the end of the source. -/
  last : place.piece.isOpen = true → place.upTo = source ∧ item.line = lineAfter source

theorem lineAfter_append
    (before : List Char)
    (p : Piece) :
    lineAfter before + p.lineBreaks = lineAfter (before ++ p.text) := by
  rw [lineAfter, lineAfter, List.count_append, lineBreaks]
  omega

theorem lineAfter_append_of_not_mem
    {text : List Char}
    (h : '\n' ∉ text)
    (before : List Char) :
    lineAfter (before ++ text) = lineAfter before := by
  rw [lineAfter, lineAfter, List.count_append, List.count_eq_zero.mpr h]
  omega

/-- What is left open reaches to the end. -/
theorem Leads.after_eq_nil
    {p : Piece}
    {after : List Char}
    (h : Leads p after)
    (hopen : p.isOpen = true) :
    after = [] := by
  cases h with
  | openString | openComment =>
      rfl
  | _ =>
      cases hopen

/-- The first piece behind a text yields what stands where the piece ends. -/
theorem Leads.holds
    {p : Piece}
    {before after : List Char}
    {item : Scan.Item}
    (h : Leads p after)
    (hyields : p.Yields item)
    (hline : item.line = lineAfter (before ++ p.text)) :
    Place.Holds (before ++ (p.text ++ after)) ⟨before, p⟩ item where
  within := ⟨after, List.append_assoc ..⟩
  yields := hyields
  ends := hline
  stands := by
    intro hnone
    rw [hline]
    exact lineAfter_append_of_not_mem hnone before
  closes := by
    intro hshape
    obtain ⟨body, -, htext⟩ := (h.lexeme hshape).quoted
    have hend : before ++ p.text = (before ++ '"' :: body) ++ ['"'] := by
      simp [htext]
    refine ⟨before ++ '"' :: body, hend, ?_⟩
    rw [hline, hend]
    exact lineAfter_append_of_not_mem (by decide) _
  last := by
    intro hopen
    rw [h.after_eq_nil hopen, List.append_nil]
    exact ⟨rfl, hline⟩

/-- The items of a cut stand where their pieces end. -/
theorem Cuts.holds
    {cs : List Char}
    {pieces : List Piece}
    (h : Cuts cs pieces)
    (before : List Char) :
    List.Forall₂ (Place.Holds (before ++ cs))
      ((places before pieces).filter fun place => !place.piece.isSilent)
      (Scan.ofPieces (lineAfter before) pieces).items := by
  induction h generalizing before with
  | nil =>
      exact .nil
  | @cons p after rest hlead hrest ih =>
      -- The line counted so far is the one behind what was read; the piece keeps it so.
      have hlater := ih (before ++ p.text)
      rw [List.append_assoc, ← lineAfter_append] at hlater
      rw [places, Scan.ofPieces]
      rcases hlead.yields (lineAfter before + p.lineBreaks) with
        ⟨hsilent, hitem⟩ | ⟨hloud, item, hitem, hyields⟩
      · simpa [hsilent, hitem] using hlater
      · have hline := Scan.line_of_item? hitem
        rw [lineAfter_append] at hline
        simpa [hloud, hitem] using ⟨hlead.holds hyields hline, hlater⟩

end Piece

namespace Scan

/-- The line of an entry. -/
def Entry.line : Entry → Nat
  | .item i => i.line
  | .eof line => line

theorem line_le_of_mem_entries
    {line : Nat}
    {pieces : List Piece}
    {entry : Entry}
    (h : entry ∈ (ofPieces line pieces).entries) :
    line ≤ entry.line := by
  rcases List.mem_append.mp h with h | h
  · obtain ⟨item, hitem, rfl⟩ := List.mem_map.mp h
    exact (line_of_mem_ofPieces hitem).1
  · cases List.mem_singleton.mp h
    have hend := endLine_ofPieces line pieces
    simp only [Entry.line]
    omega

/-- Entries stand on the line of the one before them, or further down. -/
theorem pairwise_line_entries
    (line : Nat)
    (pieces : List Piece) :
    (ofPieces line pieces).entries.Pairwise fun earlier later => earlier.line ≤ later.line := by
  induction pieces generalizing line with
  | nil =>
      exact List.pairwise_singleton _ _
  | cons p rest ih =>
      have hrest := ih (line + p.lineBreaks)
      rw [entries_cons]
      cases hitem : p.item? (line + p.lineBreaks) with
      | none =>
          exact hrest
      | some item =>
          have hline : item.line = line + p.lineBreaks := line_of_item? hitem
          apply List.pairwise_cons.mpr
          constructor
          · intro later hlater
            rw [Entry.line, hline]
            exact line_le_of_mem_entries hlater
          · exact hrest

/-- Every item carries the line on which its piece ends, and the end of the text the last line of
the source; the lines of what is given out never decrease. -/
theorem lines_are_exact
    (source : String) :
    ∃ pieces : List Piece,
      Piece.Cuts source.toList pieces ∧
      List.Forall₂ (Piece.Place.Holds source.toList)
        ((Piece.places [] pieces).filter fun place => !place.piece.isSilent)
        (ofSource source).items ∧
      (ofSource source).endLine = lineAfter source.toList ∧
      (ofSource source).entries.Pairwise fun earlier later => earlier.line ≤ later.line := by
  have hcuts := Piece.cuts_cut source.toList
  exact ⟨Piece.cut source.toList, hcuts, hcuts.holds [], endLine_ofSource source,
    pairwise_line_entries 1 (Piece.cut source.toList)⟩

end Scan

end Lox
