import Lox.Proofs.Token.ByteSteps
import Lox.Proofs.Token.Placement
import Mathlib.Data.List.Nodup

/-!
# Between characters

A byte reader gives out with each call what a cursor over the characters does, and whenever it takes a
stretch of the source, this begins and ends between characters.  So does the reader stop there with
each call, and what starts nothing is passed over as a whole and reported once.
-/

namespace Lox

namespace Scan

open Text
open Lexeme

/-- What an entry denotes if it is a literal. -/
def Entry.value? : Entry → Option Literal
  | .item (.token t) => t.literal?
  | .item (.fault _ _) => none
  | .eof _ => none

/-- An entry with what it denotes. -/
def Entry.reading (e : Entry) : Reading :=
  ⟨e, e.value?⟩

/-- The pieces behind the given characters that yield something, and where they stand. -/
def loud (before cs : List Char) : List Piece.Place :=
  (Piece.places before (Piece.cut cs)).filter fun place => !place.piece.isSilent

section Loud

variable {before cs : List Char}
variable {c : Char}

theorem loud_nil
    (before : List Char) :
    loud before [] = [] := by
  rfl

theorem loud_of_silent
    (h : (Piece.lead c cs).1.isSilent = true) :
    loud before (c :: cs) = loud (before ++ (Piece.lead c cs).1.text) (Piece.lead c cs).2 := by
  rw [loud, Piece.cut_cons, Piece.places, List.filter_cons_of_neg (by simp [h])]
  rfl

theorem loud_of_not_silent
    (h : (Piece.lead c cs).1.isSilent = false) :
    loud before (c :: cs) =
      ⟨before, (Piece.lead c cs).1⟩ ::
        loud (before ++ (Piece.lead c cs).1.text) (Piece.lead c cs).2 := by
  rw [loud, Piece.cut_cons, Piece.places, List.filter_cons_of_pos (by simp [h])]
  rfl

end Loud

/-- A reader stands where a cursor does, in front of the pieces that are still to yield something. -/
inductive Tracks (source : String) (k : ByteReader) : List Piece.Place → Cursor → Prop
  | reading
      {before cs : List Char}
      (hat : k.At source before cs) :
      Tracks source k (loud before cs) (.reading k.line cs)
  | done
      (hcurrent : k.current = (bytes source).length + 1) :
      Tracks source k [] .done

theorem Tracks.stands
    {source : String}
    {k : ByteReader}
    {places : List Piece.Place}
    {cursor : Cursor}
    (h : Tracks source k places cursor) :
    (k.current ≤ (bytes source).length ∧ String.Pos.Raw.IsValid source ⟨k.current⟩) ∨
      k.current = (bytes source).length + 1 := by
  cases h with
  | reading hat =>
      refine .inl ⟨hat.faces.within, ?_⟩
      rw [hat.current]
      exact isValid_utf8Len hat.whole
  | done hcurrent =>
      exact .inr hcurrent

/-- The reader stands where a piece ends that it began to read where the piece does. -/
structure ByteReader.Behind (k : ByteReader) (place : Piece.Place) : Prop where
  start : k.start = String.utf8Len place.before
  current : k.current = String.utf8Len place.upTo

section Step

variable {source : String}
variable {k : ByteReader}
variable {fuel : Nat}
variable {before cs : List Char}

theorem ByteReader.Passes.arrives
    {c : Char}
    {behind : ByteReader}
    (h : k.Passes source before (Piece.lead c cs).1 behind)
    (hat : k.At source before (c :: cs)) :
    behind.At source (before ++ (Piece.lead c cs).1.text) (Piece.lead c cs).2 := by
  refine ⟨?_, h.current⟩
  rw [List.append_assoc, Piece.lead_append]
  exact hat.whole

theorem ByteReader.Passes.fits
    {p : Piece}
    {behind : ByteReader}
    (h : k.Passes source before p behind)
    (htaken : ∀ s ∈ k.taken, s.Fits source) :
    ∀ s ∈ behind.taken, s.Fits source := by
  obtain ⟨more, hmore, hfits⟩ := h.taken
  rw [hmore]
  intro s hs
  rcases List.mem_append.mp hs with hs | hs
  · exact htaken s hs
  · exact hfits s hs

theorem utf8Len_pos
    {text : List Char}
    (h : text ≠ []) :
    0 < String.utf8Len text := by
  cases text with
  | nil =>
      exact absurd rfl h
  | cons c cs =>
      have hsize := c.utf8Size_pos
      rw [String.utf8Len_cons]
      omega

theorem utf8Len_lead_lt
    (c : Char)
    (cs : List Char) :
    String.utf8Len (Piece.lead c cs).2 < String.utf8Len (c :: cs) := by
  have hwhole := congrArg String.utf8Len (Piece.lead_append c cs)
  have hpos := utf8Len_pos (Piece.lead_text_ne_nil c cs)
  rw [String.utf8Len_append] at hwhole
  omega

/-- A call did to the reader what it does to a cursor: it gave out the same, and the reader stands
where the cursor does, behind the first piece that was to yield something. -/
structure Follows (source : String) (places : List Piece.Place) (cursor : Cursor)
    (answer : Option Reading) (behind : ByteReader) : Prop where
  answer : answer = cursor.next.1.map Entry.reading
  tracks : Tracks source behind places.tail cursor.next.2
  taken : ∀ s ∈ behind.taken, s.Fits source
  place : ∀ place, places.head? = some place → behind.Behind place

theorem Follows.congr
    {places : List Piece.Place}
    {cursor other : Cursor}
    {answer : Option Reading}
    {behind : ByteReader}
    (h : Follows source places cursor answer behind)
    (hnext : other.next = cursor.next) :
    Follows source places other answer behind where
  answer := hnext ▸ h.answer
  tracks := hnext ▸ h.tracks
  taken := h.taken
  place := h.place

/-- What a piece yields is given out by a reader behind the piece, which may take it as a text for
this, and stays there. -/
theorem exists_giveOut_eq
    {p : Piece}
    {after : List Char}
    {item : Item}
    (hwhole : source.toList = before ++ (p.text ++ after))
    (hstart : k.start = String.utf8Len before)
    (hcurrent : k.current = String.utf8Len (before ++ p.text))
    (htaken : ∀ s ∈ k.taken, s.Fits source)
    (hyields : p.Yields item)
    (hitem : p.item? k.line = some item)
    (onward : ByteRead (Option Reading)) :
    ∃ taken, ByteRead.giveOut onward (found p k.line) source k =
        some (some (Entry.item item).reading, { k with taken := taken }) ∧
      ∀ s ∈ taken, s.Fits source := by
  cases hyields with
  | token kind text line =>
      cases hitem
      have htext := ByteRead.text_eq (k := k) hwhole
      have hfits := Stretch.fits hwhole
      rw [← hstart, ← hcurrent] at htext hfits
      have hgive : ByteRead.giveOut onward (found ⟨.token kind, text⟩ k.line) source k =
          some (some (Entry.item (.token ⟨kind, String.ofList text, k.line⟩)).reading,
            k.take ⟨k.start, k.current⟩) :=
        (ByteRead.bind_of_eq ByteRead.here_eq).trans (ByteRead.bind_of_eq htext)
      refine ⟨_, hgive, ?_⟩
      intro s hs
      rcases List.mem_append.mp hs with hs | hs
      · exact htaken s hs
      · exact (List.mem_singleton.mp hs) ▸ hfits
  | stray | openString | openComment =>
      cases hitem
      exact ⟨k.taken, rfl, htaken⟩

theorem next_eq_giveOut
    {found : Found}
    {middle : ByteReader}
    (hlower : k.current < (bytes source).length)
    (hread : ByteRead.readPiece (fuel + 1) source { k with start := k.current } =
      some (found, middle)) :
    ByteRead.next (fuel + 1) source k =
      ByteRead.giveOut (ByteRead.next fuel) found source middle := by
  have hbegin : ByteRead.begin source k = some ((), { k with start := k.current }) := rfl
  rw [ByteRead.next, ByteRead.bind_of_eq ByteRead.here_eq, ByteRead.bind_of_eq ByteRead.size_eq,
    if_neg (Nat.not_lt.mpr (Nat.le_of_lt hlower)), if_neg (Nat.ne_of_lt hlower),
    ByteRead.bind_of_eq hbegin, ByteRead.bind_of_eq hread]

/-- Behind the last piece the end of the text is given out. -/
theorem next_at_end
    (hat : k.At source before [])
    (htaken : ∀ s ∈ k.taken, s.Fits source) :
    ∃ answer behind, ByteRead.next (fuel + 1) source k = some (answer, behind) ∧
      Follows source (loud before []) (.reading k.line []) answer behind := by
  have hlength : k.current = (bytes source).length := by
    rw [length_bytes, hat.whole, List.append_nil, hat.current]
  have hnext : ByteRead.next (fuel + 1) source k = some (some ⟨.eof k.line, none⟩, k.move 1) := by
    rw [ByteRead.next, ByteRead.bind_of_eq ByteRead.here_eq, ByteRead.bind_of_eq ByteRead.size_eq,
      if_neg (by omega), if_pos hlength]
    rfl
  have hcursor : (Cursor.reading k.line []).next = (some (.eof k.line), .done) := by
    rw [Cursor.next]
  rw [loud_nil]
  refine ⟨_, _, hnext, ?_, ?_, htaken, by simp⟩
  · rw [hcursor]
    rfl
  · rw [hcursor]
    exact .done (congrArg (· + 1) hlength)

theorem next_reading
    (hat : k.At source before cs)
    (htaken : ∀ s ∈ k.taken, s.Fits source)
    (hfuel : String.utf8Len cs < fuel) :
    ∃ answer behind, ByteRead.next fuel source k = some (answer, behind) ∧
      Follows source (loud before cs) (.reading k.line cs) answer behind := by
  -- One call may pass over several pieces that yield nothing, each of which leaves less to read.
  induction fuel generalizing k before cs with
  | zero =>
      omega
  | succ fuel ih =>
      cases cs with
      | nil =>
          exact next_at_end hat htaken
      | cons c cs =>
          have hlower : k.current < (bytes source).length := by
            have hsize := c.utf8Size_pos
            rw [length_bytes, hat.whole, hat.current, String.utf8Len_append, String.utf8Len_cons]
            omega
          have hless := utf8Len_lead_lt c cs
          obtain ⟨middle, hread, hpasses⟩ := ByteRead.readPiece_reads
            (k := { k with start := k.current }) ⟨hat.whole, hat.current⟩ hat.current hfuel
          have hmiddle := hpasses.arrives ⟨hat.whole, hat.current⟩
          have hfits := hpasses.fits htaken
          rw [next_eq_giveOut hlower hread]
          rcases (Piece.lead_leads c cs).yields (k.line + (Piece.lead c cs).1.lineBreaks) with
            ⟨hsilent, hitem⟩ | ⟨hloud, item, hitem, hyields⟩
          · have hfound : found (Piece.lead c cs).1 (k.line + (Piece.lead c cs).1.lineBreaks) =
                .nothing := by
              rw [found, hitem]
            obtain ⟨answer, behind, hnext, hfollows⟩ := ih hmiddle hfits (by omega)
            rw [hfound, loud_of_silent hsilent]
            rw [hpasses.line] at hfollows
            exact ⟨answer, behind, hnext, hfollows.congr (Cursor.next_of_item?_eq_none hitem)⟩
          · have hcursor := Cursor.next_of_item?_eq_some hitem
            rw [← hpasses.line] at hitem hcursor ⊢
            obtain ⟨taken, hgive, htaken⟩ := exists_giveOut_eq
              (by rw [hat.whole, Piece.lead_append]) (hpasses.start.trans hat.current)
              hpasses.current hfits hyields hitem (ByteRead.next fuel)
            refine ⟨_, _, hgive, ?_, ?_, htaken, ?_⟩
            · rw [hcursor]
              rfl
            · rw [hcursor, loud_of_not_silent hloud]
              exact .reading ⟨hmiddle.whole, hmiddle.current⟩
            · rw [loud_of_not_silent hloud]
              intro place hplace
              cases hplace
              exact ⟨hpasses.start.trans hat.current, hpasses.current⟩

/-- A reader that has given out the end stays where it is. -/
theorem next_of_length_lt
    (h : (bytes source).length < k.current)
    (hfuel : 0 < fuel) :
    ByteRead.next fuel source k = some (none, k) := by
  obtain ⟨fuel, rfl⟩ := Nat.exists_eq_add_one_of_ne_zero (Nat.ne_zero_of_lt hfuel)
  rw [ByteRead.next, ByteRead.bind_of_eq ByteRead.here_eq, ByteRead.bind_of_eq ByteRead.size_eq,
    if_pos h]
  rfl

/-- A call does to a reader what it does to a cursor that stands where the reader does. -/
theorem next_follows
    {places : List Piece.Place}
    {cursor : Cursor}
    (h : Tracks source k places cursor)
    (htaken : ∀ s ∈ k.taken, s.Fits source)
    (hfuel : (bytes source).length < fuel) :
    ∃ answer behind, ByteRead.next fuel source k = some (answer, behind) ∧
      Follows source places cursor answer behind := by
  cases h with
  | @reading before cs hat =>
      rw [length_bytes, hat.whole, String.utf8Len_append] at hfuel
      exact next_reading hat htaken (by omega)
  | done hcurrent =>
      have hcursor : Cursor.done.next = (none, .done) := by
        rw [Cursor.next]
      have hnext : ByteRead.next fuel source k = some (none, k) :=
        next_of_length_lt (by omega) (Nat.zero_lt_of_lt hfuel)
      refine ⟨_, _, hnext, ?_, ?_, htaken, by simp⟩
      · rw [hcursor]
        rfl
      · rw [hcursor]
        exact .done hcurrent

end Step

/-! ## Call by call -/

/-- Where a cursor stands after the given number of calls. -/
def Cursor.afterCalls (k : Cursor) : Nat → Cursor
  | 0 => k
  | n + 1 => (k.afterCalls n).next.2

theorem Cursor.afterCalls_next
    (k : Cursor)
    (n : Nat) :
    k.next.2.afterCalls n = k.afterCalls (n + 1) := by
  induction n with
  | zero =>
      rfl
  | succ n ih =>
      rw [afterCalls, ih]
      rfl

theorem Cursor.call_eq_next
    (k : Cursor)
    (n : Nat) :
    k.call n = (k.afterCalls n).next.1 := by
  induction n generalizing k with
  | zero =>
      rfl
  | succ n ih =>
      rw [call, ih, afterCalls_next]

section Calls

variable {source : String}
variable {fuel : Nat}

theorem afterCalls_succ
    {n : Nat}
    {k behind : ByteReader}
    {answer : Option Reading}
    (hk : ByteRead.afterCalls fuel source n = some k)
    (hnext : ByteRead.next fuel source k = some (answer, behind)) :
    ByteRead.afterCalls fuel source (n + 1) = some behind := by
  rw [ByteRead.afterCalls, hk]
  change (ByteRead.next fuel source k).bind _ = _
  rw [hnext]
  rfl

/-- Every call finds the reader where as many calls take a cursor. -/
theorem afterCalls_tracks
    (hfuel : (bytes source).length < fuel)
    (n : Nat) :
    ∃ k, ByteRead.afterCalls fuel source n = some k ∧
      Tracks source k ((loud [] source.toList).drop n) ((Cursor.start source).afterCalls n) ∧
      ∀ s ∈ k.taken, s.Fits source := by
  induction n with
  | zero =>
      exact ⟨.initial, rfl, .reading ⟨rfl, rfl⟩, nofun⟩
  | succ n ih =>
      obtain ⟨k, hk, htracks, htaken⟩ := ih
      obtain ⟨answer, behind, hnext, hfollows⟩ := next_follows htracks htaken hfuel
      refine ⟨behind, afterCalls_succ hk hnext, ?_, hfollows.taken⟩
      rw [← List.tail_drop]
      exact hfollows.tracks

theorem exists_call
    (hfuel : (bytes source).length < fuel)
    (n : Nat) :
    ∃ k answer behind, ByteRead.afterCalls fuel source n = some k ∧
      ByteRead.next fuel source k = some (answer, behind) ∧
      Tracks source k ((loud [] source.toList).drop n) ((Cursor.start source).afterCalls n) ∧
      Follows source ((loud [] source.toList).drop n) ((Cursor.start source).afterCalls n)
        answer behind := by
  obtain ⟨k, hk, htracks, htaken⟩ := afterCalls_tracks hfuel n
  obtain ⟨answer, behind, hnext, hfollows⟩ := next_follows htracks htaken hfuel
  exact ⟨k, answer, behind, hk, hnext, htracks, hfollows⟩

end Calls

/-! ## What is reported -/

namespace ByteRead

/-- The call with the given number reports a character that begins at a byte, and moves over the whole
of it. -/
def Reports (fuel : Nat) (source : String) (index : Nat) (c : Char) (n : Nat) : Prop :=
  ∃ k behind line, afterCalls fuel source n = some k ∧
    next fuel source k = some (some ⟨.item (.fault line (.unexpected c)), none⟩, behind) ∧
    behind.start = index ∧ behind.current = index + c.utf8Size

end ByteRead

section Places

variable {source : String}

/-- The entries before the last one are what the pieces yield that yield something. -/
theorem holds_loud
    (source : String) :
    List.Forall₂ (Piece.Place.Holds source.toList) (loud [] source.toList)
      (ofSource source).items :=
  (Piece.cuts_cut source.toList).holds []

theorem exists_entry_of_loud
    {n : Nat}
    {place : Piece.Place}
    (h : (loud [] source.toList)[n]? = some place) :
    ∃ item, (Cursor.start source).call n = some (.item item) ∧
      place.Holds source.toList item := by
  have hall := holds_loud source
  obtain ⟨hn, hplace⟩ := List.getElem?_eq_some_iff.mp h
  have hitems : n < (ofSource source).items.length := hall.length_eq ▸ hn
  refine ⟨(ofSource source).items[n], ?_, ?_⟩
  · rw [Cursor.call_start, entries, List.getElem?_append_left (by simpa using hitems),
      List.getElem?_map, List.getElem?_eq_getElem hitems]
    rfl
  · rw [← hplace]
    exact hall.get hn hitems

theorem exists_loud_of_entry
    {n : Nat}
    {item : Item}
    (h : (Cursor.start source).call n = some (.item item)) :
    ∃ place, (loud [] source.toList)[n]? = some place ∧ place.Holds source.toList item := by
  have hall := holds_loud source
  rw [Cursor.call_start, entries] at h
  have hitems : n < (ofSource source).items.length := by
    by_contra hge
    rw [List.getElem?_append_right (by simpa using hge)] at h
    have hmem := List.mem_of_getElem? h
    simp at hmem
  rw [List.getElem?_append_left (by simpa using hitems), List.getElem?_map,
    List.getElem?_eq_getElem hitems] at h
  cases h
  have hn : n < (loud [] source.toList).length := hall.length_eq ▸ hitems
  exact ⟨_, List.getElem?_eq_getElem hn, hall.get hn hitems⟩

theorem piece_mem_of_mem_places
    {pieces : List Piece}
    {before : List Char}
    {place : Piece.Place}
    (h : place ∈ Piece.places before pieces) :
    place.piece ∈ pieces := by
  induction pieces generalizing before with
  | nil =>
      cases h
  | cons p rest ih =>
      rcases List.mem_cons.mp h with rfl | h
      · exact List.mem_cons_self
      · exact List.mem_cons_of_mem p (ih h)

theorem le_of_mem_places
    {pieces : List Piece}
    {before : List Char}
    {place : Piece.Place}
    (h : place ∈ Piece.places before pieces) :
    String.utf8Len before ≤ String.utf8Len place.before := by
  induction pieces generalizing before with
  | nil =>
      cases h
  | cons p rest ih =>
      rcases List.mem_cons.mp h with rfl | h
      · exact Nat.le_refl _
      · have hlater := ih h
        rw [String.utf8Len_append] at hlater
        omega

/-- Pieces begin behind the ones before them. -/
theorem pairwise_places
    {pieces : List Piece}
    (h : ∀ p ∈ pieces, p.text ≠ [])
    (before : List Char) :
    (Piece.places before pieces).Pairwise fun earlier later =>
      String.utf8Len earlier.before < String.utf8Len later.before := by
  induction pieces generalizing before with
  | nil =>
      exact .nil
  | cons p rest ih =>
      have hpos := utf8Len_pos (h p List.mem_cons_self)
      refine .cons ?_ (ih (fun q hq => h q (List.mem_cons_of_mem p hq)) _)
      intro later hlater
      have hle := le_of_mem_places hlater
      rw [String.utf8Len_append] at hle
      change String.utf8Len before < _
      omega

/-- No two pieces of a source begin at the same byte. -/
theorem nodup_places
    (cs : List Char) :
    ((Piece.places [] (Piece.cut cs)).map fun place => String.utf8Len place.before).Nodup := by
  have hne : ∀ p ∈ Piece.cut cs, p.text ≠ [] := by
    intro p hp
    obtain ⟨after, hlead⟩ := (Piece.cuts_cut cs).leads p hp
    exact hlead.text_ne_nil
  exact (pairwise_places hne []).map _ fun _ _ hlt => Nat.ne_of_lt hlt

theorem eq_of_mem_places
    {cs : List Char}
    {place other : Piece.Place}
    (h : place ∈ Piece.places [] (Piece.cut cs))
    (hother : other ∈ Piece.places [] (Piece.cut cs))
    (hsame : String.utf8Len place.before = String.utf8Len other.before) :
    place = other :=
  List.inj_on_of_nodup_map (nodup_places cs) h hother hsame

theorem mem_places_of_loud
    {cs : List Char}
    {n : Nat}
    {place : Piece.Place}
    (h : (loud [] cs)[n]? = some place) :
    place ∈ Piece.places [] (Piece.cut cs) :=
  (List.mem_filter.mp (List.mem_of_getElem? h)).1

end Places

section Reports

variable {source : String}
variable {fuel : Nat}
variable {index n : Nat}
variable {c : Char}

/-- The characters that are reported are the stray ones. -/
theorem reports_iff
    (hfuel : (bytes source).length < fuel) :
    ByteRead.Reports fuel source index c n ↔
      ∃ place, (loud [] source.toList)[n]? = some place ∧ place.piece = ⟨.stray, [c]⟩ ∧
        String.utf8Len place.before = index := by
  obtain ⟨k, answer, behind, hk, hnext, htracks, hfollows⟩ := exists_call hfuel n
  have hanswer : answer = ((Cursor.start source).call n).map Entry.reading := by
    rw [Cursor.call_eq_next, hfollows.answer]
  have hbehind : ∀ place, (loud [] source.toList)[n]? = some place → behind.Behind place := by
    intro place hplace
    exact hfollows.place place (by rw [List.head?_drop, hplace])
  constructor
  · rintro ⟨k', behind', line, hk', hnext', hstart, -⟩
    rw [hk] at hk'
    cases hk'
    rw [hnext] at hnext'
    cases hnext'
    obtain ⟨entry, hentry, hreading⟩ := Option.map_eq_some_iff.mp hanswer.symm
    obtain rfl : entry = .item (.fault line (.unexpected c)) := congrArg Reading.entry hreading
    obtain ⟨place, hplace, hholds⟩ := exists_loud_of_entry hentry
    refine ⟨place, hplace, ?_, (hbehind place hplace).start.symm.trans hstart⟩
    have hyields := hholds.yields
    generalize place.piece = piece at hyields
    cases hyields with
    | stray c line =>
        rfl
  · rintro ⟨⟨before, piece⟩, hplace, rfl, rfl⟩
    obtain ⟨item, hcall, hholds⟩ := exists_entry_of_loud hplace
    have hyields := hholds.yields
    cases hyields with
    | stray c line =>
        rw [hcall] at hanswer
        subst hanswer
        refine ⟨k, behind, line, hk, hnext, (hbehind _ hplace).start, ?_⟩
        rw [(hbehind _ hplace).current]
        change String.utf8Len (before ++ [c]) = _
        rw [String.utf8Len_append]
        simp

/-- A stray character is reported, by one call only. -/
theorem existsUnique_reports
    {before : List Char}
    (hfuel : (bytes source).length < fuel)
    (h : ⟨before, ⟨.stray, [c]⟩⟩ ∈ Piece.places [] (Piece.cut source.toList)) :
    ∃! n, ByteRead.Reports fuel source (String.utf8Len before) c n := by
  have hmem : ⟨before, ⟨.stray, [c]⟩⟩ ∈ loud [] source.toList := List.mem_filter.mpr ⟨h, rfl⟩
  obtain ⟨n, hn⟩ := List.mem_iff_getElem?.mp hmem
  refine ⟨n, (reports_iff hfuel).mpr ⟨_, hn, rfl, rfl⟩, ?_⟩
  intro m hm
  obtain ⟨place, hplace, -, hsame⟩ := (reports_iff hfuel).mp hm
  obtain rfl := eq_of_mem_places (mem_places_of_loud hplace) h hsame
  have hlength := (List.getElem?_eq_some_iff.mp hplace).1
  have hnodup : (loud [] source.toList).Nodup :=
    (List.Nodup.of_map _ (nodup_places source.toList)).filter _
  exact (List.getElem?_inj hlength hnodup).mp (hplace.trans hn.symm)

/-- Where a piece begins that is no stray character, none is reported. -/
theorem not_reports
    {place : Piece.Place}
    (hfuel : (bytes source).length < fuel)
    (h : place ∈ Piece.places [] (Piece.cut source.toList))
    (hshape : place.piece.shape ≠ .stray) :
    ¬ ByteRead.Reports fuel source (String.utf8Len place.before) c n := by
  intro hreports
  obtain ⟨other, hother, hpiece, hsame⟩ := (reports_iff hfuel).mp hreports
  obtain rfl := eq_of_mem_places (mem_places_of_loud hother) h hsame
  rw [hpiece] at hshape
  exact hshape rfl

end Reports

/-- A piece that is part of no token, no string and no comment. -/
def isLoose (p : Piece) : Bool :=
  p.shape = .blank || p.shape = .stray

/-- What is part of none of these is a single character, blank or stray. -/
theorem eq_of_isLoose
    {p : Piece}
    {after : List Char}
    (h : p.Leads after)
    (hloose : isLoose p = true) :
    ∃ c, (p = ⟨.blank, [c]⟩ ∧ Blank c) ∨ (p = ⟨.stray, [c]⟩ ∧ ¬ Blank c) := by
  cases h with
  | blank hblank =>
      exact ⟨_, .inl ⟨rfl, hblank⟩⟩
  | stray hblank hstray =>
      exact ⟨_, .inr ⟨rfl, hblank⟩⟩
  | lineComment | blockComment | token | openString | openComment =>
      cases hloose

/-- Reading the bytes of a source call by call gives out what a cursor over its characters does, and
no read is without an answer.  Each call finds the reader between characters, or behind the end that
was given out, and every stretch that was taken lies in the source and begins and ends between
characters.  What is part of no token, no string and no comment is a single character, which is passed
over silently if it is blank, and otherwise as a whole and with a report by one call only. -/
theorem stretches_keep_to_characters
    {given : List UInt8}
    {source : String}
    {fuel : Nat}
    (hgiven : ofBytes given = .ok source)
    (hfuel : given.length < fuel) :
    bytes source = given ∧
    (∀ n, ∃ k answer behind,
      ByteRead.afterCalls fuel source n = some k ∧
      ByteRead.next fuel source k = some (answer, behind) ∧
      answer = ((Cursor.start source).call n).map Entry.reading ∧
      (k.current ≤ given.length ∧ String.Pos.Raw.IsValid source ⟨k.current⟩ ∨
        k.current = given.length + 1 ∧ answer = none ∧ behind = k) ∧
      ∀ s ∈ behind.taken, s.Fits source) ∧
    ∃ pieces, Piece.Cuts source.toList pieces ∧
      ∀ place ∈ Piece.places [] pieces, isLoose place.piece = true →
        ∃ c, place.piece.text = [c] ∧
          if Blank c then
            ∀ n, ¬ ByteRead.Reports fuel source (String.utf8Len place.before) c n
          else
            ∃! n, ByteRead.Reports fuel source (String.utf8Len place.before) c n := by
  have hbytes : bytes source = given := by
    rw [bytes, ← ofBytes_eq_ok_iff.mp hgiven]
    simp
  subst hbytes
  refine ⟨rfl, ?_, Piece.cut source.toList, Piece.cuts_cut source.toList, ?_⟩
  · intro n
    obtain ⟨k, answer, behind, hk, hnext, htracks, hfollows⟩ := exists_call hfuel n
    refine ⟨k, answer, behind, hk, hnext, ?_, ?_, hfollows.taken⟩
    · rw [Cursor.call_eq_next, hfollows.answer]
    · rcases htracks.stands with hstands | hdone
      · exact .inl hstands
      · have hagain : ByteRead.next fuel source k = some (none, k) :=
          next_of_length_lt (by omega) (Nat.zero_lt_of_lt hfuel)
        rw [hnext] at hagain
        cases hagain
        exact .inr ⟨hdone, rfl, rfl⟩
  · rintro ⟨before, piece⟩ hplace hloose
    obtain ⟨after, hlead⟩ :=
      (Piece.cuts_cut source.toList).leads piece (piece_mem_of_mem_places hplace)
    obtain ⟨c, ⟨rfl, hblank⟩ | ⟨rfl, hblank⟩⟩ := eq_of_isLoose hlead hloose
    · refine ⟨c, rfl, ?_⟩
      rw [if_pos hblank]
      exact fun n => not_reports hfuel hplace (by simp)
    · refine ⟨c, rfl, ?_⟩
      rw [if_neg hblank]
      exact existsUnique_reports hfuel hplace

/-- A letter of two bytes that starts nothing. -/
theorem stretches_keep_to_characters_two_bytes :
    ofBytes [0xC3, 0xA9, 0x3B] = .ok "é;" ∧ [0xC3, 0xA9, 0x3B].length < 4 ∧
      ∃! n, ByteRead.Reports 4 "é;" 0 'é' n := by
  have hgiven : ofBytes [0xC3, 0xA9, 0x3B] = .ok "é;" := by
    decide +kernel
  have hlength : [0xC3, 0xA9, 0x3B].length < 4 := by
    decide
  refine ⟨hgiven, hlength, ?_⟩
  obtain ⟨-, -, pieces, hcuts, hloose⟩ := stretches_keep_to_characters hgiven hlength
  have hcut : Piece.cut "é;".toList = [⟨.stray, ['é']⟩, ⟨.token (.punct .semicolon), [';']⟩] := by
    decide +kernel
  rw [hcuts.eq_cut, hcut] at hloose
  obtain ⟨c, htext, honce⟩ := hloose ⟨[], ⟨.stray, ['é']⟩⟩ List.mem_cons_self rfl
  cases htext
  rwa [if_neg (by decide)] at honce

end Scan

end Lox
