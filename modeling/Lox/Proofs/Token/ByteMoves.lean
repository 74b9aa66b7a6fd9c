import Lox.Proofs.Token.ByteReader

/-!
# Moves of a byte reader

What single looks and moves do to a reader that has given bytes in front of it, and how far the loops
take it that pass over runs of bytes.  A stretch that begins and ends between characters can be taken,
and is the text of the characters between.
-/

namespace Lox

namespace Scan

open Text

namespace ByteReader

/-- The reader has the given bytes in front of it. -/
structure Faces (k : ByteReader) (source : String) (rest : List UInt8) : Prop where
  within : k.current ≤ (bytes source).length
  ahead : (bytes source).drop k.current = rest

section Moves

variable (k : ByteReader)
variable (count other : Nat)
variable (passed more : List UInt8)

@[simp]
theorem move_move : (k.move count).move other = k.move (count + other) := by
  simp [move, Nat.add_assoc]

@[simp]
theorem count_move : (k.move count).count passed = (k.count passed).move count := by
  rfl

@[simp]
theorem count_count : (k.count passed).count more = k.count (passed ++ more) := by
  simp [ByteReader.count, List.countP_append, Nat.add_assoc]

end Moves

section Faces

variable {k : ByteReader}
variable {source : String}
variable {b : UInt8}
variable {run rest : List UInt8}

theorem Faces.length
    (h : k.Faces source rest) :
    k.current + rest.length = (bytes source).length := by
  have hwithin := h.within
  rw [← h.ahead, List.length_drop]
  omega

theorem Faces.getElem?
    (h : k.Faces source rest)
    (i : Nat) :
    (bytes source)[k.current + i]? = rest[i]? := by
  rw [← h.ahead, List.getElem?_drop]

theorem Faces.move
    (h : k.Faces source (run ++ rest)) :
    (k.move run.length).Faces source rest := by
  have hlength := h.length
  rw [List.length_append] at hlength
  constructor
  · change k.current + run.length ≤ _
    omega
  · change (bytes source).drop (k.current + run.length) = rest
    rw [← List.drop_drop, h.ahead, List.drop_left]

theorem Faces.move_one
    (h : k.Faces source (b :: rest)) :
    (k.move 1).Faces source rest := by
  rw [← List.singleton_append] at h
  exact h.move

/-- Counting lines does not move the reader. -/
theorem Faces.count
    (h : k.Faces source rest)
    (passed : List UInt8) :
    (k.count passed).Faces source rest :=
  ⟨h.within, h.ahead⟩

end Faces

end ByteReader

namespace ByteRead

variable {source : String}
variable {k : ByteReader}

/-! ## Single looks and moves -/

section Looks

variable {α β : Type}
variable {b : UInt8}
variable {rest : List UInt8}

/-- A read goes on where the one before it stopped. -/
theorem bind_of_eq
    {m : ByteRead α}
    {f : α → ByteRead β}
    {a : α}
    {behind : ByteReader}
    (h : m source k = some (a, behind)) :
    (m >>= f) source k = f a source behind := by
  change (m source k).bind _ = _
  rw [h]
  rfl

theorem here_eq : here source k = some (k, k) := by
  rfl

theorem size_eq : size source k = some ((bytes source).length, k) := by
  rfl

theorem advance_eq
    (h : k.Faces source (b :: rest)) :
    advance source k = some (b, k.move 1) := by
  have hget : (bytes source)[k.current]? = some b := h.getElem? 0
  rw [advance, hget]

theorem peek_eq
    (h : k.Faces source rest) :
    peek source k = some (rest.head?.getD 0, k) := by
  have hget : (bytes source)[k.current]? = rest[0]? := h.getElem? 0
  rw [peek, hget, List.head?_eq_getElem?]

theorem peekNext_eq
    (h : k.Faces source rest) :
    peekNext source k = some (rest.tail.head?.getD 0, k) := by
  rw [peekNext, h.getElem? 1, List.head?_eq_getElem?, List.getElem?_tail]

theorem atEnd_eq
    (h : k.Faces source rest) :
    atEnd source k = some (rest.isEmpty, k) := by
  have hlength := h.length
  have hdecide : decide ((bytes source).length ≤ k.current) = rest.isEmpty := by
    rw [Bool.eq_iff_iff, decide_eq_true_iff, List.isEmpty_iff_length_eq_zero]
    omega
  rw [atEnd, hdecide]

theorem ahead_eq
    (h : k.Faces source rest) :
    ahead source k = some (rest, k) := by
  rw [ahead, if_pos h.within, h.ahead]

/-- Behind the last byte the reader has moved over all that was in front. -/
theorem goTo_size_eq
    (h : k.Faces source rest) :
    goTo (bytes source).length source k = some ((), k.move rest.length) := by
  rw [goTo, ← h.length]
  rfl

end Looks

/-! ## Runs of bytes -/

section Runs

variable {rest : List UInt8}

theorem skipRun_eq
    {q : Char → Bool}
    {fuel : Nat}
    (hnone : q '\x00' = false)
    (h : k.Faces source rest)
    (hfuel : rest.length < fuel) :
    skipRun q fuel source k =
      some ((), k.move (rest.takeWhile fun b => q (Char.ofUInt8 b)).length) := by
  induction fuel generalizing k rest with
  | zero =>
      omega
  | succ fuel ih =>
      rw [skipRun, bind_of_eq (peek_eq h)]
      cases rest with
      | nil =>
          -- Behind the last byte the test is asked of `0`.
          have hstop : q (Char.ofUInt8 (([] : List UInt8).head?.getD 0)) = false := hnone
          rw [hstop]
          rfl
      | cons b rest =>
          rw [List.head?_cons, Option.getD_some]
          cases hb : q (Char.ofUInt8 b) with
          | true =>
              rw [if_pos rfl, bind_of_eq (advance_eq h),
                ih h.move_one (Nat.lt_of_succ_lt_succ hfuel), List.takeWhile_cons_of_pos (by simp [hb]),
                ByteReader.move_move, List.length_cons, Nat.add_comm]
          | false =>
              rw [List.takeWhile_cons_of_neg (by simp [hb])]
              rfl

theorem skipQuoted_eq
    {fuel : Nat}
    (h : k.Faces source rest)
    (hfuel : rest.length < fuel) :
    skipQuoted fuel source k =
      some ((),
        (k.count (rest.takeWhile fun b => decide (Char.ofUInt8 b ≠ '"'))).move
          (rest.takeWhile fun b => decide (Char.ofUInt8 b ≠ '"')).length) := by
  induction fuel generalizing k rest with
  | zero =>
      omega
  | succ fuel ih =>
      rw [skipQuoted, bind_of_eq (atEnd_eq h), bind_of_eq (peek_eq h)]
      cases rest with
      | nil =>
          rfl
      | cons b rest =>
          rw [List.isEmpty_cons, List.head?_cons, Option.getD_some]
          by_cases hb : Char.ofUInt8 b = '"'
          · rw [if_neg (by simp [hb]), List.takeWhile_cons_of_neg (by simp [hb])]
            rfl
          · have hcount : count [b] source (k.move 1) = some ((), (k.move 1).count [b]) := rfl
            rw [if_pos ⟨rfl, hb⟩, bind_of_eq (advance_eq h), bind_of_eq hcount,
              ih (h.move_one.count [b]) (Nat.lt_of_succ_lt_succ hfuel),
              List.takeWhile_cons_of_pos (by simp [hb])]
            simp [Nat.add_comm]

end Runs

end ByteRead

/-! ## Between characters -/

/-- A stretch lies in a source, and begins and ends between characters. -/
structure Stretch.Fits (s : Stretch) (source : String) : Prop where
  ordered : s.first ≤ s.stop
  within : s.stop ≤ (bytes source).length
  first : String.Pos.Raw.IsValid source ⟨s.first⟩
  stop : String.Pos.Raw.IsValid source ⟨s.stop⟩

section Between

variable {source : String}
variable {before middle after : List Char}

theorem length_bytes
    (source : String) :
    (bytes source).length = String.utf8Len source.toList := by
  rw [bytes_eq_encode, length_encode]

/-- What stands before a text takes up bytes that end between characters. -/
theorem isValid_utf8Len
    (h : source.toList = before ++ after) :
    String.Pos.Raw.IsValid source ⟨String.utf8Len before⟩ := by
  apply String.Pos.Raw.isValid_iff_exists_append.mpr
  refine ⟨String.ofList before, String.ofList after, ?_, ?_⟩
  · rw [← String.ofList_append, ← h, String.ofList_toList]
  · rw [String.rawEndPos, String.utf8ByteSize_ofList]

theorem Stretch.fits
    (h : source.toList = before ++ (middle ++ after)) :
    Stretch.Fits ⟨String.utf8Len before, String.utf8Len (before ++ middle)⟩ source where
  ordered := by
    rw [String.utf8Len_append]
    exact Nat.le_add_right _ _
  within := by
    rw [length_bytes, h, ← List.append_assoc, String.utf8Len_append (before ++ middle)]
    exact Nat.le_add_right _ _
  first := isValid_utf8Len h
  stop := isValid_utf8Len (by rw [h, List.append_assoc])

theorem ByteRead.text_eq
    {k : ByteReader}
    (h : source.toList = before ++ (middle ++ after)) :
    ByteRead.text ⟨String.utf8Len before, String.utf8Len (before ++ middle)⟩ source k =
      some (String.ofList middle,
        k.take ⟨String.utf8Len before, String.utf8Len (before ++ middle)⟩) := by
  have hfits := Stretch.fits h
  have hsource : source = String.ofList (before ++ middle ++ after) := by
    rw [List.append_assoc, ← h, String.ofList_toList]
  have hextract : String.Pos.Raw.extract source ⟨String.utf8Len before⟩
      ⟨String.utf8Len (before ++ middle)⟩ = String.ofList middle := by
    rw [hsource, String.utf8Len_append]
    exact String.extract_of_valid before middle after
  rw [ByteRead.text, if_pos, hextract]
  exact ⟨hfits.ordered, String.Pos.Raw.isValid_eq_true_iff.mpr hfits.first,
    String.Pos.Raw.isValid_eq_true_iff.mpr hfits.stop⟩

theorem ByteRead.raw_eq
    {k : ByteReader}
    (h : source.toList = before ++ (middle ++ after)) :
    ByteRead.raw ⟨String.utf8Len before, String.utf8Len (before ++ middle)⟩ source k =
      some (encode middle, k) := by
  have hfits := Stretch.fits h
  have hbytes : bytes source = encode before ++ (encode middle ++ encode after) := by
    rw [bytes_eq_encode, h, encode_append, encode_append]
  have hslice : ((bytes source).take (String.utf8Len (before ++ middle))).drop
      (String.utf8Len before) = encode middle := by
    rw [hbytes, ← List.append_assoc, ← encode_append, ← length_encode (before ++ middle),
      List.take_left, encode_append, ← length_encode before, List.drop_left]
  rw [ByteRead.raw, if_pos ⟨hfits.ordered, hfits.within⟩, hslice]

end Between

/-- The reader stands behind some characters of a source and in front of the others. -/
structure ByteReader.At (k : ByteReader) (source : String) (before cs : List Char) : Prop where
  whole : source.toList = before ++ cs
  current : k.current = String.utf8Len before

section At

variable {source : String}
variable {k : ByteReader}
variable {before run cs : List Char}

theorem ByteReader.At.faces
    (h : k.At source before cs) :
    k.Faces source (encode cs) := by
  have hbytes : bytes source = encode before ++ encode cs := by
    rw [bytes_eq_encode, h.whole, encode_append]
  have hcurrent : k.current = (encode before).length := by
    rw [h.current, length_encode]
  constructor
  · rw [hbytes, hcurrent, List.length_append]
    exact Nat.le_add_right _ _
  · rw [hbytes, hcurrent, List.drop_left]

theorem ByteReader.At.move
    (h : k.At source before (run ++ cs)) :
    (k.move (encode run).length).At source (before ++ run) cs := by
  constructor
  · rw [h.whole, List.append_assoc]
  · rw [length_encode, String.utf8Len_append, ← h.current]
    rfl

theorem ByteReader.At.move_takeWhile
    (h : k.At source before cs)
    (q : Char → Bool) :
    (k.move (encode (cs.takeWhile q)).length).At source (before ++ cs.takeWhile q)
      (cs.dropWhile q) := by
  rw [← List.takeWhile_append_dropWhile (p := q) (l := cs)] at h
  exact h.move

/-- One of the first 128 characters is passed with its one byte. -/
theorem ByteReader.At.move_one
    {c : Char}
    (h : k.At source before (c :: cs))
    (hc : c.toNat < 0x80) :
    (k.move 1).At source (before ++ [c]) cs := by
  obtain ⟨b, hbytes, -⟩ := encode_cons_of_lt hc []
  rw [← List.singleton_append] at h
  have hmove := h.move
  rwa [hbytes] at hmove

/-- Counting lines does not move the reader. -/
theorem ByteReader.At.count
    (h : k.At source before cs)
    (passed : List UInt8) :
    (k.count passed).At source before cs :=
  ⟨h.whole, h.current⟩

end At

end Scan

end Lox
