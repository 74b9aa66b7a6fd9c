import Lox.Proofs.Text.Utf8
import Mathlib.Data.String.Basic

/-!
# Texts as bytes

A character of the first 128 is written as the one byte with its number, and the bytes of every other
character are none of these.  So a test that does not tell the other characters apart may be asked of
the bytes of a text instead of its characters, and a run of bytes that pass it is a run of characters.
-/

namespace Lox

namespace Text

/-- The bytes that characters are written as. -/
def encode (cs : List Char) : List UInt8 :=
  cs.flatMap String.utf8EncodeChar

/-- The bytes of a text. -/
def bytes (s : String) : List UInt8 :=
  s.toByteArray.data.toList

@[simp]
theorem encode_nil : encode [] = [] := by
  rfl

theorem encode_cons
    (c : Char)
    (cs : List Char) :
    encode (c :: cs) = String.utf8EncodeChar c ++ encode cs := by
  rfl

theorem encode_append
    (cs ds : List Char) :
    encode (cs ++ ds) = encode cs ++ encode ds :=
  List.flatMap_append

@[simp]
theorem length_encode
    (cs : List Char) :
    (encode cs).length = String.utf8Len cs := by
  induction cs with
  | nil =>
      rfl
  | cons c cs ih =>
      rw [encode_cons, List.length_append, ih, String.length_utf8EncodeChar, String.utf8Len_cons,
        Nat.add_comm]

theorem bytes_eq_encode
    (s : String) :
    bytes s = encode s.toList := by
  rw [bytes, ← String.utf8Encode_toList, List.utf8Encode, encode]
  simp

/-- Different texts are written differently. -/
theorem encode_injective : Function.Injective encode := by
  intro cs ds h
  have hread : decodeFrom 0 .start (encode ds) = .ok cs := decodeFrom_eq_ok_iff.mpr h.symm
  have hsame : decodeFrom 0 .start (encode ds) = .ok ds := decodeFrom_eq_ok_iff.mpr rfl
  exact Except.ok.inj (hread.symm.trans hsame)

/-! ## The bytes of a character -/

section Characters

variable {c : Char}

theorem toNat_ofUInt8
    (b : UInt8) :
    (Char.ofUInt8 b).toNat = b.toNat := by
  rfl

/-- One of the first 128 characters is a single byte. -/
theorem utf8EncodeChar_of_lt
    (h : c.toNat < 0x80) :
    ∃ b : UInt8, String.utf8EncodeChar c = [b] ∧ Char.ofUInt8 b = c := by
  have hle : c.val.toNat ≤ 127 := Nat.le_of_lt_succ h
  refine ⟨UInt8.ofNat c.val.toNat, ?_, ?_⟩
  · rw [String.utf8EncodeChar, if_pos hle]
  · apply Char.toNat_inj.mp
    rw [toNat_ofUInt8, UInt8.toNat_ofNat', Nat.mod_eq_of_lt (by omega)]
    rfl

/-- The bytes of any other character stand for none of the first 128. -/
theorem le_of_mem_utf8EncodeChar
    (h : 0x80 ≤ c.toNat)
    {b : UInt8}
    (hb : b ∈ String.utf8EncodeChar c) :
    0x80 ≤ b.toNat := by
  change 0x80 ≤ c.val.toNat at h
  unfold String.utf8EncodeChar at hb
  rw [if_neg (by omega)] at hb
  -- A lead byte is above `0xC0`, and a continuation byte carries six bits above `0x80`.
  split at hb
  · simp only [List.mem_cons, List.not_mem_nil, or_false] at hb
    rcases hb with rfl | rfl <;> rw [UInt8.toNat_ofNat'] <;> omega
  · split at hb
    · simp only [List.mem_cons, List.not_mem_nil, or_false] at hb
      rcases hb with rfl | rfl | rfl <;> rw [UInt8.toNat_ofNat'] <;> omega
    · simp only [List.mem_cons, List.not_mem_nil, or_false] at hb
      rcases hb with rfl | rfl | rfl | rfl <;> rw [UInt8.toNat_ofNat'] <;> omega

theorem encode_cons_of_lt
    (h : c.toNat < 0x80)
    (cs : List Char) :
    ∃ b : UInt8, encode (c :: cs) = b :: encode cs ∧ Char.ofUInt8 b = c := by
  obtain ⟨b, hbytes, hb⟩ := utf8EncodeChar_of_lt h
  refine ⟨b, ?_, hb⟩
  rw [encode_cons, hbytes]
  rfl

end Characters

/-! ## Tests of bytes -/

/-- A test of characters answers for each byte of a character what it answers for the character. -/
def Bytewise (q : Char → Bool) : Prop :=
  ∀ c, ∀ b ∈ String.utf8EncodeChar c, q (Char.ofUInt8 b) = q c

section Tests

variable {q : Char → Bool}

/-- A test may be asked of bytes if it does not tell characters apart beyond the first 128. -/
theorem Bytewise.of_const
    (answer : Bool)
    (h : ∀ c : Char, 0x80 ≤ c.toNat → q c = answer) :
    Bytewise q := by
  intro c b hb
  by_cases hc : c.toNat < 0x80
  · obtain ⟨b', hbytes, hb'⟩ := utf8EncodeChar_of_lt hc
    rw [hbytes, List.mem_singleton] at hb
    rw [hb, hb']
  · have hle : 0x80 ≤ c.toNat := Nat.le_of_not_lt hc
    rw [h c hle, h (Char.ofUInt8 b) (le_of_mem_utf8EncodeChar hle hb)]

theorem bytewise_ne
    {sign : Char}
    (h : sign.toNat < 0x80) :
    Bytewise fun c => decide (c ≠ sign) := by
  refine .of_const true fun c hc => ?_
  rw [decide_eq_true_iff]
  rintro rfl
  omega

theorem bytewise_eq
    {sign : Char}
    (h : sign.toNat < 0x80) :
    Bytewise fun c => decide (c = sign) := by
  refine .of_const false fun c hc => ?_
  rw [decide_eq_false_iff_not]
  rintro rfl
  omega

/-- The first byte of a text passes a test exactly if its first character does. -/
theorem test_head_encode
    (hq : Bytewise q)
    (hnone : q '\x00' = false)
    (cs : List Char) :
    q (Char.ofUInt8 ((encode cs).head?.getD 0)) = cs.head?.any q := by
  cases cs with
  | nil =>
      exact hnone
  | cons c cs =>
      cases hbytes : String.utf8EncodeChar c with
      | nil =>
          exact absurd hbytes String.utf8EncodeChar_ne_nil
      | cons b bs =>
          rw [encode_cons, hbytes]
          exact hq c b (hbytes ▸ List.mem_cons_self)

/-- Bytes that pass a test are those of the characters that do. -/
theorem takeWhile_encode
    (hq : Bytewise q)
    (cs : List Char) :
    (encode cs).takeWhile (fun b => q (Char.ofUInt8 b)) = encode (cs.takeWhile q) := by
  induction cs with
  | nil =>
      rfl
  | cons c cs ih =>
      cases hc : q c with
      | true =>
          have hbytes : ∀ b ∈ String.utf8EncodeChar c, q (Char.ofUInt8 b) = true :=
            fun b hb => (hq c b hb).trans hc
          rw [encode_cons, List.takeWhile_append_of_pos hbytes, ih,
            List.takeWhile_cons_of_pos hc, encode_cons]
      | false =>
          cases hbytes : String.utf8EncodeChar c with
          | nil =>
              exact absurd hbytes String.utf8EncodeChar_ne_nil
          | cons b bs =>
              have hb : q (Char.ofUInt8 b) = false := (hq c b (hbytes ▸ List.mem_cons_self)).trans hc
              rw [encode_cons, hbytes, List.cons_append, List.takeWhile_cons_of_neg (by simp [hb]),
                List.takeWhile_cons_of_neg (by simp [hc]), encode_nil]

/-- A sign of the first 128 is found as often among the bytes as among the characters. -/
theorem countP_encode
    {sign : Char}
    (h : sign.toNat < 0x80)
    (cs : List Char) :
    (encode cs).countP (fun b => decide (Char.ofUInt8 b = sign)) = cs.count sign := by
  induction cs with
  | nil =>
      rfl
  | cons c cs ih =>
      rw [encode_cons, List.countP_append, ih, List.count_cons, Nat.add_comm]
      congr 1
      by_cases hc : c = sign
      · subst hc
        obtain ⟨b, hbytes, hb⟩ := utf8EncodeChar_of_lt h
        simp [hbytes, hb]
      · have hbytes : ∀ b ∈ String.utf8EncodeChar c, ¬ decide (Char.ofUInt8 b = sign) = true := by
          intro b hb
          have htest : decide (Char.ofUInt8 b = sign) = decide (c = sign) := bytewise_eq h c b hb
          simpa [htest] using hc
        rw [List.countP_eq_zero.mpr hbytes, if_neg (by simpa using hc)]

end Tests

end Text

end Lox
