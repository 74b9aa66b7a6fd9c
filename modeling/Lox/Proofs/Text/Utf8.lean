import Lox.Text.Utf8
import Mathlib.Algebra.Group.Nat.Defs

/-!
# Reading UTF-8

Bytes are read as a text exactly if they are the encoding of that text.  A character is encoded as a
lead byte and continuation bytes, and each of these carries six of its bits; what a lead byte promises
is kept by the encodings of characters, and by nothing else.
-/

namespace Lox
namespace Text

/-- The last `count` bytes of the encoding of a character with the given number. -/
def continuation (v : Nat) : Nat → List UInt8
  | 0 => []
  | count + 1 => UInt8.ofNat (v / 64 ^ count % 64 + 0x80) :: continuation v count

theorem toNat_continuation
    (v count : Nat) :
    (UInt8.ofNat (v / 64 ^ count % 64 + 0x80)).toNat = v / 64 ^ count % 64 + 0x80 := by
  have hlt : v / 64 ^ count % 64 < 64 := Nat.mod_lt _ (by decide)
  rw [UInt8.toNat_ofNat']
  omega

/-- The next byte carries the next six bits. -/
theorem div_pow_succ
    (v count : Nat) :
    v / 64 ^ (count + 1) * 64 + v / 64 ^ count % 64 = v / 64 ^ count := by
  rw [Nat.pow_succ, ← Nat.div_div_eq_div_mul]
  omega

/-- A byte is the first one of `count + 1` bytes that encode the character with the given number, and
promises no other second byte. -/
def Leads (v count : Nat) (first : UInt8) : Prop :=
  ∃ least greatest, lead? first.toNat = some ⟨count, least, greatest, v / 64 ^ count⟩ ∧
    ∀ k, count = k + 1 → least ≤ v / 64 ^ k % 64 + 0x80 ∧ v / 64 ^ k % 64 + 0x80 ≤ greatest

/-- What a lead byte can promise. -/
theorem of_lead?_eq_some
    {byte count least greatest bits : Nat}
    (h : lead? byte = some ⟨count, least, greatest, bits⟩) :
    0x80 ≤ least ∧ greatest ≤ 0xBF ∧
      ((count = 0 ∧ bits < 0x80 ∧ byte = bits) ∨
        (count = 1 ∧ 2 ≤ bits ∧ bits < 0x20 ∧ byte = bits + 0xC0) ∨
        (count = 2 ∧ bits < 0x10 ∧ byte = bits + 0xE0 ∧
          (bits = 0 → least = 0xA0) ∧ (bits = 0xD → greatest = 0x9F)) ∨
        (count = 3 ∧ bits ≤ 4 ∧ byte = bits + 0xF0 ∧
          (bits = 0 → least = 0x90) ∧ (bits = 4 → greatest = 0x8F))) := by
  revert h
  fun_cases lead? byte <;> intro h <;> cases h <;> omega

/-- Inside a sequence, continuation bytes are read up to the character they encode. -/
theorem decodeFrom_continuation
    {least greatest : Nat}
    (v count index first seen : Nat)
    (rest : List UInt8)
    (hleast : least ≤ v / 64 ^ count % 64 + 0x80)
    (hgreatest : v / 64 ^ count % 64 + 0x80 ≤ greatest) :
    ∃ later,
      decodeFrom index (.inside first seen (count + 1) least greatest (v / 64 ^ (count + 1)))
        (continuation v (count + 1) ++ rest) =
      (decodeFrom later .start rest).map (Char.ofNat v :: ·) := by
  induction count generalizing index seen least greatest with
  | zero =>
      have hbits := div_pow_succ v 0
      refine ⟨index + 1, ?_⟩
      simp only [continuation, List.cons_append, List.nil_append, decodeFrom, toNat_continuation]
      rw [if_pos ⟨hleast, hgreatest⟩, if_pos (by omega)]
      congr 2
      funext cs
      congr 2
      omega
  | succ count ih =>
      have hbits := div_pow_succ v (count + 1)
      have hlt : v / 64 ^ count % 64 < 64 := Nat.mod_lt _ (by decide)
      obtain ⟨later, hlater⟩ := ih (index + 1) (seen + 1) (Nat.le_add_left 0x80 _)
        (show v / 64 ^ count % 64 + 0x80 ≤ 0xBF by omega)
      refine ⟨later, ?_⟩
      rw [continuation, List.cons_append, decodeFrom, toNat_continuation, if_pos ⟨hleast, hgreatest⟩]
      dsimp only
      rw [if_neg (by omega), ← hlater]
      congr 2
      omega

/-- Inside a sequence, only a byte in the range is read. -/
theorem cons_of_decodeFrom_inside
    {index first seen owed least greatest bits : Nat}
    {bytes : List UInt8}
    {cs : List Char}
    (h : decodeFrom index (.inside first seen owed least greatest bits) bytes = .ok cs) :
    ∃ byte rest, bytes = byte :: rest ∧ least ≤ byte.toNat ∧ byte.toNat ≤ greatest ∧
      (if owed ≤ 1 then
        (decodeFrom (index + 1) .start rest).map (Char.ofNat (bits * 64 + byte.toNat % 64) :: ·)
      else
        decodeFrom (index + 1)
          (.inside first (seen + 1) (owed - 1) 0x80 0xBF (bits * 64 + byte.toNat % 64)) rest) =
        .ok cs := by
  cases bytes with
  | nil =>
      cases h
  | cons byte rest =>
      rw [decodeFrom] at h
      split at h
      · rename_i hrange
        exact ⟨byte, rest, rfl, hrange.1, hrange.2, h⟩
      · cases h

/-- Reading one character and then the rest. -/
theorem of_map_cons_eq_ok
    {c : Char}
    {r : Except Utf8Fault (List Char)}
    {cs : List Char}
    (h : r.map (c :: ·) = .ok cs) :
    ∃ cs', cs = c :: cs' ∧ r = .ok cs' := by
  cases r with
  | error fault =>
      cases h
  | ok cs' =>
      cases h
      exact ⟨cs', rfl, rfl⟩

/-- What is read inside a sequence is what continuation bytes encode. -/
theorem of_decodeFrom_inside
    {least greatest bits count index first seen : Nat}
    {bytes : List UInt8}
    {cs : List Char}
    (hleast : 0x80 ≤ least)
    (hgreatest : greatest ≤ 0xBF)
    (h : decodeFrom index (.inside first seen (count + 1) least greatest bits) bytes = .ok cs) :
    ∃ v rest cs' later, v / 64 ^ (count + 1) = bits ∧
      least ≤ v / 64 ^ count % 64 + 0x80 ∧ v / 64 ^ count % 64 + 0x80 ≤ greatest ∧
      bytes = continuation v (count + 1) ++ rest ∧ cs = Char.ofNat v :: cs' ∧
      decodeFrom later .start rest = .ok cs' := by
  induction count generalizing index seen least greatest bits bytes with
  | zero =>
      obtain ⟨byte, rest, rfl, hlow, hhigh, h⟩ := cons_of_decodeFrom_inside h
      rw [if_pos (by omega)] at h
      obtain ⟨cs', rfl, hrest⟩ := of_map_cons_eq_ok h
      have hbyte : (bits * 64 + byte.toNat % 64) % 64 + 0x80 = byte.toNat := by omega
      refine ⟨bits * 64 + byte.toNat % 64, rest, cs', index + 1, by omega, ?_, ?_, ?_, rfl, hrest⟩
      · rw [Nat.pow_zero, Nat.div_one, hbyte]
        exact hlow
      · rw [Nat.pow_zero, Nat.div_one, hbyte]
        exact hhigh
      · simp only [continuation, Nat.pow_zero, Nat.div_one, hbyte, UInt8.ofNat_toNat]
        rfl
  | succ count ih =>
      obtain ⟨byte, rest, rfl, hlow, hhigh, h⟩ := cons_of_decodeFrom_inside h
      rw [if_neg (by omega)] at h
      obtain ⟨v, rest, cs', later, hv, -, -, rfl, hcs, hlater⟩ :=
        ih (Nat.le_refl 0x80) (Nat.le_refl 0xBF) h
      have hbits := div_pow_succ v (count + 1)
      have hbyte : v / 64 ^ (count + 1) % 64 + 0x80 = byte.toNat := by omega
      refine ⟨v, rest, cs', later, by omega, by omega, by omega, ?_, hcs, hlater⟩
      have hstep : continuation v (count + 1 + 1) = byte :: continuation v (count + 1) := by
        rw [continuation, hbyte, UInt8.ofNat_toNat]
      rw [hstep, List.cons_append]

/-- The lead byte of a character, by the number of bytes that follow. -/
theorem leads_zero
    {v : Nat}
    (hv : v ≤ 0x7F) :
    Leads v 0 (UInt8.ofNat v) := by
  refine ⟨0x80, 0xBF, ?_, nofun⟩
  rw [UInt8.toNat_ofNat', Nat.mod_eq_of_lt (by omega), lead?, if_pos (by omega), Nat.pow_zero,
    Nat.div_one]

theorem leads_one
    {v : Nat}
    (hlow : 0x7F < v)
    (hhigh : v ≤ 0x7FF) :
    Leads v 1 (UInt8.ofNat (v / 64 % 0x20 + 0xC0)) := by
  refine ⟨0x80, 0xBF, ?_, ?_⟩
  · rw [UInt8.toNat_ofNat', Nat.mod_eq_of_lt (by omega), lead?, if_neg (by omega),
      if_neg (by omega), if_pos (by omega), Nat.pow_one, Nat.add_sub_cancel,
      Nat.mod_eq_of_lt (by omega)]
  · intro k hk
    cases hk
    omega

theorem leads_two
    {v : Nat}
    (hv : v.isValidChar)
    (hlow : 0x7FF < v)
    (hhigh : v ≤ 0xFFFF) :
    Leads v 2 (UInt8.ofNat (v / 4096 % 0x10 + 0xE0)) := by
  unfold Nat.isValidChar at hv
  refine ⟨if v < 0x1000 then 0xA0 else 0x80, if v / 0x1000 = 0xD then 0x9F else 0xBF, ?_, ?_⟩
  · rw [UInt8.toNat_ofNat', Nat.mod_eq_of_lt (by omega), lead?, if_neg (by omega),
      if_neg (by omega), if_neg (by omega)]
    grind
  · intro k hk
    cases hk
    constructor <;> split <;> omega

theorem leads_three
    {v : Nat}
    (hv : v.isValidChar)
    (hlow : 0xFFFF < v) :
    Leads v 3 (UInt8.ofNat (v / 262144 % 0x08 + 0xF0)) := by
  unfold Nat.isValidChar at hv
  refine ⟨if v < 0x40000 then 0x90 else 0x80, if 0x100000 ≤ v then 0x8F else 0xBF, ?_, ?_⟩
  · rw [UInt8.toNat_ofNat', Nat.mod_eq_of_lt (by omega), lead?, if_neg (by omega),
      if_neg (by omega), if_neg (by omega), if_neg (by omega), if_neg (by omega),
      if_neg (by omega)]
    grind
  · intro k hk
    cases hk
    constructor <;> split <;> omega

theorem toNat_val_ofNat
    {v : Nat}
    (hv : v.isValidChar) :
    (Char.ofNat v).val.toNat = v := by
  unfold Char.ofNat
  rw [dif_pos hv]
  rfl

/-- The encoding of a character has the lead byte that its number asks for. -/
theorem exists_leads
    {v : Nat}
    (hv : v.isValidChar) :
    ∃ first count, String.utf8EncodeChar (Char.ofNat v) = first :: continuation v count ∧
      Leads v count first := by
  unfold String.utf8EncodeChar
  simp only [toNat_val_ofNat hv]
  split
  · exact ⟨_, 0, rfl, leads_zero ‹_›⟩
  · split
    · exact ⟨_, 1, by simp [continuation], leads_one (by omega) ‹_›⟩
    · split
      · exact ⟨_, 2, by simp [continuation], leads_two hv (by omega) ‹_›⟩
      · exact ⟨_, 3, by simp [continuation], leads_three hv (by omega)⟩

/-- Overlong forms, surrogates and numbers beyond the last character have no lead byte. -/
theorem Leads.isValidChar
    {v count : Nat}
    {first : UInt8}
    (h : Leads v count first) :
    v.isValidChar := by
  obtain ⟨least, greatest, hlead, hrange⟩ := h
  unfold Nat.isValidChar
  obtain ⟨-, -, ⟨rfl, hbits, -⟩ | ⟨rfl, -, hbits, -⟩ | ⟨rfl, hbits, -, hleast, hgreatest⟩ |
    ⟨rfl, hbits, -, hleast, hgreatest⟩⟩ := of_lead?_eq_some hlead
  · omega
  · omega
  · have hsecond := hrange 1 rfl
    omega
  · have hsecond := hrange 2 rfl
    omega

/-- A lead byte whose promise is kept starts the encoding of a character. -/
theorem Leads.utf8EncodeChar
    {v count : Nat}
    {first : UInt8}
    (h : Leads v count first) :
    String.utf8EncodeChar (Char.ofNat v) = first :: continuation v count := by
  have hvalid := h.isValidChar
  obtain ⟨least, greatest, hlead, hrange⟩ := h
  have hfirst := UInt8.ofNat_toNat (x := first)
  unfold String.utf8EncodeChar
  simp only [toNat_val_ofNat hvalid]
  obtain ⟨-, -, ⟨rfl, hbits, hbyte⟩ | ⟨rfl, hlow, hhigh, hbyte⟩ | ⟨rfl, hbits, hbyte, hleast, -⟩ |
    ⟨rfl, hbits, hbyte, hleast, -⟩⟩ := of_lead?_eq_some hlead
  · rw [if_pos (by omega), ← hfirst, hbyte]
    simp [continuation]
  · rw [if_neg (by omega), if_pos (by omega), ← hfirst, hbyte, Nat.mod_eq_of_lt (by omega)]
    simp [continuation]
  · have hsecond := hrange 1 rfl
    rw [if_neg (by omega), if_neg (by omega), if_pos (by omega), ← hfirst, hbyte,
      Nat.mod_eq_of_lt (by omega)]
    simp [continuation]
  · have hsecond := hrange 2 rfl
    rw [if_neg (by omega), if_neg (by omega), if_neg (by omega), ← hfirst, hbyte,
      Nat.mod_eq_of_lt (by omega)]
    simp [continuation]

/-- An encoded character is read as that character. -/
theorem decodeFrom_utf8EncodeChar
    (c : Char)
    (index : Nat)
    (rest : List UInt8) :
    ∃ later, decodeFrom index .start (String.utf8EncodeChar c ++ rest) =
      (decodeFrom later .start rest).map (c :: ·) := by
  obtain ⟨first, count, hencode, least, greatest, hlead, hrange⟩ := exists_leads c.valid
  have hc : Char.ofNat c.val.toNat = c := Char.ofNat_toNat c
  rw [hc] at hencode
  rw [hencode, List.cons_append, decodeFrom, hlead]
  cases count with
  | zero =>
      refine ⟨index + 1, ?_⟩
      dsimp only
      rw [Nat.pow_zero, Nat.div_one, hc]
      rfl
  | succ count =>
      obtain ⟨hleast, hgreatest⟩ := hrange count rfl
      obtain ⟨later, hlater⟩ := decodeFrom_continuation c.val.toNat count (index + 1) index 1 rest
        hleast hgreatest
      refine ⟨later, ?_⟩
      rw [hc] at hlater
      exact hlater

/-- What is read from bytes begins with the character that the first of them encode. -/
theorem of_decodeFrom_cons
    {index : Nat}
    {first : UInt8}
    {rest : List UInt8}
    {cs : List Char}
    (h : decodeFrom index .start (first :: rest) = .ok cs) :
    ∃ c rest' cs' later, first :: rest = String.utf8EncodeChar c ++ rest' ∧ cs = c :: cs' ∧
      decodeFrom later .start rest' = .ok cs' := by
  rw [decodeFrom] at h
  split at h
  · cases h
  · rename_i least greatest bits hlead
    obtain ⟨cs', rfl, hrest⟩ := of_map_cons_eq_ok h
    have hleads : Leads bits 0 first := ⟨least, greatest, by rw [hlead]; simp, nofun⟩
    refine ⟨Char.ofNat bits, rest, cs', index + 1, ?_, rfl, hrest⟩
    rw [hleads.utf8EncodeChar]
    rfl
  · rename_i count least greatest bits hlead
    obtain ⟨hleast, hgreatest, -⟩ := of_lead?_eq_some hlead
    obtain ⟨v, rest', cs', later, rfl, hlow, hhigh, rfl, rfl, hrest⟩ :=
      of_decodeFrom_inside hleast hgreatest h
    have hleads : Leads v (count + 1) first := by
      refine ⟨least, greatest, hlead, ?_⟩
      intro k hk
      cases hk
      exact ⟨hlow, hhigh⟩
    refine ⟨Char.ofNat v, rest', cs', later, ?_, rfl, hrest⟩
    rw [hleads.utf8EncodeChar]
    rfl

/-- Bytes are read as characters exactly if they are the encodings of these, one after the other. -/
theorem decodeFrom_eq_ok_iff
    {index : Nat}
    {bytes : List UInt8}
    {cs : List Char} :
    decodeFrom index .start bytes = .ok cs ↔ bytes = cs.flatMap String.utf8EncodeChar := by
  constructor
  · intro h
    induction cs generalizing index bytes with
    | nil =>
        cases bytes with
        | nil =>
            rfl
        | cons first rest =>
            obtain ⟨c, rest', cs', later, -, hcs, -⟩ := of_decodeFrom_cons h
            cases hcs
    | cons c cs ih =>
        cases bytes with
        | nil =>
            cases h
        | cons first rest =>
            obtain ⟨c', rest', cs', later, hbytes, hcs, hrest⟩ := of_decodeFrom_cons h
            cases hcs
            rw [hbytes, List.flatMap_cons, ih hrest]
  · rintro rfl
    induction cs generalizing index with
    | nil =>
        rfl
    | cons c cs ih =>
        obtain ⟨later, hlater⟩ :=
          decodeFrom_utf8EncodeChar c index (cs.flatMap String.utf8EncodeChar)
        rw [List.flatMap_cons, hlater, ih]
        rfl

/-- Bytes are read as a text exactly if they are its encoding. -/
theorem ofBytes_eq_ok_iff
    {bytes : List UInt8}
    {s : String} :
    ofBytes bytes = .ok s ↔ bytes.toByteArray = s.toByteArray := by
  rw [← String.utf8Encode_toList, List.utf8Encode, List.toByteArray_inj, ← decodeFrom_eq_ok_iff,
    ofBytes]
  cases decodeFrom 0 .start bytes with
  | error fault =>
      exact ⟨nofun, nofun⟩
  | ok cs =>
      constructor
      · intro h
        cases h
        rw [String.toList_ofList]
      · intro h
        cases h
        exact congrArg Except.ok String.ofList_toList

/-- Bytes are refused exactly if they are not well-formed. -/
theorem ofBytes_eq_error_iff
    {bytes : List UInt8} :
    (∃ fault, ofBytes bytes = .error fault) ↔ ¬ bytes.toByteArray.IsValidUTF8 := by
  constructor
  · rintro ⟨fault, hfault⟩ hvalid
    have hok : ofBytes bytes = .ok ⟨bytes.toByteArray, hvalid⟩ := ofBytes_eq_ok_iff.mpr rfl
    rw [hfault] at hok
    cases hok
  · intro hinvalid
    cases hresult : ofBytes bytes with
    | error fault =>
        exact ⟨fault, rfl⟩
    | ok s =>
        rw [ofBytes_eq_ok_iff.mp hresult] at hinvalid
        exact absurd s.isValidUTF8 hinvalid

end Text
end Lox
