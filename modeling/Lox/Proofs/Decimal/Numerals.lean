import Lox.Proofs.Decimal.Rounding
import Lox.Text.Json

/-!
# Numerals

The text of a finite number in a JSON document is a numeral: digits, perhaps a point and more digits,
perhaps an exponent.  A numeral can be read back, and what is read is the shortest decimal of the
number.  Since that decimal rounds to no other number, no two finite numbers have the same text.
-/

namespace Lox
namespace Decimal

/-- Digits before and behind the point, and the exponent, if one is written. -/
structure Numeral where
  whole : List Char
  fraction : List Char
  exponent : Option Int

namespace Numeral

/-- How an exponent is written. -/
def exponentChars : Option Int → List Char
  | none => []
  | some x => if x < 0 then 'e' :: '-' :: digitsOf (-x).toNat else 'e' :: '+' :: digitsOf x.toNat

/-- How a fraction is written. -/
def fractionChars : List Char → List Char
  | [] => []
  | fraction => '.' :: fraction

/-- How a numeral is written. -/
def chars (n : Numeral) : List Char :=
  n.whole ++ (fractionChars n.fraction ++ exponentChars n.exponent)

/-- The number that a numeral stands for. -/
def value (n : Numeral) : ℚ :=
  Nat.ofDigitChars 10 (n.whole ++ n.fraction) 0 * 10 ^ (n.exponent.getD 0 - n.fraction.length)

/-- The digits are digits, there are some before the point, and the numeral is not just digits. -/
structure WellFormed (n : Numeral) : Prop where
  starts : n.whole ≠ []
  whole : ∀ c ∈ n.whole, c.isDigit = true
  fraction : ∀ c ∈ n.fraction, c.isDigit = true
  marked : n.fraction ≠ [] ∨ n.exponent.isSome = true

theorem fractionChars_of_ne_nil
    {fraction : List Char}
    (h : fraction ≠ []) :
    fractionChars fraction = '.' :: fraction := by
  cases fraction with
  | nil =>
      exact absurd rfl h
  | cons d fraction =>
      rfl

/-- Reads what is written of an exponent. -/
def readExponent : List Char → Int
  | 'e' :: '+' :: digits => Nat.ofDigitChars 10 digits 0
  | 'e' :: '-' :: digits => -Nat.ofDigitChars 10 digits 0
  | _ => 0

/-- Reads a numeral. -/
def read (cs : List Char) : ℚ :=
  let whole := cs.takeWhile Char.isDigit
  let rest := cs.dropWhile Char.isDigit
  let fraction := (rest.drop 1).takeWhile Char.isDigit
  if rest.head? = some '.' then
    Nat.ofDigitChars 10 (whole ++ fraction) 0 *
      10 ^ (readExponent ((rest.drop 1).dropWhile Char.isDigit) - fraction.length)
  else Nat.ofDigitChars 10 whole 0 * 10 ^ readExponent rest

theorem readExponent_exponentChars
    (x : Option Int) :
    readExponent (exponentChars x) = x.getD 0 := by
  cases x with
  | none =>
      rfl
  | some x =>
      rw [exponentChars, Option.getD_some]
      rcases lt_or_ge x 0 with hx | hx
      · rw [if_pos hx, readExponent, digitsOf, Nat.ofDigitChars_ten_toDigits]
        omega
      · rw [if_neg (by omega), readExponent, digitsOf, Nat.ofDigitChars_ten_toDigits]
        omega

theorem head?_exponentChars
    (x : Option Int) :
    ∀ c ∈ (exponentChars x).head?, c = 'e' := by
  intro c hc
  cases x with
  | none =>
      cases hc
  | some x =>
      rw [exponentChars] at hc
      split at hc
      · exact (Option.mem_some_iff.mp hc).symm
      · exact (Option.mem_some_iff.mp hc).symm

/-- Digits end where the text goes on with something else. -/
theorem span_digits
    {digits rest : List Char}
    (hdigits : ∀ c ∈ digits, c.isDigit = true)
    (hrest : ∀ c ∈ rest.head?, c.isDigit = false) :
    (digits ++ rest).takeWhile Char.isDigit = digits ∧
      (digits ++ rest).dropWhile Char.isDigit = rest := by
  rw [List.takeWhile_append_of_pos hdigits, List.dropWhile_append_of_pos hdigits]
  cases rest with
  | nil =>
      simp
  | cons c rest =>
      simp [hrest c rfl]

/-- Numerals are read back. -/
theorem read_chars
    {n : Numeral}
    (h : n.WellFormed) :
    read n.chars = n.value := by
  obtain ⟨whole, fraction, exponent⟩ := n
  obtain ⟨hstarts, hwhole, hfraction, hmarked⟩ := h
  have hexponent : ∀ c ∈ (exponentChars exponent).head?, c.isDigit = false := by
    intro c hc
    rw [head?_exponentChars exponent c hc]
    rfl
  unfold read chars value
  dsimp only at *
  cases fraction with
  | nil =>
      obtain ⟨htake, hdrop⟩ := span_digits hwhole hexponent
      rw [fractionChars, List.nil_append, htake, hdrop, if_neg, readExponent_exponentChars,
        List.append_nil]
      · simp
      · intro hpoint
        cases head?_exponentChars exponent _ hpoint
  | cons d fraction =>
      have hpoint : ∀ c ∈ (fractionChars (d :: fraction) ++ exponentChars exponent).head?,
          c.isDigit = false := by
        intro c hc
        cases hc
        rfl
      obtain ⟨htake, hdrop⟩ := span_digits hwhole hpoint
      obtain ⟨htake', hdrop'⟩ := span_digits hfraction hexponent
      rw [htake, hdrop, fractionChars, List.cons_append, List.head?_cons, if_pos rfl,
        List.drop_one, List.tail_cons, htake', hdrop', readExponent_exponentChars]
      simp

/-- A text is a numeral for a decimal. -/
def Writes (cs : List Char) (d : Scaled) : Prop :=
  ∃ n : Numeral, n.WellFormed ∧ cs = n.chars ∧ n.value = d.digits * 10 ^ d.exponent

section Forms

variable (d : Scaled)

theorem isDigit_of_mem_digitsOf
    {n : Nat} :
    ∀ c ∈ digitsOf n, c.isDigit = true :=
  fun _ hc => Nat.isDigit_of_mem_toDigits (by decide) (by decide) hc

theorem digitsOf_ne_nil
    {n : Nat} :
    digitsOf n ≠ [] :=
  Nat.toDigits_ne_nil

theorem ofDigitChars_digitsOf
    {n : Nat} :
    Nat.ofDigitChars 10 (digitsOf n) 0 = n :=
  Nat.ofDigitChars_ten_toDigits

theorem isDigit_of_mem_zeros
    {n : Nat} :
    ∀ c ∈ List.replicate n '0', c.isDigit = true := by
  intro c hc
  rw [List.eq_of_mem_replicate hc]
  rfl

/-- Whole numbers are padded with zeros and marked by `.0`. -/
theorem writes_padded
    (hexponent : 0 ≤ d.exponent) :
    Writes (positionalText (digitsOf d.digits) d.exponent ++ ['.', '0']) d := by
  refine ⟨⟨digitsOf d.digits ++ List.replicate d.exponent.toNat '0', ['0'], none⟩, ?_, ?_, ?_⟩
  · refine ⟨?_, ?_, ?_, ?_⟩
    · simp [digitsOf_ne_nil]
    · exact List.forall_mem_append.mpr ⟨isDigit_of_mem_digitsOf, isDigit_of_mem_zeros⟩
    · simp
    · simp
  · simp [positionalText, hexponent, chars, fractionChars, exponentChars]
  · have hdigits : Nat.ofDigitChars 10 (digitsOf d.digits ++
        List.replicate d.exponent.toNat '0' ++ ['0']) 0 = 10 * (10 ^ d.exponent.toNat * d.digits) := by
      rw [Nat.ofDigitChars_append, Nat.ofDigitChars_append, ofDigitChars_digitsOf,
        Nat.ofDigitChars_replicate_zero, Nat.ofDigitChars_cons, Nat.ofDigitChars_nil]
      rfl
    have hpower : (10 : ℚ) ^ d.exponent = 10 ^ d.exponent.toNat := by
      rw [← zpow_natCast, Int.toNat_of_nonneg hexponent]
    simp only [value, hdigits, hpower]
    push_cast
    norm_num
    ring

/-- Other numbers have a point among their digits, or zeros behind a point in front of them. -/
theorem writes_pointed
    (hexponent : d.exponent < 0) :
    Writes (positionalText (digitsOf d.digits) d.exponent) d := by
  have hlength : 0 < (digitsOf d.digits).length := List.length_pos_iff.mpr digitsOf_ne_nil
  have hdigit : ∀ c ∈ digitsOf d.digits, c.isDigit = true := isDigit_of_mem_digitsOf
  unfold positionalText
  dsimp only
  rw [if_neg (by omega)]
  generalize hpoint : ((digitsOf d.digits).length : Int) + d.exponent = point
  split
  · have hdrop : ((digitsOf d.digits).drop point.toNat).length = (-d.exponent).toNat := by
      rw [List.length_drop]
      omega
    have hnonempty : (digitsOf d.digits).drop point.toNat ≠ [] := by
      rw [← List.length_pos_iff]
      omega
    refine ⟨⟨(digitsOf d.digits).take point.toNat, (digitsOf d.digits).drop point.toNat, none⟩,
      ⟨?_, ?_, ?_, ?_⟩, ?_, ?_⟩
    · rw [← List.length_pos_iff, List.length_take]
      omega
    · exact fun c hc => hdigit c (List.mem_of_mem_take hc)
    · exact fun c hc => hdigit c (List.mem_of_mem_drop hc)
    · exact .inl hnonempty
    · simp [chars, fractionChars_of_ne_nil hnonempty, exponentChars]
    · rw [value, List.take_append_drop, ofDigitChars_digitsOf, hdrop, Option.getD_none]
      congr 2
      omega
  · refine ⟨⟨['0'], List.replicate (-point).toNat '0' ++ digitsOf d.digits, none⟩,
      ⟨?_, ?_, ?_, ?_⟩, ?_, ?_⟩
    · simp
    · simp
    · exact List.forall_mem_append.mpr ⟨isDigit_of_mem_zeros, isDigit_of_mem_digitsOf⟩
    · exact .inl (List.append_ne_nil_of_right_ne_nil _ digitsOf_ne_nil)
    · rw [chars, fractionChars_of_ne_nil
        (List.append_ne_nil_of_right_ne_nil _ digitsOf_ne_nil)]
      simp [exponentChars]
    · have hdigits : Nat.ofDigitChars 10 (['0'] ++ (List.replicate (-point).toNat '0' ++
          digitsOf d.digits)) 0 = d.digits := by
        rw [Nat.ofDigitChars_append, Nat.ofDigitChars_append, Nat.ofDigitChars_cons,
          Nat.ofDigitChars_nil, Nat.ofDigitChars_replicate_zero]
        exact ofDigitChars_digitsOf
      rw [value, hdigits, List.length_append, List.length_replicate, Option.getD_none]
      congr 2
      omega

theorem toList_exponentText
    (x : Int) :
    (Text.Json.numberLayout.exponentText x).toList = exponentChars (some x) := by
  rw [Layout.exponentText, exponentChars]
  rcases lt_or_ge x 0 with hx | hx
  · rw [if_pos hx, if_pos hx]
    simp [Text.Json.numberLayout]
  · rw [if_neg (by omega), if_neg (by omega)]
    simp [Text.Json.numberLayout]

/-- A number with an exponent has one digit before the point. -/
theorem writes_scientific :
    Writes ((Text.Json.numberLayout.mantissaText (digitsOf d.digits)).toList ++
      (Text.Json.numberLayout.exponentText
        ((digitsOf d.digits).length + d.exponent - 1)).toList) d := by
  have hdigit : ∀ c ∈ digitsOf d.digits, c.isDigit = true := isDigit_of_mem_digitsOf
  have hvalue : Nat.ofDigitChars 10 (digitsOf d.digits) 0 = d.digits := ofDigitChars_digitsOf
  cases hdigits : digitsOf d.digits with
  | nil =>
      exact absurd hdigits digitsOf_ne_nil
  | cons c rest =>
      rw [hdigits] at hdigit hvalue
      rw [List.forall_mem_cons] at hdigit
      refine ⟨⟨[c], rest, some ((c :: rest).length + d.exponent - 1)⟩, ⟨?_, ?_, ?_, ?_⟩, ?_, ?_⟩
      · simp
      · simp [hdigit.1]
      · exact hdigit.2
      · simp
      · rw [toList_exponentText]
        cases rest with
        | nil =>
            simp [Layout.mantissaText, Text.Json.numberLayout, chars, fractionChars]
        | cons c' rest =>
            simp [Layout.mantissaText, chars, fractionChars]
      · rw [value, List.singleton_append, hvalue, Option.getD_some]
        congr 2
        dsimp only
        rw [List.length_cons]
        omega

/-- The text of a finite magnitude is a numeral for its shortest decimal. -/
theorem writes_finiteText
    (b : Binary) :
    Writes (Text.Json.numberLayout.finiteText b).toList (shortest .even b) := by
  have htie : Text.Json.numberLayout.tie = .even := rfl
  unfold Layout.finiteText
  dsimp only
  rw [htie]
  split
  · split
    · rename_i hexponent
      have hpadded := writes_padded (shortest .even b) hexponent
      simpa [Text.Json.numberLayout] using hpadded
    · rename_i hexponent
      rw [String.toList_ofList]
      exact writes_pointed _ (by omega)
  · rw [String.toList_append]
    exact writes_scientific _

end Forms

section Shape

variable {n : Numeral}

/-- The characters that numerals are written with. -/
def isNumeralChar (c : Char) : Bool :=
  c.isDigit || c = '.' || c = 'e' || c = '+' || c = '-'

theorem isNumeralChar_of_isDigit
    {c : Char}
    (h : c.isDigit = true) :
    isNumeralChar c = true := by
  simp [isNumeralChar, h]

theorem isNumeralChar_of_mem_exponentChars
    (x : Option Int) :
    ∀ c ∈ exponentChars x, isNumeralChar c = true := by
  have hdigits : ∀ k, ∀ c ∈ digitsOf k, isNumeralChar c = true :=
    fun _ c hc => isNumeralChar_of_isDigit (isDigit_of_mem_digitsOf c hc)
  cases x with
  | none =>
      simp [exponentChars]
  | some x =>
      rw [exponentChars]
      split
      · exact List.forall_mem_cons.mpr ⟨rfl, List.forall_mem_cons.mpr ⟨rfl, hdigits _⟩⟩
      · exact List.forall_mem_cons.mpr ⟨rfl, List.forall_mem_cons.mpr ⟨rfl, hdigits _⟩⟩

theorem isNumeralChar_of_mem_chars
    (h : n.WellFormed) :
    ∀ c ∈ n.chars, isNumeralChar c = true := by
  have hfraction : ∀ c ∈ fractionChars n.fraction, isNumeralChar c = true := by
    intro c hc
    cases hdigits : n.fraction with
    | nil =>
        rw [hdigits] at hc
        cases hc
    | cons d fraction =>
        rw [hdigits] at hc
        rcases List.mem_cons.mp hc with rfl | hc
        · rfl
        · exact isNumeralChar_of_isDigit (h.fraction c (hdigits ▸ hc))
  refine List.forall_mem_append.mpr ⟨?_, List.forall_mem_append.mpr ⟨hfraction, ?_⟩⟩
  · exact fun c hc => isNumeralChar_of_isDigit (h.whole c hc)
  · exact isNumeralChar_of_mem_exponentChars n.exponent

theorem head?_chars
    (h : n.WellFormed) :
    ∃ c ∈ n.chars.head?, c.isDigit = true := by
  obtain ⟨c, whole, hwhole⟩ := List.exists_cons_of_ne_nil h.starts
  refine ⟨c, ?_, h.whole c (hwhole ▸ List.mem_cons_self)⟩
  rw [chars, hwhole]
  rfl

/-- A numeral is not just digits. -/
theorem exists_mark
    (h : n.WellFormed) :
    ∃ c ∈ n.chars, c.isDigit = false := by
  rcases h.marked with hfraction | hexponent
  · refine ⟨'.', ?_, rfl⟩
    rw [chars, fractionChars_of_ne_nil hfraction]
    simp
  · obtain ⟨x, hx⟩ := Option.isSome_iff_exists.mp hexponent
    refine ⟨'e', ?_, rfl⟩
    refine List.mem_append_right _ (List.mem_append_right _ ?_)
    rw [hx, exponentChars]
    split
    · exact List.mem_cons_self
    · exact List.mem_cons_self

end Shape

end Numeral

/-- No two finite magnitudes of doubles have the same text. -/
theorem finiteText_injective
    {b b' : Binary}
    (hb : b.Canonical)
    (hb' : b'.Canonical)
    (h : Text.Json.numberLayout.finiteText b = Text.Json.numberLayout.finiteText b') :
    b = b' := by
  obtain ⟨n, hn, hchars, hvalue⟩ := Numeral.writes_finiteText b
  obtain ⟨n', hn', hchars', hvalue'⟩ := Numeral.writes_finiteText b'
  have hsame : n.value = n'.value := by
    rw [← Numeral.read_chars hn, ← Numeral.read_chars hn', ← hchars, ← hchars', h]
  have hrounds := rounds_shortest hb .even
  have hrounds' := rounds_shortest hb' .even
  rw [← hvalue, hsame] at hrounds
  rw [← hvalue'] at hrounds'
  exact hrounds.unique hb hb' hrounds'

end Decimal
end Lox
