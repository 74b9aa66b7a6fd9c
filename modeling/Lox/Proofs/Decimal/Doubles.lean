import Lox.Decimal.Binary
import Mathlib.Algebra.Order.Ring.Int

/-!
# Doubles as bits

A double that is neither negative nor undefined is told by its bits, read as a number: the larger the
number, the larger the double, up to the bits of infinity.  On such doubles equality of values is
equality, and whatever is read from digits is such a double.
-/

namespace Lox
namespace Decimal

open Float.Model (UnpackedFloat Format)
open Float.Model.UnpackedFloat

/-- The bits of infinity. -/
def infinityBits : Nat := 0x7FF0000000000000

/-- A double is neither negative nor undefined. -/
def Unsigned (x : Float) : Prop :=
  x.toBits.toNat ≤ infinityBits

/-- A number has the sign of positive ones, and is no NaN. -/
def Positive : UnpackedFloat → Prop
  | .infinity s | .zero s | .finite s _ _ _ => s = .positive
  | .notANumber => False

/-- What bits stand for.  The exponent counts the gaps of `2 ^ 52` numbers between powers of two, so
that mantissa and exponent add up to the bits. -/
def Encodes (n : Nat) : UnpackedFloat → Prop
  | .infinity _ => n = infinityBits
  | .zero _ => n = 0
  | .finite _ m e _ => (n : Int) = (e + 1074) * 2 ^ 52 + m
  | .notANumber => False

theorem encodes_finite
    {n m : Nat}
    {s : Sign}
    {e : Int}
    {hm : 0 < m} :
    Encodes n (.finite s m e hm) ↔ (n : Int) = (e + 1074) * 2 ^ 52 + m :=
  Iff.rfl

section Fields

variable (w : UInt64)

theorem toNat_exponentField :
    (@unpackExponent .binary64 w.toBitVec).toNat = w.toNat / 2 ^ 52 % 2 ^ 11 := by
  change (w.toNat >>> 52) % 2 ^ 11 = _
  rw [Nat.shiftRight_eq_div_pow]

theorem toNat_mantissaField :
    (@unpackMantissa .binary64 w.toBitVec).toNat = w.toNat % 2 ^ 52 := by
  change (w.toNat >>> 0) % 2 ^ 52 = _
  rw [Nat.shiftRight_zero]

theorem toNat_signField :
    (@unpackSign .binary64 w.toBitVec).toNat = w.toNat / 2 ^ 63 % 2 := by
  change (w.toNat >>> 63) % 2 = _
  rw [Nat.shiftRight_eq_div_pow]

theorem toNat_withLeadingBit
    (v : BitVec 52) :
    (1#1 ++ v).toNat = 2 ^ 52 + v.toNat := by
  have hor := Nat.two_pow_add_eq_or_of_lt v.isLt 1
  rw [BitVec.toNat_append]
  simpa [Nat.shiftLeft_eq] using hor.symm

theorem bias_eq :
    (Format.binary64.exponentBias : Int) + Format.binary64.mantissaBitsWithoutImplicit = 1075 :=
  rfl

end Fields

/-- The bits of a double that is neither negative nor undefined stand for a positive number. -/
theorem encodes_unpack
    {w : UInt64}
    (h : w.toNat ≤ infinityBits) :
    Positive (unpack .binary64 w.toBitVec) ∧
      Encodes w.toNat (unpack .binary64 w.toBitVec) := by
  have hexponent := toNat_exponentField w
  have hmantissa := toNat_mantissaField w
  have hsign : Sign.ofBitVec (@unpackSign .binary64 w.toBitVec) = .positive := by
    have hzero : @unpackSign .binary64 w.toBitVec = 0#1 := by
      apply BitVec.eq_of_toNat_eq
      rw [toNat_signField]
      change w.toNat / 2 ^ 63 % 2 = 0
      unfold infinityBits at h
      omega
    rw [hzero]
    rfl
  unfold infinityBits at h
  unfold unpack
  dsimp only
  rw [hsign]
  by_cases hall : @unpackExponent .binary64 w.toBitVec = -1#11
  · rw [if_pos hall]
    have hfield := congrArg BitVec.toNat hall
    rw [hexponent] at hfield
    change w.toNat / 2 ^ 52 % 2 ^ 11 = 2047 at hfield
    have hrest : @unpackMantissa .binary64 w.toBitVec = 0#52 := by
      apply BitVec.eq_of_toNat_eq
      rw [hmantissa]
      change w.toNat % 2 ^ 52 = 0
      omega
    rw [if_pos hrest]
    refine ⟨rfl, ?_⟩
    change w.toNat = 0x7FF0000000000000
    omega
  · rw [if_neg hall]
    by_cases hnone : @unpackExponent .binary64 w.toBitVec = 0#11
    · rw [if_pos hnone]
      have hfield := congrArg BitVec.toNat hnone
      rw [hexponent] at hfield
      change w.toNat / 2 ^ 52 % 2 ^ 11 = 0 at hfield
      by_cases hrest : @unpackMantissa .binary64 w.toBitVec = 0#52
      · rw [dif_pos hrest]
        have hrest' := congrArg BitVec.toNat hrest
        rw [hmantissa] at hrest'
        change w.toNat % 2 ^ 52 = 0 at hrest'
        refine ⟨rfl, ?_⟩
        change w.toNat = 0
        omega
      · rw [dif_neg hrest]
        refine ⟨rfl, ?_⟩
        rw [encodes_finite, bias_eq, hexponent, hmantissa]
        omega
    · rw [if_neg hnone]
      refine ⟨rfl, ?_⟩
      rw [encodes_finite, bias_eq, hexponent, toNat_withLeadingBit, hmantissa]
      omega

section Packing

theorem toNat_packComponents
    (exponent : BitVec 11)
    (mantissa : BitVec 52) :
    (packComponents .binary64 .positive exponent mantissa).toNat =
      exponent.toNat * 2 ^ 52 + mantissa.toNat := by
  have hor := Nat.two_pow_add_eq_or_of_lt mantissa.isLt exponent.toNat
  change (0#1 ++ exponent ++ mantissa).toNat = _
  rw [BitVec.toNat_append, BitVec.toNat_append]
  simpa [Nat.shiftLeft_eq, Nat.mul_comm] using hor.symm

/-- Positive numbers are packed into the bits up to those of infinity. -/
theorem unsigned_pack
    {f : UnpackedFloat}
    (h : Positive f) :
    Unsigned (.ofModel (.pack f)) := by
  change (pack .binary64 f).toNat ≤ infinityBits
  unfold infinityBits
  cases f with
  | notANumber =>
      exact h.elim
  | infinity s =>
      cases h
      decide
  | zero s =>
      cases h
      decide
  | finite s m e hm =>
      cases h
      have hmantissa : (BitVec.ofNat 52 m).toNat < 2 ^ 52 := (BitVec.ofNat 52 m).isLt
      unfold pack
      dsimp only
      split
      · decide
      · rename_i hsmall
        change ¬ 2 ^ 11 ≤ _ + 1 at hsmall
        split
        · rw [toNat_packComponents, BitVec.toNat_ofNat]
          rw [Nat.mod_eq_of_lt (by omega)]
          omega
        · rw [toNat_packComponents]
          change 0 * 2 ^ 52 + _ ≤ _
          omega

end Packing

section Reading

theorem positive_dite
    {c : Prop}
    [Decidable c]
    {f : c → UnpackedFloat}
    {g : ¬c → UnpackedFloat}
    (hf : ∀ h, Positive (f h))
    (hg : ∀ h, Positive (g h)) :
    Positive (dite c f g) := by
  by_cases h : c
  · rw [dif_pos h]
    exact hf h
  · rw [dif_neg h]
    exact hg h

theorem positive_roundWithAccuracy
    (m : Nat)
    (e : Int)
    (accuracy : Accuracy) :
    Positive (roundWithAccuracy .binary64 .positive m e accuracy) :=
  positive_dite (fun _ => rfl) fun _ => rfl

theorem positive_ofNat
    (n : Nat) :
    Positive (ofNat .binary64 n) := by
  unfold ofNat ofInt UnpackedFloat.normalize
  split
  · rename_i hcompare
    rw [compare_lt_iff_lt] at hcompare
    omega
  · rfl
  · exact positive_roundWithAccuracy _ _ _

/-- Dividing a positive number by one that is neither zero nor infinite. -/
theorem positive_div
    {f : UnpackedFloat}
    (hf : Positive f)
    (m : Nat)
    (e : Int)
    (hm : 0 < m) :
    Positive (div .binary64 f (.finite .positive m e hm)) := by
  cases f with
  | notANumber =>
      exact hf.elim
  | infinity s =>
      cases hf
      rfl
  | zero s =>
      cases hf
      rfl
  | finite s m' e' hm' =>
      cases hf
      exact positive_roundWithAccuracy _ _ _

theorem positive_ofScientific
    (m : Nat)
    (e : Int) :
    Positive (ofScientific .binary64 m e) := by
  unfold ofScientific
  refine positive_dite (fun _ => rfl) fun hm => ?_
  refine iteInduction (fun _ => rfl) fun _ => ?_
  refine iteInduction (fun _ => rfl) fun _ => ?_
  refine iteInduction (fun _ => positive_roundWithAccuracy _ _ _) fun _ => ?_
  have hone : Positive (.finite .positive m 0 (Nat.pos_of_ne_zero hm)) := rfl
  exact positive_div hone _ _ _

/-- The powers of ten that are kept in a table are neither zero nor infinite. -/
theorem finite_powersOfTen :
    ∀ x ∈ Float.exactlyRepresentablePowersOfTen.toList,
      ∃ m e hm, x.toModel.unpack = .finite .positive m e hm := by
  have hall : ∀ x ∈ Float.exactlyRepresentablePowersOfTen.toList,
      Unsigned x ∧ 0 < x.toBits.toNat ∧ x.toBits.toNat < infinityBits := by
    unfold Unsigned
    decide +kernel
  intro x hx
  obtain ⟨hunsigned, hpos, hlt⟩ := hall x hx
  obtain ⟨hpositive, hencodes⟩ := encodes_unpack hunsigned
  change ∃ m e hm, unpack .binary64 x.toBits.toBitVec = .finite .positive m e hm
  cases hunpack : unpack .binary64 x.toBits.toBitVec with
  | notANumber =>
      rw [hunpack] at hencodes
      exact hencodes.elim
  | infinity s =>
      rw [hunpack] at hencodes
      exact absurd hencodes (Nat.ne_of_lt hlt)
  | zero s =>
      rw [hunpack] at hencodes
      exact absurd hencodes (Nat.ne_of_gt hpos)
  | finite s m e hm =>
      rw [hunpack] at hpositive
      cases hpositive
      exact ⟨m, e, hm, rfl⟩

/-- What digits with a decimal point denote is neither negative nor undefined. -/
theorem unsigned_ofScientific
    (digits places : Nat) :
    Unsigned (Float.ofScientific digits true places) := by
  unfold Float.ofScientific
  split
  · rename_i hexact
    -- the quotient of two doubles that are exact
    have hplaces : places < Float.exactlyRepresentablePowersOfTen.size := by
      simp only [Float.exactlyRepresentablePowersOfTen, List.size_toArray, List.length_cons,
        List.length_nil]
      omega
    obtain ⟨m, e, hm, hten⟩ := finite_powersOfTen _ (Array.getElem_mem_toList hplaces)
    have hdigits : Unsigned digits.toUInt64.toFloat := unsigned_pack (positive_ofNat _)
    dsimp only
    rw [if_pos rfl]
    refine unsigned_pack ?_
    rw [hten]
    exact positive_div (encodes_unpack hdigits).1 _ _ _
  · exact unsigned_pack (positive_ofScientific _ _)

end Reading

section Equality

theorem eq_of_toBits
    {x y : Float}
    (h : x.toBits.toNat = y.toBits.toNat) :
    x = y := by
  obtain ⟨⟨a, ha⟩⟩ := x
  obtain ⟨⟨b, hb⟩⟩ := y
  obtain rfl : a = b := UInt64.toNat_inj.mp h
  rfl

/-- Finite numbers are compared by their exponents first. -/
theorem compare_finite
    {m m' : Nat}
    {e e' : Int}
    (hm : 0 < m)
    (hm' : 0 < m') :
    (UnpackedFloat.finite .positive m e hm).compare (.finite .positive m' e' hm') =
      some ((compare e e').then (compare m m')) :=
  rfl

/-- Positive numbers of one value have the same bits. -/
theorem encodes_unique
    {f g : UnpackedFloat}
    {n k : Nat}
    (hf : Positive f)
    (hg : Positive g)
    (hn : Encodes n f)
    (hk : Encodes k g)
    (hcompare : f.compare g = some .eq) :
    n = k := by
  cases f with
  | notANumber =>
      exact hf.elim
  | infinity s =>
      cases hf
      cases g with
      | infinity s =>
          rw [hn, hk]
      | notANumber =>
          exact hg.elim
      | zero | finite =>
          cases hcompare
  | zero s =>
      cases hf
      cases g with
      | zero s =>
          rw [hn, hk]
      | notANumber =>
          exact hg.elim
      | infinity | finite =>
          cases hg
          cases hcompare
  | finite s m e hm =>
      cases hf
      cases g with
      | finite s m' e' hm' =>
          cases hg
          rw [compare_finite, Option.some.injEq, Ordering.then_eq_eq, Int.compare_eq_eq,
            Nat.compare_eq_eq] at hcompare
          obtain ⟨rfl, rfl⟩ := hcompare
          rw [encodes_finite] at hn hk
          omega
      | notANumber =>
          exact hg.elim
      | infinity | zero =>
          cases hg
          cases hcompare

theorem compare_self
    {f : UnpackedFloat}
    (hf : Positive f) :
    f.compare f = some .eq := by
  cases f with
  | notANumber =>
      exact hf.elim
  | infinity s | zero s =>
      cases hf
      rfl
  | finite s m e hm =>
      cases hf
      rw [compare_finite]
      simp

/-- Among doubles that are neither negative nor undefined, equal values are equal. -/
theorem beq_iff_eq_of_unsigned
    {x y : Float}
    (hx : Unsigned x)
    (hy : Unsigned y) :
    (x == y) = true ↔ x = y := by
  obtain ⟨hpositive, hencodes⟩ := encodes_unpack hx
  obtain ⟨hpositive', hencodes'⟩ := encodes_unpack hy
  have hbeq : (x == y) = (x.toModel.unpack.compare y.toModel.unpack == some .eq) := rfl
  rw [hbeq, beq_iff_eq]
  constructor
  · intro h
    exact eq_of_toBits (encodes_unique hpositive hpositive' hencodes hencodes' h)
  · rintro rfl
    exact compare_self hpositive

end Equality

end Decimal
end Lox
