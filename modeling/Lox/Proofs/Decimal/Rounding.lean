import Lox.Decimal.Shortest
import Lox.Proofs.Decimal.Doubles
import Mathlib.Algebra.Order.Field.Power
import Mathlib.Tactic.FieldSimp
import Mathlib.Tactic.Linarith
import Mathlib.Tactic.Ring

/-!
# Rounding intervals

Every finite double stands for an interval of rationals that round to it.  The intervals of two
doubles have no point in common, and the shortest decimal of a double lies in its interval: the
search for it goes on to grids that are finer than the interval is wide.
-/

namespace Lox
namespace Decimal

namespace Binary

/-- The magnitudes that doubles have: all places are used, except at the least exponent. -/
structure Canonical (b : Binary) : Prop where
  mantissa : b.mantissa < 2 ^ 53
  least : -1074 ≤ b.exponent
  greatest : b.exponent ≤ 971
  full : 2 ^ 52 ≤ b.mantissa ∨ b.exponent = -1074

/-- A quarter of the last binary place. -/
def quarter (b : Binary) : ℚ :=
  2 ^ (b.exponent - 2)

/-- A rational rounds to a magnitude: it lies in the rounding interval. -/
def Rounds (b : Binary) (x : ℚ) : Prop :=
  if b.endsIncluded then b.lower * b.quarter ≤ x ∧ x ≤ b.upper * b.quarter
  else b.lower * b.quarter < x ∧ x < b.upper * b.quarter

variable {b b' : Binary}
variable {x : ℚ}

theorem quarter_pos
    (b : Binary) :
    0 < b.quarter :=
  zpow_pos (by norm_num) _

theorem Rounds.le
    (h : b.Rounds x) :
    b.lower * b.quarter ≤ x ∧ x ≤ b.upper * b.quarter := by
  unfold Rounds at h
  split at h
  · exact h
  · exact ⟨h.1.le, h.2.le⟩

theorem Rounds.lt
    (h : b.Rounds x)
    (hodd : b.mantissa % 2 = 1) :
    b.lower * b.quarter < x ∧ x < b.upper * b.quarter := by
  unfold Rounds endsIncluded at h
  rw [if_neg (by simp [hodd])] at h
  exact h

/-- An interval ends before another one starts; or if they meet, one of the mantissas is odd, so that
the point belongs to at most one of the two. -/
def Before (b b' : Binary) : Prop :=
  b.upper * b.quarter < b'.lower * b'.quarter ∨
    b.upper * b.quarter = b'.lower * b'.quarter ∧ (b.mantissa % 2 = 1 ∨ b'.mantissa % 2 = 1)

theorem Before.not_rounds
    (hbefore : b.Before b')
    (h : b.Rounds x) :
    ¬ b'.Rounds x := by
  intro h'
  rcases hbefore with hlt | ⟨heq, hodd | hodd⟩
  · linarith [h.le.2, h'.le.1]
  · linarith [(h.lt hodd).2, h'.le.1]
  · linarith [h.le.2, (h'.lt hodd).1]

/-- Two mantissas with one exponent. -/
theorem before_of_lt_mantissa
    (hb : b.Canonical)
    (hexponent : b.exponent = b'.exponent)
    (hmantissa : b.mantissa < b'.mantissa) :
    b.Before b' := by
  have hquarter : b'.quarter = b.quarter := by
    rw [quarter, quarter, hexponent]
  have hlower : b'.lower = 4 * b'.mantissa - 2 := by
    unfold lower leadingBit
    rw [if_neg]
    rintro ⟨hleading, hleast⟩
    have hfull := hb.full
    omega
  have hpos := b.quarter_pos
  rw [Before, hquarter, hlower, upper]
  rcases Nat.lt_or_ge (b.mantissa + 1) b'.mantissa with hfar | hnext
  · refine .inl ?_
    have hnat : 4 * b.mantissa + 2 < 4 * b'.mantissa - 2 := by omega
    have hcast : ((4 * b.mantissa + 2 : ℕ) : ℚ) < ((4 * b'.mantissa - 2 : ℕ) : ℚ) := by
      exact_mod_cast hnat
    exact mul_lt_mul_of_pos_right hcast hpos
  · refine .inr ⟨?_, by omega⟩
    have hnat : 4 * b.mantissa + 2 = 4 * b'.mantissa - 2 := by omega
    rw [hnat]

/-- Two exponents: the mantissa of the greater one is full. -/
theorem before_of_lt_exponent
    (hb : b.Canonical)
    (hb' : b'.Canonical)
    (hexponent : b.exponent < b'.exponent) :
    b.Before b' := by
  have hpos := b.quarter_pos
  have hleast := hb.least
  have hfull : 2 ^ 52 ≤ b'.mantissa := by
    have hfull := hb'.full
    omega
  have hlower : 2 ^ 54 - 1 ≤ b'.lower := by
    unfold lower leadingBit
    split <;> omega
  have hquarter : 2 * b.quarter ≤ b'.quarter := by
    have hstep : (2 : ℚ) * 2 ^ (b.exponent - 2) = 2 ^ (b.exponent - 2 + 1) := by
      rw [zpow_add₀ (by norm_num), zpow_one, mul_comm]
    rw [quarter, quarter, hstep]
    exact zpow_le_zpow_right₀ (by norm_num) (by omega)
  have hstart : ((2 ^ 54 - 1 : ℕ) : ℚ) * (2 * b.quarter) ≤ b'.lower * b'.quarter := by
    have hcast : ((2 ^ 54 - 1 : ℕ) : ℚ) ≤ b'.lower := by exact_mod_cast hlower
    exact mul_le_mul hcast hquarter (by positivity) (by positivity)
  have hmantissa := hb.mantissa
  rcases Nat.lt_or_ge (b.mantissa + 1) (2 ^ 53) with hsmall | hlast
  · refine .inl ?_
    have hnat : b.upper < 2 ^ 55 - 2 := by
      unfold upper
      omega
    have hcast : (b.upper : ℚ) < 2 ^ 55 - 2 := by
      have : (b.upper : ℚ) < ((2 ^ 55 - 2 : ℕ) : ℚ) := by exact_mod_cast hnat
      norm_num at this ⊢
      exact this
    have hlt := mul_lt_mul_of_pos_right hcast hpos
    norm_num at hstart hlt ⊢
    linarith
  · have hnat : b.upper = 2 ^ 55 - 2 := by
      unfold upper
      omega
    have hend : (b.upper : ℚ) * b.quarter ≤ b'.lower * b'.quarter := by
      rw [hnat]
      norm_num at hstart ⊢
      linarith
    rcases hend.lt_or_eq with hlt | heq
    · exact .inl hlt
    · exact .inr ⟨heq, .inl (by omega)⟩

/-- No rational rounds to two magnitudes. -/
theorem Rounds.unique
    (hb : b.Canonical)
    (hb' : b'.Canonical)
    (h : b.Rounds x)
    (h' : b'.Rounds x) :
    b = b' := by
  rcases lt_trichotomy b.exponent b'.exponent with hlt | heq | hgt
  · exact absurd h' ((before_of_lt_exponent hb hb' hlt).not_rounds h)
  · rcases lt_trichotomy b.mantissa b'.mantissa with hlt | hmantissa | hgt
    · exact absurd h' ((before_of_lt_mantissa hb heq hlt).not_rounds h)
    · obtain ⟨m, e⟩ := b
      obtain ⟨m', e'⟩ := b'
      exact Binary.mk.injEq _ _ _ _ ▸ ⟨hmantissa, heq⟩
    · exact absurd h ((before_of_lt_mantissa hb' heq.symm hgt).not_rounds h')
  · exact absurd h ((before_of_lt_exponent hb' hb hgt).not_rounds h')

end Binary

section Grids

variable (b : Binary)
variable (g : Int)

theorem gridDenominator_pos : 0 < gridDenominator b g :=
  Nat.mul_pos (Nat.pow_pos (by decide)) (Nat.pow_pos (by decide))

theorem gridNumerator_pos : 0 < gridNumerator b g :=
  Nat.mul_pos (Nat.pow_pos (by decide)) (Nat.pow_pos (by decide))

theorem zpow_eq_div
    (base : ℕ)
    (hbase : 0 < base)
    (n : ℤ) :
    (base : ℚ) ^ n = (base ^ n.toNat : ℕ) / (base ^ (-n).toNat : ℕ) := by
  have hne : (base : ℚ) ≠ 0 := by
    exact_mod_cast hbase.ne'
  rcases le_total 0 n with hn | hn
  · lift n to ℕ using hn
    simp
  · obtain ⟨k, rfl⟩ : ∃ k : ℕ, n = -k := ⟨n.natAbs, by omega⟩
    simp

/-- Numerator and denominator of a grid are as a quarter of the last binary place to a step. -/
theorem exists_grid_scale :
    ∃ c : ℚ, 0 < c ∧ (gridNumerator b g : ℚ) = b.quarter * c ∧
      (gridDenominator b g : ℚ) = 10 ^ g * c := by
  have htwo : b.quarter = _ := zpow_eq_div 2 (by decide) (b.exponent - 2)
  have hten : (10 : ℚ) ^ g = _ := zpow_eq_div 10 (by decide) g
  have hneg : -(b.exponent - 2) = 2 - b.exponent := by ring
  rw [hneg] at htwo
  have hnumerator : (gridNumerator b g : ℚ) =
      (2 ^ (b.exponent - 2).toNat : ℕ) * (10 ^ (-g).toNat : ℕ) := by
    exact_mod_cast rfl
  have hdenominator : (gridDenominator b g : ℚ) =
      (2 ^ (2 - b.exponent).toNat : ℕ) * (10 ^ g.toNat : ℕ) := by
    exact_mod_cast rfl
  have hpow : ((2 ^ (2 - b.exponent).toNat : ℕ) : ℚ) ≠ 0 := by positivity
  have hpow' : ((10 ^ (-g).toNat : ℕ) : ℚ) ≠ 0 := by positivity
  refine ⟨(2 ^ (2 - b.exponent).toNat : ℕ) * (10 ^ (-g).toNat : ℕ), by positivity, ?_, ?_⟩
  · rw [hnumerator, htwo]
    field_simp
  · rw [hdenominator, hten]
    field_simp

/-- Multiples of quarters are compared with points of the grid. -/
theorem grid_le_iff
    (n k : ℕ) :
    (n * gridNumerator b g ≤ k * gridDenominator b g ↔ n * b.quarter ≤ k * (10 : ℚ) ^ g) ∧
      (k * gridDenominator b g ≤ n * gridNumerator b g ↔ k * (10 : ℚ) ^ g ≤ n * b.quarter) := by
  obtain ⟨c, hc, hnumerator, hdenominator⟩ := exists_grid_scale b g
  have hleft : ((n * gridNumerator b g : ℕ) : ℚ) = n * b.quarter * c := by
    rw [Nat.cast_mul, hnumerator, mul_assoc]
  have hright : ((k * gridDenominator b g : ℕ) : ℚ) = k * 10 ^ g * c := by
    rw [Nat.cast_mul, hdenominator, mul_assoc]
  constructor
  · rw [← @Nat.cast_le ℚ, hleft, hright, mul_le_mul_iff_of_pos_right hc]
  · rw [← @Nat.cast_le ℚ, hleft, hright, mul_le_mul_iff_of_pos_right hc]

/-- A point of a grid is a hit if and only if it rounds to the magnitude. -/
theorem holds_iff
    (k : ℕ) :
    b.holds g k = true ↔ b.Rounds (k * 10 ^ g) := by
  unfold Binary.holds Binary.Rounds
  dsimp only
  split
  · simp only [decide_eq_true_eq, (grid_le_iff b g _ _).1, (grid_le_iff b g _ _).2]
  · simp only [decide_eq_true_eq, ← not_le, (grid_le_iff b g _ _).1, (grid_le_iff b g _ _).2]

end Grids

section Search

variable {b : Binary}
variable {g : Int}
variable {tie : Tie}

/-- What is nearest on a grid rounds to the magnitude. -/
theorem holds_of_nearest?
    {k : ℕ}
    (h : nearest? tie b g = some k) :
    b.holds g k = true := by
  unfold nearest? at h
  dsimp only at h
  split at h
  · rename_i hbelow
    split at h
    · rename_i habove
      split at h
      · cases h
        exact hbelow
      · split at h
        · cases h
          exact habove
        · split at h
          · cases h
            exact habove
          · cases h
            exact hbelow
    · cases h
      exact hbelow
  · split at h
    · rename_i habove
      cases h
      exact habove
    · cases h

/-- On a grid that is at least as fine as the quarters there is a hit. -/
theorem nearest?_ne_none
    (hmantissa : 0 < b.mantissa)
    (hfine : gridDenominator b g ≤ gridNumerator b g) :
    nearest? tie b g ≠ none := by
  have hunit := gridDenominator_pos b g
  have hnumerator := gridNumerator_pos b g
  -- the neighbour below is less than a quarter away
  have hholds : b.holds g (4 * b.mantissa * gridNumerator b g / gridDenominator b g) = true := by
    have hdiv := Nat.div_add_mod (4 * b.mantissa * gridNumerator b g) (gridDenominator b g)
    have hmod := Nat.mod_lt (4 * b.mantissa * gridNumerator b g) hunit
    set k := 4 * b.mantissa * gridNumerator b g / gridDenominator b g
    have hlower : b.lower * gridNumerator b g + gridNumerator b g ≤
        4 * b.mantissa * gridNumerator b g := by
      rw [← Nat.succ_mul]
      refine Nat.mul_le_mul_right _ ?_
      unfold Binary.lower
      split <;> omega
    have hupper : 4 * b.mantissa * gridNumerator b g + gridNumerator b g ≤
        b.upper * gridNumerator b g := by
      rw [← Nat.succ_mul]
      refine Nat.mul_le_mul_right _ ?_
      unfold Binary.upper
      omega
    have hpoint : k * gridDenominator b g = gridDenominator b g * k := Nat.mul_comm _ _
    have hinside : b.lower * gridNumerator b g < k * gridDenominator b g ∧
        k * gridDenominator b g < b.upper * gridNumerator b g := by
      omega
    unfold Binary.holds
    dsimp only
    split
    · simp only [decide_eq_true_eq]
      exact ⟨hinside.1.le, hinside.2.le⟩
    · simp only [decide_eq_true_eq]
      exact hinside
  unfold nearest?
  dsimp only
  rw [if_pos hholds]
  split
  · split
    · simp
    · split
      · simp
      · split <;> simp
  · simp

/-- If one of the grids is fine enough, the search ends with a hit. -/
theorem holds_searchGrids
    (hmantissa : 0 < b.mantissa)
    {count : ℕ}
    (hfine : ∃ i < count, gridDenominator b (g - i) ≤ gridNumerator b (g - i)) :
    b.holds (searchGrids tie b count g).exponent (searchGrids tie b count g).digits = true := by
  induction count generalizing g with
  | zero =>
      obtain ⟨i, hi, -⟩ := hfine
      omega
  | succ count ih =>
      rw [searchGrids]
      split
      · rename_i k hnearest
        exact holds_of_nearest? hnearest
      · rename_i hnearest
        refine ih ?_
        obtain ⟨i, hi, hfine⟩ := hfine
        cases i with
        | zero =>
            rw [Nat.cast_zero, Int.sub_zero] at hfine
            exact absurd hnearest (nearest?_ne_none hmantissa hfine)
        | succ i =>
            refine ⟨i, by omega, ?_⟩
            have hstep : g - 1 - (i : Int) = g - ((i + 1 : ℕ) : Int) := by
              push_cast
              ring
            rw [hstep]
            exact hfine

/-- Ten is a little more than `2 ^ 3.32`. -/
theorem ten_zpow_le_two_zpow
    {e : Int}
    (hpositive : 94 * g ≤ 28 * e)
    (hnegative : 93 * g ≤ 28 * e) :
    (10 : ℚ) ^ g ≤ 2 ^ e := by
  have hroot : ((10 : ℚ) ^ g) ^ 28 ≤ (2 ^ e) ^ 28 := by
    have hten : ((10 : ℚ) ^ g) ^ 28 = (10 ^ 28) ^ g := by
      rw [← zpow_natCast, ← zpow_natCast, ← zpow_mul, ← zpow_mul, mul_comm]
    have htwo : ((2 : ℚ) ^ e) ^ 28 = 2 ^ (28 * e) := by
      rw [← zpow_natCast, ← zpow_mul, mul_comm]
      rfl
    rw [hten, htwo]
    rcases le_total 0 g with hg | hg
    · calc ((10 : ℚ) ^ 28) ^ g
          ≤ (2 ^ 94) ^ g := zpow_le_zpow_left₀ hg (by norm_num) (by norm_num)
        _ = 2 ^ (94 * g) := by
            rw [← zpow_natCast, ← zpow_mul]
            rfl
        _ ≤ 2 ^ (28 * e) := zpow_le_zpow_right₀ (by norm_num) hpositive
    · calc ((10 : ℚ) ^ 28) ^ g
          = ((10 ^ 28)⁻¹) ^ (-g) := by rw [inv_zpow', neg_neg]
        _ ≤ ((2 ^ 93)⁻¹) ^ (-g) :=
            zpow_le_zpow_left₀ (by omega) (by norm_num) (by norm_num)
        _ = (2 ^ 93) ^ g := by rw [inv_zpow', neg_neg]
        _ = 2 ^ (93 * g) := by
            rw [← zpow_natCast, ← zpow_mul]
            rfl
        _ ≤ 2 ^ (28 * e) := zpow_le_zpow_right₀ (by norm_num) hnegative
  exact le_of_pow_le_pow_left₀ (by norm_num) (by positivity) hroot

/-- The last grid that is tried is finer than the quarters. -/
theorem fine_last
    (hb : b.Canonical)
    (hmantissa : 0 < b.mantissa) :
    gridDenominator b (coarsestGrid b - 23) ≤ gridNumerator b (coarsestGrid b - 23) := by
  have hlog : Nat.log2 b.mantissa < 53 := (Nat.log2_lt hmantissa.ne').mpr hb.mantissa
  have hleast := hb.least
  have hgreatest := hb.greatest
  have hgrid : (10 : ℚ) ^ (coarsestGrid b - 23) ≤ 2 ^ (b.exponent - 2) := by
    unfold coarsestGrid
    exact ten_zpow_le_two_zpow (by omega) (by omega)
  have hone := (grid_le_iff b (coarsestGrid b - 23) 1 1).2
  rw [Nat.one_mul, Nat.one_mul, Nat.cast_one, one_mul, one_mul] at hone
  exact hone.mpr hgrid

/-- The shortest decimal of a double rounds to the double. -/
theorem rounds_shortest
    (hb : b.Canonical)
    (tie : Tie) :
    b.Rounds ((shortest tie b).digits * 10 ^ (shortest tie b).exponent) := by
  unfold shortest
  split
  · rename_i hzero
    rw [← holds_iff]
    simp [Binary.holds, Binary.endsIncluded, Binary.lower, hzero]
  · rename_i hmantissa
    rw [← holds_iff]
    exact holds_searchGrids (by omega) ⟨23, by omega, fine_last hb (by omega)⟩

end Search

section Bits

/-- The magnitude of a finite double has the form that doubles have, and the bits without the sign
are the mantissa and the gaps below the exponent. -/
theorem of_magnitude_finite
    {x : Float}
    {b : Binary}
    (h : magnitude x = .finite b) :
    b.Canonical ∧
      ((x.toBits.toNat % 2 ^ 63 : ℕ) : Int) = (b.exponent + 1074) * 2 ^ 52 + b.mantissa := by
  unfold magnitude leadingBit at h
  dsimp only at h
  split at h
  · split at h <;> cases h
  · split at h
    · cases h
      refine ⟨⟨?_, ?_, ?_, ?_⟩, ?_⟩ <;> dsimp only <;> omega
    · cases h
      refine ⟨⟨?_, ?_, ?_, ?_⟩, ?_⟩ <;> dsimp only <;> omega

theorem toBits_of_infinite
    {x : Float}
    (h : magnitude x = .infinite) :
    x.toBits.toNat % 2 ^ 63 = infinityBits := by
  unfold magnitude leadingBit at h
  unfold infinityBits
  dsimp only at h
  split at h
  · split at h
    · omega
    · cases h
  · split at h <;> cases h

/-- Sign and magnitude tell a double, unless it is undefined. -/
theorem eq_of_magnitude
    {x y : Float}
    (hsign : isNegative x = isNegative y)
    (hmagnitude : magnitude x = magnitude y)
    (hdefined : magnitude x ≠ .nan) :
    x = y := by
  apply eq_of_toBits
  have hx := x.toBits.toNat_lt
  have hy := y.toBits.toNat_lt
  have hbits : x.toBits.toNat % 2 ^ 63 = y.toBits.toNat % 2 ^ 63 := by
    cases hmx : magnitude x with
    | nan =>
        exact absurd hmx hdefined
    | infinite =>
        rw [toBits_of_infinite hmx, toBits_of_infinite (hmagnitude ▸ hmx)]
    | finite b =>
        have hfirst := (of_magnitude_finite hmx).2
        have hsecond := (of_magnitude_finite (hmagnitude ▸ hmx)).2
        omega
  unfold isNegative at hsign
  rw [decide_eq_decide] at hsign
  omega

/-- A double that is neither negative nor undefined has no sign, and a magnitude. -/
theorem Unsigned.spec
    {x : Float}
    (h : Unsigned x) :
    isNegative x = false ∧ magnitude x ≠ .nan := by
  unfold Unsigned infinityBits at h
  constructor
  · unfold isNegative
    rw [decide_eq_false_iff_not]
    omega
  · unfold magnitude leadingBit
    dsimp only
    split
    · rw [if_pos (by omega)]
      simp
    · split <;> simp

end Bits

end Decimal
end Lox
