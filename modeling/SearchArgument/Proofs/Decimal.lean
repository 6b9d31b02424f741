import Mathlib.Algebra.Order.Field.Rat
import Mathlib.Order.Compare
import Mathlib.Tactic.FieldSimp
import Mathlib.Tactic.Linarith
import Mathlib.Tactic.Positivity
import Mathlib.Tactic.Ring
import SearchArgument.Decimal.Basic

/-! Decimals as rationals. They are ordered as the rationals that they denote, so cross
multiplication is sound whatever the scales. An integral decimal denotes its whole part under
its sign, and the ceiling of any other denotes the ceiling of its number, whatever the scale. It
keeps the sign, even where nothing but a zero is left of the digits. -/

namespace SearchArgument

namespace Decimal

theorem toRat_eq (d : Decimal) : d.toRat = d.coefficient / (10 : ℚ) ^ d.scale := by
  rw [toRat, Rat.mkRat_eq_div]
  simp

theorem compare_eq (a b : Decimal) : a.compare b = Ord.compare a.toRat b.toRat := by
  let shift (n : ℤ) : ℚ := n / (10 ^ a.scale * 10 ^ b.scale)
  have hshift : StrictMono shift := fun m n h => by
    have hmn : (m : ℚ) < n := Int.cast_lt.2 h
    show (m : ℚ) / _ < n / _
    gcongr
  have ha : shift (a.coefficient * (Nat.pow 10 b.scale : Nat)) = a.toRat := by
    rw [toRat_eq]
    simp only [shift, Nat.pow_eq]
    push_cast
    field_simp
  have hb : shift (b.coefficient * (Nat.pow 10 a.scale : Nat)) = b.toRat := by
    rw [toRat_eq]
    simp only [shift, Nat.pow_eq]
    push_cast
    field_simp
  have hmap := hshift.cmp_map_eq (a.coefficient * (Nat.pow 10 b.scale : Nat))
    (b.coefficient * (Nat.pow 10 a.scale : Nat))
  rw [ha, hb, cmp_eq_compare, cmp_eq_compare] at hmap
  exact hmap.symm

/-! ### Integers -/

theorem coefficient_ofInt64 (i : Int64) : (ofInt64 i).coefficient = i.toInt := by
  simp only [ofInt64, signed, coefficient, Bool.and_eq_true, decide_eq_true_eq, bne_iff_ne]
  split <;> omega

theorem toRat_ofInt64 (i : Int64) : (ofInt64 i).toRat = i.toInt := by
  rw [toRat_eq, coefficient_ofInt64, show (ofInt64 i).scale = 0 from rfl, pow_zero, div_one]

theorem toRat_ofUInt64 (u : UInt64) : (ofUInt64 u).toRat = (u.toNat : ℤ) := by
  rw [toRat_eq, show (ofUInt64 u).scale = 0 from rfl, pow_zero, div_one]
  rfl

/-- The digits before the point and those behind it. -/
theorem mantissa_div (m : Magnitude) :
    (m.mantissa : ℚ) / 10 ^ m.scale = m.whole + m.fraction / 10 ^ m.scale := by
  have hdigits : m.mantissa = 10 ^ m.scale * m.whole + m.fraction :=
    (Nat.div_add_mod m.mantissa (10 ^ m.scale)).symm
  have hcast : (m.mantissa : ℚ) = 10 ^ m.scale * m.whole + m.fraction := by
    rw [hdigits]
    push_cast
    rfl
  rw [hcast]
  field_simp

theorem toRat_of_negative {d : Decimal} (h : d.negative) :
    d.toRat = -(d.whole + d.fraction / 10 ^ d.scale) := by
  rw [toRat_eq, ← mantissa_div, coefficient, if_pos h]
  push_cast
  ring

theorem toRat_of_not_negative {d : Decimal} (h : d.negative = false) :
    d.toRat = d.whole + d.fraction / 10 ^ d.scale := by
  rw [toRat_eq, ← mantissa_div, coefficient, if_neg (by simp [h])]
  push_cast
  rfl

theorem toRat_of_toInt? {d : Decimal} {n : ℤ} (h : d.toInt? = some n) : d.toRat = n := by
  unfold toInt? at h
  split at h
  next hint =>
    have hzero : d.fraction = 0 := by simpa [isIntegral] using hint
    obtain rfl := Option.some.inj h
    split
    next hneg => simp [toRat_of_negative hneg, hzero]
    next hneg => simp [toRat_of_not_negative (by simpa using hneg), hzero]
  next => cases h

theorem fraction_bounds (m : Magnitude) (h : m.fraction ≠ 0) :
    (0 : ℚ) < m.fraction / 10 ^ m.scale ∧ (m.fraction : ℚ) / 10 ^ m.scale < 1 := by
  have hpos : (0 : ℚ) < m.fraction := by exact_mod_cast Nat.pos_of_ne_zero h
  have hlt : (m.fraction : ℚ) < 10 ^ m.scale := by
    exact_mod_cast Nat.mod_lt m.mantissa (Nat.pow_pos (by decide))
  exact ⟨by positivity, (div_lt_one (by positivity)).2 hlt⟩

/-- A decimal that is not integral lies strictly below its ceiling, by less than one. -/
theorem ceil_bounds {d : Decimal} (hd : d.isIntegral = false) {n : ℤ} (h : d.ceil.toInt? = some n) :
    (n : ℚ) - 1 < d.toRat ∧ d.toRat < n := by
  have hfrac : d.fraction ≠ 0 := by simpa [isIntegral] using hd
  obtain ⟨hpos, hlt⟩ := fraction_bounds d.toMagnitude hfrac
  rw [← toRat_of_toInt? h]
  have hscale : d.scale ≠ 0 := fun hs => hfrac (by simp [Magnitude.fraction, hs, Nat.mod_one])
  cases hneg : d.negative with
  | true =>
    have hceil : d.ceil.toRat = -d.whole := by
      rw [toRat_eq]
      simp [ceil, hscale, hneg, coefficient]
    rw [hceil, toRat_of_negative hneg]
    constructor <;> linarith
  | false =>
    have hceil : d.ceil.toRat = d.whole + 1 := by
      rw [toRat_eq]
      simp [ceil, hscale, hneg, hfrac, coefficient]
    rw [hceil, toRat_of_not_negative hneg]
    constructor <;> linarith

/-! ### Ceilings -/

variable {d e : Decimal}

theorem exists_toInt? (h : d.isIntegral) : ∃ n, d.toInt? = some n := by
  unfold toInt?
  rw [if_pos h]
  exact ⟨_, rfl⟩

theorem isIntegral_of_scale (h : d.scale = 0) : d.isIntegral := by
  simp [isIntegral, Magnitude.fraction, h, Nat.mod_one]

theorem isIntegral_ceil (d : Decimal) : d.ceil.isIntegral := by
  apply isIntegral_of_scale
  unfold ceil
  split
  · assumption
  · split <;> rfl

theorem negative_ceil (d : Decimal) : d.ceil.negative = d.negative := by
  unfold ceil
  split
  · rfl
  · split
    · rfl
    next h =>
      rw [Bool.or_eq_true, not_or, Bool.not_eq_true d.negative] at h
      exact h.2.symm

/-- The integer that an integral decimal denotes is the ceiling of its number. -/
theorem toInt?_of_isIntegral (h : d.isIntegral) : d.toInt? = some d.toRat.ceil := by
  obtain ⟨n, hn⟩ := exists_toInt? h
  rw [hn, toRat_of_toInt? hn, Rat.ceil_intCast]

theorem toInt?_ceil (h : d.isIntegral = false) : d.ceil.toInt? = some d.toRat.ceil := by
  obtain ⟨n, hn⟩ := exists_toInt? d.isIntegral_ceil
  obtain ⟨hlow, hhigh⟩ := ceil_bounds h hn
  have hle : d.toRat.ceil ≤ n := Rat.ceil_le_iff.2 hhigh.le
  have hlt : n - 1 < d.toRat.ceil := Rat.lt_ceil_iff.2 (by exact_mod_cast hlow)
  rw [hn, show n = d.toRat.ceil by omega]

/-- A decimal is integral exactly if its number is its own ceiling. -/
theorem isIntegral_iff : d.isIntegral ↔ d.toRat = d.toRat.ceil := by
  constructor
  · intro h
    exact toRat_of_toInt? (toInt?_of_isIntegral h)
  · intro h
    by_contra hd
    have hd : d.isIntegral = false := by simpa using hd
    exact absurd h (ceil_bounds hd (toInt?_ceil hd)).2.ne

/-- The integral decimal by which a decimal is placed among integers. -/
def roundedUp (d : Decimal) : Decimal := if d.isIntegral then d else d.ceil

theorem toInt?_roundedUp (d : Decimal) : d.roundedUp.toInt? = some d.toRat.ceil := by
  unfold roundedUp
  split
  next h => exact toInt?_of_isIntegral h
  next h => exact toInt?_ceil (by simpa using h)

theorem negative_roundedUp (d : Decimal) : d.roundedUp.negative = d.negative := by
  unfold roundedUp
  split
  · rfl
  · exact d.negative_ceil

/-! ### Signs -/

theorem toRat_nonpos (h : d.negative) : d.toRat ≤ 0 := by
  rw [toRat_of_negative h]
  have hwhole : (0 : ℚ) ≤ d.whole + d.fraction / 10 ^ d.scale := by positivity
  linarith

theorem toRat_nonneg (h : d.negative = false) : 0 ≤ d.toRat := by
  rw [toRat_of_not_negative h]
  positivity

/-- Only zeros may be equal under different signs. -/
theorem negative_eq_of_toRat (h : d.toRat = e.toRat) (hd : d.toRat ≠ 0) :
    d.negative = e.negative := by
  cases hdn : d.negative <;> cases hen : e.negative
  · rfl
  · exact absurd (le_antisymm (h ▸ toRat_nonpos hen) (toRat_nonneg hdn)) hd
  · exact absurd (le_antisymm (toRat_nonpos hdn) (h ▸ toRat_nonneg hen)) hd
  · rfl

/-- The decimal `-0.5`, whose ceiling is a zero that keeps the sign. -/
def minusHalf : Decimal := (ofScaled? (-5) 1).getD .zero

theorem toRat_minusHalf : minusHalf.toRat = -1 / 2 := by
  have hrat : minusHalf.toRat = mkRat (-5) 10 := rfl
  rw [hrat, Rat.mkRat_eq_div]
  norm_num

theorem beq_iff_toRat : d == e ↔ d.toRat = e.toRat := by
  show (d.compare e == .eq) = true ↔ _
  rw [beq_iff_eq, compare_eq, compare_eq_iff_eq]

end Decimal

end SearchArgument
