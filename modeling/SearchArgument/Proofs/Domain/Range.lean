import SearchArgument.Proofs.Domain.Scalar

/-! Decimals among the integers of a domain. A decimal lies on the ceiling of its number or right
below it, and the domain places it there if it holds that integer. The sign counts for the number
only, except with unsigned integers: they take no decimal that has its sign set, not even one
whose ceiling is zero. -/

namespace SearchArgument

/-! ### Words -/

theorem int64?_eq_some_iff {n : ℤ} {i : Int64} : int64? n = some i ↔ i.toInt = n := by
  refine ⟨int64_of_int64?, ?_⟩
  rintro rfl
  simp [int64?, Int64.ofInt_toInt]

theorem uint64?_eq_some_iff {n : ℤ} {u : UInt64} : uint64? n = some u ↔ (u.toNat : ℤ) = n := by
  refine ⟨uint64_of_uint64?, ?_⟩
  rintro rfl
  simp [uint64?]

namespace Scalar

variable {k : Scalar} {d e : Decimal} {n : ℤ} {v : Value}

/-- The literal of an integer in the kind of the domain. -/
def integer? : Scalar → ℤ → Option Value
  | int, n => (int64? n).map .int
  | uint, n => (uint64? n).map .uint
  | _, _ => none

theorem isSome_integer?_iff : (k.integer? n).isSome ↔ k.HoldsInt n := by
  cases k with
  | int =>
    simp only [integer?, HoldsInt, Option.isSome_map, Option.isSome_iff_exists, int64?_eq_some_iff,
      Int64.toInt_minValue, Int64.toInt_maxValue]
    constructor
    · rintro ⟨i, rfl⟩
      exact ⟨i.le_toInt, Int.le_sub_one_of_lt i.toInt_lt⟩
    · rintro ⟨hlow, hhigh⟩
      exact ⟨_, Int64.toInt_ofInt_of_le hlow (Int.lt_of_le_sub_one hhigh)⟩
  | uint =>
    simp only [integer?, HoldsInt, Option.isSome_map, Option.isSome_iff_exists, uint64?_eq_some_iff]
    constructor
    · rintro ⟨u, rfl⟩
      exact ⟨Int.natCast_nonneg _, Int.ofNat_lt.2 u.toNat_lt⟩
    · rintro ⟨hlow, hhigh⟩
      have hlt : n.toNat < UInt64.size := by omega
      exact ⟨.ofNat n.toNat, by rw [UInt64.toNat_ofNat_of_lt' hlt, Int.toNat_of_nonneg hlow]⟩
  | bool | decimal | text => simp [integer?, HoldsInt]

theorem integer?_spec (h : k.integer? n = some v) :
    k.domain.Member v ∧ v.number? = some (n : ℚ) := by
  cases k with
  | int =>
    obtain ⟨i, hi, rfl⟩ := Option.map_eq_some_iff.1 h
    exact ⟨⟨rfl, rfl⟩, by rw [Value.number?, int64_of_int64? hi]⟩
  | uint =>
    obtain ⟨u, hu, rfl⟩ := Option.map_eq_some_iff.1 h
    exact ⟨⟨rfl, rfl⟩, by rw [Value.number?, uint64_of_uint64? hu]⟩
  | bool | decimal | text => cases h

/-! ### Decimals -/

/-- The member by which a decimal is placed, if there is one. Unsigned integers take no decimal with
its sign set, be it the sign of a zero. -/
def nearest? (k : Scalar) (d : Decimal) : Option Value :=
  if k = .uint ∧ d.negative then none else k.integer? d.toRat.ceil

theorem placeDecimal_eq (convert : Decimal → Option Value) (d : Decimal) :
    placeDecimal convert d =
      (convert d.roundedUp).map (if d.isIntegral then .member else .ceiling) := by
  unfold placeDecimal Decimal.roundedUp
  split <;> rfl

theorem place?_decimal (hk : k = .int ∨ k = .uint) (d : Decimal) :
    k.place? (.decimal d) = (k.nearest? d).map (if d.isIntegral then .member else .ceiling) := by
  rcases hk with rfl | rfl
  · show placeDecimal (·.toInt64?.map .int) d = _
    rw [placeDecimal_eq, Decimal.toInt64?, Decimal.toInt?_roundedUp]
    rfl
  · show placeDecimal (·.toUInt64?.map .uint) d = _
    rw [placeDecimal_eq, Decimal.toUInt64?, Decimal.negative_roundedUp, Decimal.toInt?_roundedUp,
      nearest?]
    cases d.negative <;> rfl

theorem place_decimal (hk : k = .int ∨ k = .uint) (d : Decimal) :
    k.place (.decimal d) = match k.nearest? d with
      | some v => .ok (if d.isIntegral then .member v else .ceiling v)
      | none => .error (.outOfRange (.decimal d) k.name) := by
  have hfamily : (Value.decimal d).family = k.family := by
    rcases hk with rfl | rfl <;> rfl
  unfold place
  rw [if_neg (by simp [Value.isNull]), if_neg (not_not.2 hfamily), place?_decimal hk]
  cases k.nearest? d with
  | none => rfl
  | some v =>
    show Except.ok _ = Except.ok _
    split <;> rfl

theorem refuses_of_nearest? (hk : k = .int ∨ k = .uint) (h : k.nearest? d = none) :
    k.Refuses (.decimal d) := by
  refine ⟨.outOfRange (.decimal d) k.name, ?_, rfl, rfl⟩
  rw [place_decimal hk, h]

/-- Zero is the next integer above minus one, but no unsigned integer is near to a decimal with its
sign set. -/
theorem not_placesByNumber (hneg : d.negative) (hlow : -1 < d.toRat) : ¬uint.PlacesByNumber d := by
  rintro ⟨-, hplaces⟩
  have hzero : d.toRat.ceil = 0 := by
    have hle : d.toRat.ceil ≤ 0 := Rat.ceil_le_iff.2 (by exact_mod_cast d.toRat_nonpos hneg)
    have hlt : -1 < d.toRat.ceil := Rat.lt_ceil_iff.2 (by exact_mod_cast hlow)
    omega
  have hin : uint.HoldsInt d.toRat.ceil := by
    rw [hzero]
    exact ⟨le_rfl, by decide⟩
  obtain ⟨v, -, -, hv⟩ := hplaces hin
  obtain ⟨f, hf, -⟩ := refuses_of_nearest? (k := .uint) (.inr rfl) (if_pos ⟨rfl, hneg⟩)
  cases hv.symm.trans hf

/-- At minus one and below, no unsigned integer is near whatever the sign. -/
theorem nearest?_eq_integer? (hsign : ¬(k = .uint ∧ d.negative ∧ -1 < d.toRat))
    (hin : k.HoldsInt d.toRat.ceil) : k.nearest? d = k.integer? d.toRat.ceil := by
  apply if_neg
  rintro ⟨rfl, hneg⟩
  have hlow : d.toRat ≤ (-1 : ℤ) := by simpa [hneg] using hsign
  exact absurd hin.1 (not_le.2 (Int.lt_of_le_sub_one (Rat.ceil_le_iff.2 hlow)))

theorem placesByNumber (hk : k = .int ∨ k = .uint)
    (hsign : ¬(k = .uint ∧ d.negative ∧ -1 < d.toRat)) : k.PlacesByNumber d := by
  constructor
  · intro hout
    apply refuses_of_nearest? hk
    unfold nearest?
    split
    · rfl
    · rwa [← Option.not_isSome_iff_eq_none, isSome_integer?_iff]
  · intro hin
    obtain ⟨v, hv⟩ := Option.isSome_iff_exists.1 (isSome_integer?_iff.2 hin)
    obtain ⟨hmember, hnumber⟩ := integer?_spec hv
    refine ⟨v, hmember, hnumber, ?_⟩
    rw [place_decimal hk, nearest?_eq_integer? hsign hin, hv]
    simp only [Decimal.isIntegral_iff]

/-- Equal decimals are near to the same member, if their signs do not tell zeros apart. -/
theorem nearest?_congr (h : d == e) (hsign : k = .uint → d.toRat = 0 → d.negative = e.negative) :
    k.nearest? d = k.nearest? e := by
  have hrat := Decimal.beq_iff_toRat.1 h
  have hneg : k = .uint → d.negative = e.negative := by
    intro hk
    by_cases hzero : d.toRat = 0
    · exact hsign hk hzero
    · exact Decimal.negative_eq_of_toRat hrat hzero
  have hiff : k = .uint ∧ d.negative ↔ k = .uint ∧ e.negative := and_congr_right fun hk => by
    rw [hneg hk]
  unfold nearest?
  simp only [hiff, hrat]

/-- A decimal is placed among integers by its number alone, but for a sign on what lies between
minus one and zero: such a decimal is refused as no unsigned integer, though zero is the next
member. So equal decimals have the same place, zeros of unequal sign excepted. What literals are
placed by are members. -/
theorem decimals_placed_by_number (hk : k = .int ∨ k = .uint) :
    (∀ d, k.PlacesByNumber d ↔ ¬(k = .uint ∧ d.negative ∧ -1 < d.toRat)) ∧
    (∀ d : Decimal, k = .uint → d.negative → k.Refuses (.decimal d)) ∧
    (∀ d e : Decimal, d == e → (k = .uint → d.toRat = 0 → d.negative = e.negative) →
      ∀ p, k.place (.decimal d) = .ok p ↔ k.place (.decimal e) = .ok p) ∧
    ∀ (d : Decimal) (v : Value),
      k.place (.decimal d) = .ok (.member v) ∨ k.place (.decimal d) = .ok (.ceiling v) →
        k.domain.Member v := by
  refine ⟨fun d => ⟨?_, placesByNumber hk⟩, fun d hu hneg => ?_, fun d e hde hsign p => ?_,
    fun d v hv => ?_⟩
  · rintro hplaces ⟨rfl, hneg, hlow⟩
    exact not_placesByNumber hneg hlow hplaces
  · exact refuses_of_nearest? hk (if_pos ⟨hu, hneg⟩)
  · have hint : d.isIntegral = e.isIntegral := by
      rw [Bool.eq_iff_iff, Decimal.isIntegral_iff, Decimal.isIntegral_iff,
        Decimal.beq_iff_toRat.1 hde]
    rw [place_decimal hk, place_decimal hk, nearest?_congr hde hsign, hint]
    cases k.nearest? e <;> simp
  · exact member_of_holds ⟨.decimal d, rfl, hv⟩

open Decimal (minusHalf toRat_minusHalf)

/-- Zero lies next above `-0.5` and is an unsigned integer, but takes neither that decimal nor the
zero with its sign. -/
theorem sign_refused_minusHalf :
    minusHalf.toRat.ceil = 0 ∧ uint.HoldsInt 0 ∧ ¬uint.PlacesByNumber minusHalf ∧
      uint.place (.decimal minusHalf) = .error (.outOfRange (.decimal minusHalf) "uint") ∧
      minusHalf.ceil == .zero ∧ uint.place (.decimal .zero) = .ok (.member (.uint 0)) ∧
      uint.place (.decimal minusHalf.ceil) =
        .error (.outOfRange (.decimal minusHalf.ceil) "uint") := by
  refine ⟨by decide, ⟨le_rfl, by decide⟩, not_placesByNumber rfl ?_, rfl, rfl, rfl, rfl⟩
  rw [toRat_minusHalf]
  norm_num

/-- `7.5` and `7.50` lie below the unsigned integer eight. -/
theorem decimals_placed_by_number_belowEight :
    let d : Decimal := (Decimal.ofScaled? 75 1).getD .zero
    let e : Decimal := (Decimal.ofScaled? 750 2).getD .zero
    uint.PlacesByNumber d ∧ uint.place (.decimal e) = .ok (.ceiling (.uint 8)) ∧
      uint.place (.decimal d) = .ok (.ceiling (.uint 8)) ∧ uint.domain.Member (.uint 8) ∧
      uint.Refuses (.decimal minusHalf) := by
  intro d e
  obtain ⟨hplaces, hrefuses, halike, hmember⟩ := decimals_placed_by_number (k := .uint) (.inr rfl)
  have he : uint.place (.decimal e) = .ok (.ceiling (.uint 8)) := by decide
  have hd := (halike d e (by decide) (fun _ _ => rfl) _).2 he
  exact ⟨(hplaces d).2 nofun, he, hd, hmember d _ (.inr hd), hrefuses minusHalf rfl rfl⟩

end Scalar

end SearchArgument
