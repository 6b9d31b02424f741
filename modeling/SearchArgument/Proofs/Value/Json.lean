import SearchArgument.Proofs.Domain.Range
import SearchArgument.Proofs.Json.Text

/-! Values by their JSON form. A value is read back as it was written, digit for digit, except that
a zero does not keep its sign. Zeros of either sign are equal, so what is read back is always equal
to what was written. -/

namespace SearchArgument

/-- The text of a decimal is read back, up to the sign of a zero. -/
theorem Decimal.parse_render (d : Decimal) :
    parse d.render = .ok (signed d.negative d.toMagnitude) := by
  rw [parse, render, String.toList_ofList, read_written]

namespace Value

/-- A zero with its sign set. -/
def isNegativeZero : Value → Bool
  | decimal d => d.negative && d.mantissa == 0
  | _ => false

/-- The value without the sign of a zero. -/
def withoutZeroSign : Value → Value
  | decimal d => decimal (.signed d.negative d.toMagnitude)
  | v => v

variable {v : Value}

theorem withoutZeroSign_beq (v : Value) : v.withoutZeroSign == v := by
  cases v with
  | decimal d =>
    have hbeq : Decimal.signed d.negative d.toMagnitude == d :=
      Decimal.beq_iff_toRat.2 d.toRat_signed
    exact hbeq
  | _ => exact beq_self_eq_true _

theorem withoutZeroSign_of_not_isNegativeZero (h : v.isNegativeZero = false) :
    v.withoutZeroSign = v := by
  cases v with
  | decimal d =>
    have hsign : (d.negative && d.mantissa != 0) = d.negative := by
      simp only [isNegativeZero, Bool.and_eq_false_iff, beq_eq_false_iff_ne] at h
      rcases h with h | h <;> simp [h]
    rw [withoutZeroSign, Decimal.signed, hsign]
  | _ => rfl

theorem ofJson?_toJson (v : Value) : ofJson? v.toJson = some v.withoutZeroSign := by
  cases v with
  | null | bool b | text s => rfl
  | decimal d =>
    show ((Decimal.parse d.render).toOption.map decimal) = _
    rw [d.parse_render]
    rfl
  | int i =>
    show (int64? i.toInt).map int = _
    rw [int64?_eq_some_iff.2 rfl]
    rfl
  | uint u =>
    show (uint64? u.toNat).map uint = _
    rw [uint64?_eq_some_iff.2 rfl]
    rfl

theorem deserialize?_serialize (v : Value) :
    deserialize? v.serialize = some v.withoutZeroSign := by
  rw [deserialize?, serialize, Json.render, Json.parse?, String.toList_ofList, Json.read_written,
    Option.bind_some, ofJson?_toJson]

/-- The text of a decimal is read back with the same digits, the same places and the same sign, but
for the sign of a zero, which is lost. So every value is read back from its JSON form as an equal
value, and as one that is written and shown alike unless it is a zero with its sign set. -/
theorem serialization_round_trips :
    (∀ d : Decimal, ∃ e, Decimal.parse d.render = .ok e ∧ e.mantissa = d.mantissa ∧
      e.scale = d.scale ∧ e.negative = if d.mantissa = 0 then false else d.negative) ∧
    ∀ v : Value, ∃ w, deserialize? v.serialize = some w ∧ w == v ∧
      (v.isNegativeZero = false → w.serialize = v.serialize ∧ w.render = v.render) := by
  constructor
  · intro d
    refine ⟨_, d.parse_render, rfl, rfl, ?_⟩
    show (d.negative && d.mantissa != 0) = _
    split <;> simp [*]
  · intro v
    refine ⟨_, v.deserialize?_serialize, v.withoutZeroSign_beq, fun h => ?_⟩
    rw [withoutZeroSign_of_not_isNegativeZero h]
    exact ⟨rfl, rfl⟩

/-- `-0.50` comes back with all its places, `-0.00` comes back as `0.00`. -/
theorem serialization_round_trips_minusHalf :
    let half : Value := .decimal ⟨⟨50, 2, by decide, by decide⟩, true⟩
    let zero : Value := .decimal ⟨⟨0, 2, by decide, by decide⟩, true⟩
    half.isNegativeZero = false ∧ zero.isNegativeZero ∧
      (∃ w, deserialize? half.serialize = some w ∧ w.serialize = half.serialize ∧
        w.render = "-0.50") ∧
      ∃ w, deserialize? zero.serialize = some w ∧ w == zero ∧ w.render = "0.00" := by
  intro half zero
  obtain ⟨-, hvalues⟩ := serialization_round_trips
  obtain ⟨w, hw, -, halike⟩ := hvalues half
  obtain ⟨hserialize, hrender⟩ := halike rfl
  obtain ⟨u, hu, hbeq, -⟩ := hvalues zero
  refine ⟨rfl, rfl, ⟨w, hw, hserialize, hrender.trans (by decide)⟩, u, hu, hbeq, ?_⟩
  cases hu.symm.trans zero.deserialize?_serialize
  decide

end Value

end SearchArgument
