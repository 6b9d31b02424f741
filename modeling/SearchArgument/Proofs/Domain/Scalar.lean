import SearchArgument.Domain.Scalar
import SearchArgument.Proofs.Value

/-! The scalar domains. All of them compare values by the order of literals, which the keys of
literals make linear. Placing a literal keeps its exact value: a member denotes the same number,
and a ceiling is the next integer above. So a member compares with the place of a literal as it
compares with the literal itself. -/

namespace SearchArgument

/-- The keys of literals as a scale of any domain that compares values as literals. -/
def Domain.keyed {d : Domain} (h : d.compare = Value.compare) : d.Scale (ℕ ×ₗ ℚ ×ₗ String) where
  mark := Value.key
  compare_eq {v w} _ _ := by rw [h, Value.compare_eq_key]

theorem Domain.keyed_exact {d : Domain} (h : d.compare = Value.compare) : (keyed h).Exact :=
  fun v w _ _ => v.key_eq_iff w

theorem int64_of_int64? {n : ℤ} {i : Int64} (h : int64? n = some i) : i.toInt = n := by
  unfold int64? at h
  split at h
  next hi =>
    cases h
    exact hi
  next => cases h

theorem uint64_of_uint64? {n : ℤ} {u : UInt64} (h : uint64? n = some u) : (u.toNat : ℤ) = n := by
  unfold uint64? at h
  split at h
  next hu =>
    cases h
    exact hu
  next => cases h

theorem Value.number?_of_toDecimal? {v : Value} {d : Decimal} (h : v.toDecimal? = some d) :
    v.number? = some d.toRat := by
  cases v with
  | decimal e =>
    cases h
    rfl
  | int i =>
    cases h
    rw [Decimal.toRat_ofInt64, number?]
  | uint u =>
    cases h
    rw [Decimal.toRat_ofUInt64, number?]
  | null | bool | text => cases h

namespace Scalar

theorem ordered (s : Scalar) : s.domain.Ordered := (Domain.keyed rfl).ordered

/-- The keys of literals tell the values of a scalar domain apart. -/
theorem exists_exact (s : Scalar) :
    ∃ (K : Type) (_ : LinearOrder K) (σ : s.domain.Scale K), σ.Exact :=
  ⟨_, inferInstance, Domain.keyed rfl, Domain.keyed_exact rfl⟩

/-- The rank of the values that a domain holds. -/
def rank : Scalar → ℕ
  | bool => 1
  | decimal => 2
  | int => 3
  | text => 4
  | uint => 5

theorem rank_ne_zero (s : Scalar) : s.rank ≠ 0 := by cases s <;> decide

/-! ### Placing -/

/-- What a place has to do with its literal, in a domain whose values have a given rank. -/
def Exact (rank : ℕ) (literal : Value) : Placement → Prop
  | .member w =>
    w.rank = rank ∧ w.number? = literal.number? ∧ (literal.number? = none → w = literal)
  | .ceiling w => (rank = 3 ∨ rank = 5) ∧ w.rank = rank ∧ ∃ (n : ℤ) (q : ℚ),
    w.number? = some (n : ℚ) ∧ literal.number? = some q ∧ (n : ℚ) - 1 < q ∧ q < n

theorem exact_of_number {rank : ℕ} {v w : Value} {q : ℚ} (hr : w.rank = rank)
    (hv : v.number? = some q) (hw : w.number? = some q) : Exact rank v (.member w) :=
  ⟨hr, hw.trans hv.symm, fun h => nomatch hv.symm.trans h⟩

/-- A conversion to the integers of one kind. -/
def Converts (rank : ℕ) (convert : Decimal → Option Value) : Prop :=
  ∀ d w, convert d = some w →
    w.rank = rank ∧ ∃ n : ℤ, d.toInt? = some n ∧ w.number? = some (n : ℚ)

theorem converts_int : Converts 3 (·.toInt64?.map .int) := by
  intro d w h
  obtain ⟨i, hi, rfl⟩ := Option.map_eq_some_iff.1 h
  obtain ⟨n, hn, hni⟩ := Option.bind_eq_some_iff.1 hi
  exact ⟨rfl, n, hn, by rw [Value.number?, int64_of_int64? hni]⟩

theorem converts_uint : Converts 5 (·.toUInt64?.map .uint) := by
  intro d w h
  obtain ⟨u, hu, rfl⟩ := Option.map_eq_some_iff.1 h
  unfold Decimal.toUInt64? at hu
  split at hu
  · cases hu
  · obtain ⟨n, hn, hnu⟩ := Option.bind_eq_some_iff.1 hu
    exact ⟨rfl, n, hn, by rw [Value.number?, uint64_of_uint64? hnu]⟩

theorem placeDecimal_exact {rank : ℕ} {convert : Decimal → Option Value} {d : Decimal}
    {p : Placement} (hr : rank = 3 ∨ rank = 5) (hc : Converts rank convert)
    (h : placeDecimal convert d = some p) : Exact rank (.decimal d) p := by
  unfold placeDecimal at h
  split at h
  next =>
    obtain ⟨w, hw, rfl⟩ := Option.map_eq_some_iff.1 h
    obtain ⟨hrank, n, hn, hwn⟩ := hc d w hw
    rw [← Decimal.toRat_of_toInt? hn] at hwn
    exact exact_of_number hrank rfl hwn
  next hint =>
    obtain ⟨w, hw, rfl⟩ := Option.map_eq_some_iff.1 h
    obtain ⟨hrank, n, hn, hwn⟩ := hc d.ceil w hw
    exact ⟨hr, hrank, n, _, hwn, rfl, Decimal.ceil_bounds (by simpa using hint) hn⟩

theorem placeInt_exact {v : Value} {p : Placement} (h : placeInt v = some p) : Exact 3 v p := by
  cases v with
  | int i =>
    cases h
    exact exact_of_number rfl rfl rfl
  | uint u =>
    obtain ⟨i, hi, rfl⟩ := Option.map_eq_some_iff.1 h
    exact exact_of_number rfl rfl (by rw [Value.number?, int64_of_int64? hi])
  | decimal d => exact placeDecimal_exact (.inl rfl) converts_int h
  | null | bool | text => cases h

theorem placeUInt_exact {v : Value} {p : Placement} (h : placeUInt v = some p) :
    Exact 5 v p := by
  cases v with
  | uint u =>
    cases h
    exact exact_of_number rfl rfl rfl
  | int i =>
    obtain ⟨u, hu, rfl⟩ := Option.map_eq_some_iff.1 h
    exact exact_of_number rfl rfl (by rw [Value.number?, uint64_of_uint64? hu])
  | decimal d => exact placeDecimal_exact (.inr rfl) converts_uint h
  | null | bool | text => cases h

theorem isNull_of_place {s : Scalar} {v : Value} {p : Placement} (h : s.place v = .ok p) :
    v.isNull = false := by
  unfold place at h
  split at h
  next => cases h
  next hn => simpa using hn

/-- Scalar domains place literals exactly. -/
theorem place_exact {s : Scalar} {v : Value} {p : Placement} (h : s.place v = .ok p) :
    Exact s.rank v p := by
  unfold place at h
  split at h
  · cases h
  · split at h
    · cases h
    next hfamily =>
      have hfamily : v.family = s.family := not_not.1 hfamily
      split at h
      next q hq =>
        cases h
        cases s with
        | bool =>
          cases hq
          cases v <;> cases hfamily
          exact ⟨rfl, rfl, fun _ => rfl⟩
        | text =>
          cases hq
          cases v <;> cases hfamily
          exact ⟨rfl, rfl, fun _ => rfl⟩
        | decimal =>
          obtain ⟨d, hd, rfl⟩ := Option.map_eq_some_iff.1 hq
          exact exact_of_number rfl (Value.number?_of_toDecimal? hd) rfl
        | int => exact placeInt_exact hq
        | uint => exact placeUInt_exact hq
      next => cases h

theorem rank_of_holds {s : Scalar} {v : Value} (h : s.domain.Holds v) : v.rank = s.rank := by
  obtain ⟨literal, -, hv | hv⟩ := h
  · exact (place_exact hv).1
  · exact (place_exact hv).2.1

/-- A scalar domain places its values on themselves. -/
theorem member_of_holds {k : Scalar} {v : Value} (h : k.domain.Holds v) : k.domain.Member v := by
  have hrank := rank_of_holds h
  cases k <;> cases v <;> first | exact ⟨rfl, rfl⟩ | cases hrank

/-! ### Comparing with a place -/

/-- Members compare with the member of a literal as with the literal. -/
theorem compare_member {s : Scalar} {row r literal v : Value}
    (hrow : s.place row = .ok (.member r)) (h : s.place literal = .ok (.member v)) :
    r.compare v = row.compareExact literal := by
  obtain ⟨hr, hrn, hrow⟩ := place_exact hrow
  obtain ⟨hv, hvn, hlit⟩ := place_exact h
  have hsome : literal.number?.isSome = row.number?.isSome := by
    rw [← hvn, Value.isSome_number?, hv, ← hr, ← Value.isSome_number?, hrn]
  rw [← Value.compareExact_eq (hr.trans hv.symm)]
  cases hp : row.number? with
  | none =>
    rw [hp] at hsome
    rw [hrow hp, hlit (Option.not_isSome_iff_eq_none.1 (by simp [hsome]))]
  | some p =>
    rw [hp] at hsome
    obtain ⟨q, hq⟩ := Option.isSome_iff_exists.1 hsome
    rw [Value.compareExact_of_number hp hq,
      Value.compareExact_of_number (hrn.trans hp) (hvn.trans hq)]

/-- Members never meet a literal that has a ceiling, and compare with its ceiling as with it. -/
theorem compare_ceiling {s : Scalar} {row r literal v : Value}
    (hrow : s.place row = .ok (.member r)) (h : s.place literal = .ok (.ceiling v)) :
    row.compareExact literal ≠ .eq ∧ (row.compareExact literal = .lt ↔ r.compare v = .lt) := by
  obtain ⟨hr, hrn, -⟩ := place_exact hrow
  obtain ⟨hrank, hv, n, q, hvn, hq, hnq, hqn⟩ := place_exact h
  obtain ⟨m, hm⟩ : ∃ m : ℤ, r.number? = some (m : ℚ) := by
    rcases hrank with hrank | hrank <;> rw [hrank] at hr <;> cases r <;> cases hr
    · exact ⟨_, rfl⟩
    · exact ⟨_, rfl⟩
  rw [← Value.compareExact_eq (hr.trans hv.symm), Value.compareExact_of_number hm hvn,
    Value.compareExact_of_number (hrn ▸ hm) hq, compare_lt_iff_lt, compare_lt_iff_lt, Int.cast_lt,
    ne_eq, compare_eq_iff_eq]
  -- no integer lies between the literal and its ceiling
  have hgap : m < n ↔ (m : ℚ) < q := by
    constructor
    · intro hmn
      have hle : (m : ℚ) ≤ n - 1 := by exact_mod_cast Int.le_sub_one_of_lt hmn
      exact hle.trans_lt hnq
    · intro hmq
      exact_mod_cast hmq.trans hqn
  refine ⟨?_, hgap.symm⟩
  rintro rfl
  exact lt_irrefl _ (hgap.1 (by exact_mod_cast hqn))

end Scalar

end SearchArgument
