import SearchArgument.Proofs.Predicate.Literals
import SearchArgument.Proofs.Predicate.Truth

/-! Negation in three values. It swaps true and false and leaves unknown as it is, lists included: a
row is in a list if it equals one literal or another, by the same connectives as everywhere. Range
sets have two values only, but those of a predicate and of its negation together tell all three: the
rows in neither are those of which both are unknown. -/

namespace SearchArgument

variable {d : Domain} {k : Scalar} {p : Predicate}

/-- Continuous scalar domains round nothing, so what a scalar domain places it does not refuse. -/
theorem Scalar.refusal?_of_place {v : Value} {q : Placement} (h : k.domain.place v = .ok q) :
    k.domain.refusal? v = none := by
  unfold Domain.refusal?
  rw [if_neg (by simp [isNull_of_place h]), h]
  cases q with
  | member w => rfl
  | ceiling w =>
    obtain ⟨hrank, -⟩ := place_exact h
    have hdiscrete : k.domain.discrete := by
      revert hrank
      cases k <;> decide
    exact if_pos hdiscrete

/-! ### Lists -/

namespace Truth

/-- For a row that is not null the empty list needs no rule of its own. -/
theorem ofMember_of_not_isNull {row : Value} (hn : row.isNull = false) (vs : List Value) :
    ofMember row vs =
      if vs.any fun v => !v.isNull && row.compareExact v == .eq then yes
      else if vs.any (·.isNull) then unknown
      else no := by
  unfold ofMember
  cases vs with
  | nil => rfl
  | cons v vs => rw [if_neg (by simp), if_neg (by simp [hn])]

/-- A row is in a list if it equals the first literal, or else if it is in the rest. -/
theorem ofMember_cons (row v : Value) (vs : List Value) :
    ofMember row (v :: vs) = (ofCompare .eq row v).or (ofMember row vs) := by
  cases hn : row.isNull with
  | true =>
    simp only [ofMember, ofCompare, hn]
    cases vs <;> rfl
  | false =>
    rw [ofMember_of_not_isNull hn, ofMember_of_not_isNull hn, ofCompare, hn, List.any_cons,
      List.any_cons]
    -- what counts is whether `v` and the rest have a hit or a null
    generalize (vs.any fun v => !v.isNull && row.compareExact v == .eq) = hit
    generalize vs.any (·.isNull) = missing
    simp only [CompareOp.holds]
    generalize (row.compareExact v == .eq) = equal
    revert hit missing equal
    cases v.isNull <;> decide

end Truth

namespace Predicate

/-- To be in a list is to equal one of its literals. -/
theorem truth_isIn (row : Value) (vs : List Value) :
    (isIn vs).truth row = (or (vs.map (compare .eq))).truth row := by
  rw [truth, truth]
  induction vs with
  | nil => rfl
  | cons v vs ih => rw [Truth.ofMember_cons, List.map_cons, truthOfAny, truth, ih]

/-- To be outside a list is to differ from all of its literals. -/
theorem truth_isNotIn (row : Value) (vs : List Value) :
    (isNotIn vs).truth row = (and (vs.map (compare .ne))).truth row := by
  have hnegate : negateAll (vs.map (compare .ne)) = vs.map (compare .eq) := by
    induction vs with
    | nil => rfl
    | cons v vs ih => rw [List.map_cons, List.map_cons, negateAll, ih, negate, CompareOp.negate]
  calc (isNotIn vs).truth row = ((isIn vs).truth row).not := rfl
    _ = ((and (vs.map (compare .ne))).negate.truth row).not := by rw [truth_isIn, negate, hnegate]
    _ = (and (vs.map (compare .ne))).truth row := by rw [truth_negate, Truth.not_not]

/-! ### Range sets -/

theorem exists_lower (h : p.literals.findSome? d.refusal? = none) :
    ∃ t, (p.lower d).run.value = .ok t := by
  cases hv : (p.lower d).run.value with
  | ok t => exact ⟨t, rfl⟩
  | error f =>
    rw [lower_eq_error_iff, h] at hv
    cases hv

/-- Over a scalar domain the range set of a predicate holds the rows of which it is true. -/
theorem exists_range_set (h : p.literals.findSome? k.domain.refusal? = none) :
    ∃ s, (p.lower k.domain >>= Tree.evaluate).run.value = .ok s ∧
      ∀ row, (k.domain.point? row).isSome → (s.contains row ↔ p.truth row = .yes) := by
  obtain ⟨t, ht⟩ := exists_lower h
  obtain ⟨hbuilt, hbare⟩ := whole_lower ht
  obtain ⟨s, hs, hselects⟩ := Tree.exists_evaluate k.ordered hbuilt hbare
  refine ⟨s, Attempt.bind_eq_ok.2 ⟨t, ht, hs⟩, fun row hrow => ?_⟩
  rw [hselects row, selects_lower k.ordered k.faithful hrow ht]

/-- A negated predicate is true where the predicate is false, false where it is true and unknown
where it is unknown. Lists follow the rules of the connectives. Over a scalar domain that has a
place for every literal, the range sets of a predicate and of its negation hold the rows of which
it is true and of which it is false. -/
theorem negation_is_three_valued :
    (∀ (p : Predicate) (row : Value), p.negate.truth row = (p.truth row).not) ∧
    (∀ (row : Value) (vs : List Value),
      (isIn vs).truth row = (or (vs.map (compare .eq))).truth row ∧
        (isNotIn vs).truth row = (and (vs.map (compare .ne))).truth row) ∧
    ∀ (k : Scalar) (p : Predicate),
      (∀ v ∈ p.literals, v.isNull = false → ∃ q, k.domain.place v = .ok q) →
      ∃ s c, (p.lower k.domain >>= Tree.evaluate).run.value = .ok s ∧
        (p.negate.lower k.domain >>= Tree.evaluate).run.value = .ok c ∧
        ∀ row : Value, k.domain.Row row →
          (s.contains row ↔ p.truth row = .yes) ∧ (c.contains row ↔ p.truth row = .no) := by
  refine ⟨fun p row => truth_negate row p, fun row vs => ⟨truth_isIn row vs, truth_isNotIn row vs⟩,
    fun k p hplaced => ?_⟩
  have hnone : p.literals.findSome? k.domain.refusal? = none := by
    refine List.findSome?_eq_none_iff.2 fun v hv => ?_
    cases hn : v.isNull with
    | true => exact if_pos hn
    | false =>
      obtain ⟨q, hq⟩ := hplaced v hv hn
      exact Scalar.refusal?_of_place hq
  have hnegate : p.negate.literals.findSome? k.domain.refusal? = none := by
    rw [← findSome?_placed, placed_negate, findSome?_placed, hnone]
  obtain ⟨s, hs, hyes⟩ := exists_range_set hnone
  obtain ⟨c, hc, hno⟩ := exists_range_set hnegate
  refine ⟨s, c, hs, hc, fun row hrow => ?_⟩
  rw [← Domain.isSome_point?_iff] at hrow
  refine ⟨hyes row hrow, ?_⟩
  rw [hno row hrow, truth_negate, Truth.not_eq_yes]

/-- In a list of null, `2.5` and `4` or beyond the literal, and in any case not null. -/
def listedOrBeyond (literal : Value) : Predicate :=
  .and [.not (.and [.isNotIn [.null, .decimal ((Decimal.ofScaled? 25 1).getD .zero), .int 4],
    .compare .lte literal]), .isNotNull]

/-- Over the integers this is true of `4` and false of null. Whether `5` is in the list is
unknown. -/
theorem negation_is_three_valued_listedOrBeyond :
    let d := Scalar.int.domain
    let p := listedOrBeyond (.int 7)
    (∀ v ∈ p.literals, v.isNull = false → ∃ q, d.place v = .ok q) ∧
      p.truth (.int 5) = .unknown ∧ p.negate.truth (.int 5) = .unknown ∧
      ∃ s c, (p.lower d >>= Tree.evaluate).run.value = .ok s ∧
        (p.negate.lower d >>= Tree.evaluate).run.value = .ok c ∧
        s.contains (.int 4) ∧ ¬s.contains (.int 5) ∧ ¬c.contains (.int 5) ∧ c.contains .null := by
  intro d p
  obtain ⟨hnegate, -, hsets⟩ := negation_is_three_valued
  have hplaced : ∀ v ∈ p.literals, v.isNull = false → ∃ q, d.place v = .ok q := by
    have hliterals : p.literals =
        [.null, .decimal ((Decimal.ofScaled? 25 1).getD .zero), .int 4, .int 7] := rfl
    rw [hliterals]
    simp only [List.forall_mem_cons]
    exact ⟨nofun, fun _ => ⟨.ceiling (.int 3), rfl⟩, fun _ => ⟨.member (.int 4), rfl⟩,
      fun _ => ⟨.member (.int 7), rfl⟩, nofun⟩
  have hfive : p.truth (.int 5) = .unknown := by decide
  obtain ⟨s, c, hs, hc, hrows⟩ := hsets .int p hplaced
  obtain ⟨hsfour, -⟩ := hrows (.int 4) (.inr ⟨.int 4, rfl⟩)
  obtain ⟨hsfive, hcfive⟩ := hrows (.int 5) (.inr ⟨.int 5, rfl⟩)
  obtain ⟨-, hcnull⟩ := hrows .null (.inl rfl)
  refine ⟨hplaced, hfive, by rw [hnegate, hfive, Truth.not], s, c, hs, hc, hsfour.2 ?_, ?_, ?_,
    hcnull.2 ?_⟩
  · decide
  · rw [hsfive, hfive]
    decide
  · rw [hcfive, hfive]
    decide
  · decide

end Predicate

end SearchArgument
