import SearchArgument.Proofs.Predicate.Comparison
import SearchArgument.Proofs.Predicate.Literals

/-! Bounds of numeric domains. A literal that bounds a range is placed in the kind of the domain
and perhaps rounded up, and the strictness of its cut changes with it, but the members on either
side stay those that exact comparison with the literal puts there. Values of a scalar domain are
placed on themselves, so a bound that is set again from its own value stays as it is. -/

namespace SearchArgument

variable {d : Domain} {k : Scalar} {literal probe : Value}

/-! ### Members -/

namespace Scalar

/-- Numbers are what the numeric domains place, and nothing else. -/
theorem exists_number (hk : k.family = .numeric) {p : Placement}
    (h : k.place probe = .ok p) : ∃ q, probe.number? = some q := by
  unfold place at h
  split at h
  · cases h
  · split at h
    · cases h
    next hfamily =>
      have hfamily : probe.family = .numeric := (not_not.1 hfamily).trans hk
      cases probe with
      | decimal | int | uint => exact ⟨_, rfl⟩
      | null | bool | text => cases hfamily

end Scalar

/-- An endpoint that is set again from its own value stays as it is, and nothing is reported. -/
theorem Endpoint.setFinite_self {e : Endpoint} {v : Value} {side : Side} {t : Strictness}
    (he : e.Built (· = k.domain)) (hc : e.cut = .finite v side t) :
    e.setFinite side t v = pure e := by
  obtain ⟨hd, hcut⟩ := he.sound
  have hv : k.domain.Holds v := by
    rw [hc] at hcut
    obtain hcut | hcut := hcut <;> cases hcut <;> assumption
  obtain ⟨d, c⟩ := e
  obtain rfl : d = k.domain := hd
  obtain rfl : c = .finite v side t := hc
  rw [setFinite, (Scalar.member_of_holds hv).cut_eq, pure_bind]

/-! ### Comparisons -/

namespace CompareOp

theorem effect_change (op : CompareOp) (i : Interval) (v : Value) :
    (i.edit (op.change v)).effect = forM (op.placed v) i.domain.check := by
  have hone : forM [v] i.domain.check = i.domain.check v := by simp
  cases op with
  | eq | ne => exact i.effect_setPoint v
  | lt | lte => exact (i.effect_setUpper _ v).trans hone.symm
  | gt | gte => exact (i.effect_setLower _ v).trans hone.symm

/-- A literal that the domain does not refuse can be set. -/
theorem exists_edit (op : CompareOp) {i : Interval} {v : Value}
    (h : i.domain.refusal? v = none) :
    ∃ i', (i.edit (op.change v)).run.value = .ok i' := by
  have hnone : (op.placed v).findSome? i.domain.refusal? = none := by
    cases op <;> simp [placed, h]
  have heffect : (i.edit (op.change v)).effect.run.value = .ok () := by
    rw [effect_change, Domain.value_forM_check, hnone]
  rw [Attempt.value_effect] at heffect
  cases hi : (i.edit (op.change v)).run.value with
  | ok i' => exact ⟨i', rfl⟩
  | error f =>
    rw [hi] at heffect
    cases heffect

/-- The edit of a comparison keeps the numbers that compare with the literal as it says. -/
theorem keeps_change (op : CompareOp) (hop : op ≠ .ne) (hk : k.family = .numeric) {l : ℚ}
    (hl : literal.number? = some l) (h : k.domain.refusal? literal = none) :
    (op.change literal).Keeps k.domain fun p => op.holds (Ord.compare p l) := by
  have hnull : literal.isNull = false := by
    cases literal with
    | null => cases hl
    | bool | decimal | int | text | uint => rfl
  obtain ⟨i, hi⟩ := op.exists_edit (i := .unconstrained k.domain) h
  refine ⟨i, hi, fun probe r hr => ?_⟩
  obtain ⟨p, hp⟩ := Scalar.exists_number hk hr
  have hn : probe.isNull = false := Scalar.isNull_of_place hr
  have hpoint : k.domain.point? probe = some (.finite r) :=
    Domain.point?_eq_some.2 (.inr ⟨hn, r, hr, rfl⟩)
  have hcontains := contains_change k.ordered k.faithful hnull
    (Option.isSome_iff_exists.2 ⟨_, hpoint⟩) hi
  refine ⟨p, hp, ?_⟩
  rw [hcontains, if_neg hop, Value.compareExact_of_number hp hl, and_iff_right hn]

end CompareOp

namespace Interval

/-- Over a numeric domain a literal that can bound a range bounds it as exact comparison of
numbers has it, whatever the kinds of literal and probe. An endpoint that is set again from its
own value, side and strictness stays the same, and no rounding is reported. -/
theorem numeric_bounds_exact (hk : k.family = .numeric) :
    (∀ (literal : Value) (l : ℚ), literal.number? = some l → k.domain.refusal? literal = none →
      (Edit.setLower literal .opened).Keeps k.domain (l < ·) ∧
      (Edit.setLower literal .closed).Keeps k.domain (l ≤ ·) ∧
      (Edit.setUpper literal .opened).Keeps k.domain (· < l) ∧
      (Edit.setUpper literal .closed).Keeps k.domain (· ≤ l) ∧
      (Edit.setPoint literal).Keeps k.domain (· = l)) ∧
    ∀ (e : Endpoint) (v : Value) (side : Side) (t : Strictness), e.Built (· = k.domain) →
      e.cut = .finite v side t → (e.setFinite side t v).run = ⟨.ok e, []⟩ := by
  constructor
  · intro literal l hl h
    have hkeeps : ∀ (op : CompareOp) {test : ℚ → Prop}, op ≠ .ne →
        (∀ p, op.holds (Ord.compare p l) ↔ test p) → (op.change literal).Keeps k.domain test :=
      fun op _ hop hiff => funext (fun p => propext (hiff p)) ▸ op.keeps_change hop hk hl h
    refine ⟨hkeeps .gt nofun fun p => ?_, hkeeps .gte nofun fun p => ?_,
      hkeeps .lt nofun fun p => ?_, hkeeps .lte nofun fun p => ?_, hkeeps .eq nofun fun p => ?_⟩
    · simp [CompareOp.holds, compare_gt_iff_gt]
    · simp [CompareOp.holds, compare_lt_iff_lt]
    · simp [CompareOp.holds, compare_lt_iff_lt]
    · simp [CompareOp.holds, compare_gt_iff_gt]
    · simp [CompareOp.holds]
  · intro e v side t he hc
    rw [Endpoint.setFinite_self he hc]
    rfl

theorem numeric_bounds_exact_minusHalf :
    let d := Scalar.int.domain
    let literal : Value := .decimal .minusHalf
    let e : Endpoint := ⟨d, .finite (.int 0) .upper .opened⟩
    literal.number? = some (-1 / 2) ∧ d.refusal? literal = none ∧
      (Edit.setLower literal .opened).Keeps d (-1 / 2 < ·) ∧
      (Edit.setUpper literal .closed).Keeps d (· ≤ -1 / 2) ∧
      (Edit.setPoint literal).Keeps d (· = -1 / 2) ∧
      ((Endpoint.fresh d).setFinite .upper .closed literal).run = ⟨.ok e, [.discretized]⟩ ∧
      (e.setFinite .upper .opened (.int 0)).run = ⟨.ok e, []⟩ := by
  intro d literal e
  obtain ⟨hbounds, hagain⟩ := numeric_bounds_exact (k := .int) rfl
  have hnumber : literal.number? = some (-1 / 2) := congrArg some Decimal.toRat_minusHalf
  obtain ⟨hlower, -, -, hupper, hpoint⟩ := hbounds literal (-1 / 2) hnumber rfl
  have hset : ((Endpoint.fresh d).setFinite .upper .closed literal).run =
      ⟨.ok e, [.discretized]⟩ := rfl
  have he : e.Built (· = d) := .finite (.fresh rfl) (congrArg Recorded.value hset)
  exact ⟨hnumber, rfl, hlower, hupper, hpoint, hset, hagain e _ _ _ he rfl⟩

end Interval

end SearchArgument
