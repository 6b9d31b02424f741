import SearchArgument.Proofs.Tree.FixedPoint

/-! What an explanation tells. The ranges of a canonical range set are its spans from just above
null on, so they hold the same values, in the same order and with the same gaps. They fix all seams
but the one below null, which the report on null fixes; so results have equal explanations exactly
if they are equal once each is evaluated again. -/

namespace SearchArgument

variable {d : Domain} {K : Type} [LinearOrder K] {σ : d.Scale K}

/-! ### Bounds -/

namespace Bound

/-- The cut that bounds values from below as the bound does. -/
def toLower : Bound → Cut
  | unbounded => .null .lower .opened
  | included v => .finite v .lower .closed
  | excluded v => .finite v .lower .opened

/-- The cut that bounds values from above as the bound does. -/
def toUpper : Bound → Cut
  | unbounded => .posInfinity
  | included v => .finite v .upper .closed
  | excluded v => .finite v .upper .opened

variable {b b' : Bound}

attribute [local simp] toLower toUpper Domain.Scale.seam Domain.Scale.floor compare_gt_iff_gt
  compare_lt_iff_lt le_iff_lt_or_eq

theorem toLower_beq_iff : b.toLower == b'.toLower ↔ b == b' := by
  cases b <;> cases b' <;>
    simp [BEq.beq, Cut.coordinate, Cut.side, Cut.strictness, Coordinate.rank]

theorem toUpper_beq_iff : b.toUpper == b'.toUpper ↔ b == b' := by
  cases b <;> cases b' <;>
    simp [BEq.beq, Cut.coordinate, Cut.side, Cut.strictness, Coordinate.rank]

/-! The bounds that follow name held values. They are compared as their seams are. -/

theorem admitsFrom_iff (hb : d.Lower b.toLower) {v : Value} (hv : d.Holds v) :
    b.admitsFrom d.compare v ↔ σ.seam b.toLower ≤ σ.floor (.finite v) := by
  cases b with
  | unbounded => simp [admitsFrom]
  | included w | excluded w =>
    cases hb with
    | finite _ hw => simp [admitsFrom, σ.compare_eq hw hv]

theorem admitsTo_iff (hb : d.Upper b.toUpper) {v : Value} (hv : d.Holds v) :
    b.admitsTo d.compare v ↔ σ.floor (.finite v) < σ.seam b.toUpper := by
  cases b with
  | unbounded => simp [admitsTo]
  | included w | excluded w =>
    cases hb with
    | finite _ hw => simp [admitsTo, σ.compare_eq hv hw]

theorem opens_iff (hb : d.Lower b.toLower) (hb' : d.Upper b'.toUpper) :
    b.opens d.compare b' ↔ σ.seam b.toLower < σ.seam b'.toUpper := by
  cases b <;> cases b' <;> cases hb <;> cases hb' <;> simp [opens, σ.compare_eq, *]

theorem parts_iff (hb : d.Upper b.toUpper) (hb' : d.Lower b'.toLower) :
    b.parts d.compare b' ↔ σ.seam b.toUpper < σ.seam b'.toLower := by
  cases b <;> cases b' <;> cases hb <;> cases hb' <;> simp [parts, σ.compare_eq, *]

theorem seam_toLower_ofCut {a : Cut} (ha : d.Lower a) :
    σ.seam (ofCut a).toLower = max (σ.seam a) .aboveNull := by
  rcases ha with _ | (_ | _) | ⟨_ | _, hv⟩ <;> simp [ofCut]

theorem lower_toLower_ofCut {a : Cut} (ha : d.Lower a) : d.Lower (ofCut a).toLower := by
  rcases ha with _ | (_ | _) | ⟨_ | _, hv⟩
  all_goals first | exact .null _ | exact .finite _ hv

theorem toUpper_ofCut {a : Cut} (ha : d.Upper a) (hn : a.isNull = false) :
    (ofCut a).toUpper = a := by
  rcases ha with _ | (_ | _) | ⟨_ | _, hv⟩ <;> first | rfl | cases hn

end Bound

/-! ### Ranges -/

namespace ValueRange

/-- The span from just above null on that holds the values of the range. -/
def span (r : ValueRange) : Span := ⟨r.lower.toLower, r.upper.toUpper⟩

variable {r r' : ValueRange}

theorem span_beq_iff : r.span == r'.span ↔ r == r' := by
  show (_ && _) = true ↔ (_ && _) = true
  rw [Bool.and_eq_true, Bool.and_eq_true]
  exact and_congr Bound.toLower_beq_iff Bound.toUpper_beq_iff

theorem map_span_beq_iff {xs ys : List ValueRange} : xs.map span == ys.map span ↔ xs == ys := by
  induction xs generalizing ys with
  | nil => cases ys <;> simp
  | cons r rs ih =>
    cases ys with
    | nil => simp
    | cons r' rs' =>
      simp only [List.map_cons, List.cons_beq_cons, Bool.and_eq_true, span_beq_iff, ih]

theorem lower_span_ne (r : ValueRange) : r.span.lower ≠ .negInfinity := by
  rw [span]
  cases r.lower <;> simp [Bound.toLower]

theorem isAll_span (r : ValueRange) : r.span.isAll = false := by
  simp [Span.isAll, r.lower_span_ne]

theorem isFromNull_span (r : ValueRange) : r.span.isFromNull = false := by
  rw [Span.isFromNull, span]
  cases r.lower <;> simp [Bound.toLower, Cut.isNull, Cut.isClosed, Cut.coordinate, Cut.strictness,
    Coordinate.isNull]

/-- A range holds the values whose seams its span takes up. -/
theorem holds_iff (hr : d.Bounds r.span) {v : Value} (hv : d.Holds v) :
    r.holds d.compare v ↔ σ.floor (.finite v) ∈ σ.extent r.span := by
  rw [holds, Bool.and_eq_true, Bound.admitsFrom_iff (σ := σ) hr.lower hv,
    Bound.admitsTo_iff (σ := σ) hr.upper hv, σ.extent_of_not_isAll r.isAll_span]
  rfl

end ValueRange

/-! ### Spans of values -/

/-- What the explanation of a range set makes of a span. -/
def Span.range (s : Span) : ValueRange := ⟨.ofCut s.lower, .ofCut s.upper⟩

/-- The parts of spans from just above null on, without those that hold no values. -/
def Span.values (spans : List Span) : List Span :=
  (spans.filter (!·.upper.isNull)).map fun s => s.range.span

theorem RangeSet.map_span_ranges (s : RangeSet) :
    s.explain.ranges.map ValueRange.span = Span.values s.spans := by
  rw [explain, List.map_map]
  rfl

namespace Domain.Scale

variable {a : Span} {spans xs ys : List Span}

theorem aboveNull_lt_seam_upper {b : Cut} (hb : d.Upper b) (hn : b.isNull = false) :
    .aboveNull < σ.seam b := by
  rcases hb with _ | (_ | _) | ⟨_ | _, hv⟩
  case null.opened | null.closed => cases hn
  all_goals simp [seam]

theorem seam_upper_le_aboveNull {b : Cut} (hb : d.Upper b) (hn : b.isNull) :
    σ.seam b ≤ .aboveNull := by
  rcases hb with _ | (_ | _) | ⟨_ | _, hv⟩
  case null.opened | null.closed => simp [seam]
  all_goals cases hn

theorem range_spec (ha : d.Bounds a) (hn : a.upper.isNull = false) :
    d.Bounds a.range.span ∧ σ.seam a.range.span.lower = max (σ.seam a.lower) .aboveNull ∧
      a.range.span.upper = a.upper := by
  have hupper : a.range.span.upper = a.upper := Bound.toUpper_ofCut ha.upper hn
  exact ⟨⟨Bound.lower_toLower_ofCut ha.lower, hupper ▸ ha.upper⟩,
    Bound.seam_toLower_ofCut ha.lower, hupper⟩

theorem mem_extent_range (ha : d.Bounds a) (hn : a.upper.isNull = false) {x : Seam K} :
    x ∈ σ.extent a.range.span ↔ x ∈ σ.extent a ∧ .aboveNull ≤ x := by
  obtain ⟨-, hlower, hupper⟩ := range_spec (σ := σ) ha hn
  have hstart : max (σ.seam a.lower) .aboveNull = max (σ.start a) .aboveNull := by
    by_cases hall : a.isAll
    · rw [Span.isAll_iff.1 hall]
      rfl
    · rw [σ.start_of_not_isAll (by simpa using hall)]
  rw [σ.extent_of_not_isAll a.range.isAll_span, mem_between, mem_extent, hlower, hupper, hstart,
    max_le_iff, and_right_comm]

/-- The parts that hold values take up all seams but the one below null. -/
theorem mem_extents_values (hb : ∀ a ∈ spans, d.Bounds a) {x : Seam K} :
    x ∈ σ.extents (Span.values spans) ↔ x ∈ σ.extents spans ∧ .aboveNull ≤ x := by
  simp only [mem_extents, Span.values, List.mem_map, exists_exists_and_eq_and, List.mem_filter,
    Bool.not_eq_true']
  constructor
  · rintro ⟨a, ⟨ha, hn⟩, hx⟩
    obtain ⟨hx, habove⟩ := (mem_extent_range (hb a ha) hn).1 hx
    exact ⟨⟨a, ha, hx⟩, habove⟩
  · rintro ⟨⟨a, ha, hx⟩, habove⟩
    -- a span that ends at null ends before all values
    have hn : a.upper.isNull = false := by
      by_contra hn
      have hle := seam_upper_le_aboveNull (σ := σ) (hb a ha).upper (by simpa using hn)
      exact absurd (habove.trans_lt hx.2) (not_lt.2 hle)
    exact ⟨a, ⟨ha, hn⟩, (mem_extent_range (hb a ha) hn).2 ⟨hx, habove⟩⟩

/-- Seams are the same exactly if the one below null is in both or neither and the parts that hold
values have the same. -/
theorem extents_eq_iff_values (hx : ∀ a ∈ xs, d.Bounds a) (hy : ∀ a ∈ ys, d.Bounds a) :
    σ.extents xs = σ.extents ys ↔ (.belowNull ∈ σ.extents xs ↔ .belowNull ∈ σ.extents ys) ∧
      σ.extents (Span.values xs) = σ.extents (Span.values ys) := by
  simp only [Set.ext_iff, mem_extents_values hx, mem_extents_values hy, and_congr_left_iff]
  constructor
  · intro he
    exact ⟨he _, fun x _ => he x⟩
  · rintro ⟨hbelow, habove⟩ x
    by_cases hne : x = .belowNull
    · rw [hne, hbelow]
    · exact habove x (Seam.aboveNull_le_of_ne hne)

theorem Canonical.values (h : σ.Canonical spans) : σ.Canonical (Span.values spans) := by
  have hmem : ∀ {a}, a ∈ spans.filter (!·.upper.isNull) → a ∈ spans ∧ a.upper.isNull = false := by
    intro a ha
    simpa using List.mem_filter.1 ha
  have hspec := fun a ha => range_spec (σ := σ) (h.bounds a (hmem ha).1) (hmem ha).2
  refine ⟨⟨?_, ?_, ?_⟩, ?_⟩
  · exact List.forall_mem_map.2 fun a ha => (hspec a ha).1
  · refine List.forall_mem_map.2 fun a ha => ?_
    obtain ⟨hmem, hn⟩ := hmem ha
    rw [(hspec a ha).2.1, (hspec a ha).2.2]
    exact max_lt (h.proper a hmem) (aboveNull_lt_seam_upper (h.bounds a hmem).upper hn)
  · refine List.pairwise_map.2 ((h.apart.filter _).imp_of_mem fun {a b} ha hb hlt => ?_)
    rw [(hspec a ha).2.2, (hspec b hb).2.1]
    exact hlt.trans_le (le_max_left _ _)
  · exact List.forall_mem_map.2 fun a _ => a.range.isFromNull_span

theorem settled_values (spans : List Span) : Span.Settled (Span.values spans) :=
  List.forall_mem_map.2 fun a _ hinf => absurd hinf a.range.lower_span_ne

/-- The parts that hold values are equal exactly if their seams are. -/
theorem Canonical.values_beq_iff (hσ : σ.Exact) (hx : σ.Canonical xs) (hy : σ.Canonical ys) :
    Span.values xs == Span.values ys ↔
      σ.extents (Span.values xs) = σ.extents (Span.values ys) := by
  rw [hx.values.beq_iff hσ hy.values]
  refine ⟨congrArg Form.seams, fun he => Form.ext he ?_⟩
  rw [eq_false (hx.values.settled_iff.1 (settled_values xs)),
    eq_false (hy.values.settled_iff.1 (settled_values ys))]

/-- Canonical range sets of the same seams are accessed alike. -/
theorem Canonical.access_eq (hx : σ.Canonical xs) (hy : σ.Canonical ys)
    (he : σ.extents xs = σ.extents ys) : (RangeSet.mk d xs).access = (RangeSet.mk d ys).access := by
  apply RangeSet.access_congr
  apply forall₂_imp_of_mem (hx.forall₂_seams hy he)
  rintro a b ha hb ⟨hall, hlower, hupper⟩
  exact ⟨hall, σ.isPoint_congr (hx.bounds a ha) (hy.bounds b hb) hlower hupper⟩

end Domain.Scale

/-! ### Explanations -/

namespace RangeSet

variable {s t : RangeSet}

theorem canonical_ranges (h : σ.Canonical s.spans) :
    σ.Canonical (s.explain.ranges.map ValueRange.span) := by
  rw [map_span_ranges]
  exact h.values

theorem bounds_of_mem_ranges (h : σ.Canonical s.spans) {r : ValueRange}
    (hr : r ∈ s.explain.ranges) : d.Bounds r.span :=
  (canonical_ranges h).bounds _ (List.mem_map_of_mem hr)

theorem apart_ranges (h : σ.Canonical s.spans) :
    s.explain.ranges.Pairwise fun r r' => σ.seam r.span.upper < σ.seam r'.span.lower :=
  List.pairwise_map.1 (canonical_ranges h).apart

/-- A value is contained exactly if a range holds it. -/
theorem contains_iff_ranges (hd : s.domain = d) (h : σ.Canonical s.spans) {probe v : Value}
    (hp : d.point? probe = some (.finite v)) (hv : d.Holds v) :
    s.contains probe ↔ ∃ r ∈ s.explain.ranges, r.holds d.compare v := by
  have habove : .aboveNull ≤ σ.floor (.finite v) := Seam.aboveNull_le_beside _ _
  have hranges : σ.floor (.finite v) ∈ σ.extents (s.explain.ranges.map ValueRange.span) ↔
      σ.floor (.finite v) ∈ σ.extents s.spans := by
    rw [map_span_ranges, Domain.Scale.mem_extents_values h.bounds, and_iff_left habove]
  rw [contains_iff_of_point (σ := σ) hd h.bounds hp, ← hranges, Domain.Scale.mem_extents]
  simp only [List.mem_map, exists_exists_and_eq_and]
  refine exists_congr fun r => and_congr_right fun hr => ?_
  exact (ValueRange.holds_iff (bounds_of_mem_ranges h hr) hv).symm

/-- No two ranges hold one value. -/
theorem pairwise_not_holds (h : σ.Canonical s.spans) {v : Value} (hv : d.Holds v) :
    s.explain.ranges.Pairwise fun r r' => ¬(r.holds d.compare v ∧ r'.holds d.compare v) := by
  refine (apart_ranges h).imp_of_mem fun {r r'} hr hr' hlt => ?_
  rw [ValueRange.holds_iff (σ := σ) (bounds_of_mem_ranges h hr) hv,
    ValueRange.holds_iff (σ := σ) (bounds_of_mem_ranges h hr') hv]
  rintro ⟨⟨-, hupper⟩, hlower, -⟩
  rw [σ.start_of_not_isAll r'.isAll_span] at hlower
  exact lt_irrefl _ ((hupper.trans hlt).trans_le hlower)

theorem isProper_of_mem_ranges (h : σ.Canonical s.spans) {r : ValueRange}
    (hr : r ∈ s.explain.ranges) : r.isProper d.compare := by
  have hb := bounds_of_mem_ranges h hr
  exact (Bound.opens_iff hb.lower hb.upper).2
    ((canonical_ranges h).proper _ (List.mem_map_of_mem hr))

theorem pairwise_isBefore (h : σ.Canonical s.spans) :
    s.explain.ranges.Pairwise fun r r' => r.isBefore d.compare r' := by
  refine (apart_ranges h).imp_of_mem fun {r r'} hr hr' hlt => ?_
  exact (Bound.parts_iff (bounds_of_mem_ranges h hr).upper (bounds_of_mem_ranges h hr').lower).2 hlt

theorem explain_beq_parts : s.explain == t.explain ↔ s.access = t.access ∧
    s.contains .null = t.contains .null ∧ s.explain.ranges == t.explain.ranges := by
  show (decide (s.access = t.access) && decide (s.contains .null = t.contains .null) &&
    s.explain.ranges == t.explain.ranges) = true ↔ _
  simp [and_assoc]

/-- Canonical range sets have equal explanations exactly if they have the same seams. -/
theorem explain_beq_iff (hσ : σ.Exact) (hs : s.domain = d) (ht : t.domain = d)
    (hcs : σ.Canonical s.spans) (hct : σ.Canonical t.spans) :
    s.explain == t.explain ↔ σ.extents s.spans = σ.extents t.spans := by
  have hranges : s.explain.ranges == t.explain.ranges ↔
      σ.extents (Span.values s.spans) = σ.extents (Span.values t.spans) := by
    rw [← ValueRange.map_span_beq_iff, map_span_ranges, map_span_ranges, hcs.values_beq_iff hσ hct]
  have haccess : σ.extents s.spans = σ.extents t.spans → s.access = t.access := by
    obtain ⟨e, xs⟩ := s
    obtain ⟨f, ys⟩ := t
    obtain rfl : e = d := hs
    obtain rfl : f = e := ht
    exact hcs.access_eq hct
  rw [explain_beq_parts, hranges, Bool.eq_iff_iff, contains_null_iff (σ := σ) hs hcs.bounds,
    contains_null_iff (σ := σ) ht hct.bounds,
    ← Domain.Scale.extents_eq_iff_values hcs.bounds hct.bounds]
  exact and_iff_right_of_imp haccess

end RangeSet

namespace Tree

/-- The ranges of an explanation ascend with gaps between them and hold each value of the result
once, and null is reported apart. Results have equal explanations exactly if they are equal after
a second evaluation. -/
theorem explanation_faithful (k : Scalar) {t : Tree} {s : RangeSet}
    (ht : t.Built (· = k.domain)) (h : t.evaluate.run.value = .ok s) :
    (∀ probe v, k.domain.place probe = .ok (.member v) →
      (s.contains probe ↔ ∃ r ∈ s.explain.ranges, r.holds k.domain.compare v) ∧
      s.explain.ranges.Pairwise fun r r' =>
        ¬(r.holds k.domain.compare v ∧ r'.holds k.domain.compare v)) ∧
    (∀ r ∈ s.explain.ranges, r.isProper k.domain.compare) ∧
    (s.explain.ranges.Pairwise fun r r' => r.isBefore k.domain.compare r') ∧
    s.explain.matchesNull = s.contains .null ∧
    ∀ {u : Tree} {s' : RangeSet}, u.Built (· = k.domain) → u.evaluate.run.value = .ok s' →
      (s.explain == s'.explain ↔ t.AgreeSettled u) := by
  obtain ⟨K, _, σ, hexact⟩ := k.exists_exact
  obtain ⟨hd, hcan, hform⟩ := ht.sound.evaluate_spec (σ := σ) h
  refine ⟨fun probe v hplace => ?_, fun r => RangeSet.isProper_of_mem_ranges hcan,
    RangeSet.pairwise_isBefore hcan, rfl, fun {u s'} hu h' => ?_⟩
  · have hn := Scalar.isNull_of_place hplace
    have hp := Domain.point?_eq_some.2 (.inr ⟨hn, v, hplace, rfl⟩)
    have hv : k.domain.Holds v := ⟨probe, hn, .inl hplace⟩
    exact ⟨RangeSet.contains_iff_ranges hd hcan hp hv, RangeSet.pairwise_not_holds hcan hv⟩
  · obtain ⟨hd', hcan', hform'⟩ := hu.sound.evaluate_spec (σ := σ) h'
    rw [Whole.agreeSettled_iff hexact (whole_iff.2 ⟨ht, s, h⟩) (whole_iff.2 ⟨hu, s', h'⟩),
      RangeSet.explain_beq_iff hexact hd hd' hcan hcan', ← hform, ← hform']
    rfl

/-- The integers below three or from five on again. The two results spell the lower end in two
ways and are explained alike. -/
theorem explanation_faithful_fromFive :
    let below : Span := ⟨.negInfinity, .finite (.int 3) .upper .opened⟩
    let respelled : Span := ⟨.null .lower .opened, .finite (.int 3) .upper .opened⟩
    let upward : Span := ⟨.finite (.int 5) .lower .closed, .posInfinity⟩
    let s : RangeSet := ⟨Scalar.int.domain, [below, upward]⟩
    let s' : RangeSet := ⟨Scalar.int.domain, [respelled, upward]⟩
    let t := node Scalar.int.domain .union [belowThree, fromFive]
    let u := node Scalar.int.domain .union [underThree, fromFive]
    t.evaluate.run.value = .ok s ∧ u.evaluate.run.value = .ok s' ∧
      Scalar.int.domain.place (.uint 7) = .ok (.member (.int 7)) ∧ s.contains (.uint 7) ∧
      s.explain.ranges =
        [⟨.unbounded, .excluded (.int 3)⟩, ⟨.included (.int 5), .unbounded⟩] ∧
      s.explain == s'.explain ∧ t.AgreeSettled u := by
  intro below respelled upward s s' t u
  have ht := built_union_fromFive whole_belowThree.built
  have hu := built_union_fromFive built_underThree
  have hs : t.evaluate.run.value = .ok s := rfl
  have hs' : u.evaluate.run.value = .ok s' := rfl
  have hranges : s.explain.ranges =
      [⟨.unbounded, .excluded (.int 3)⟩, ⟨.included (.int 5), .unbounded⟩] := rfl
  have hexplain : s.explain == s'.explain := rfl
  obtain ⟨hvalues, -, -, -, hagree⟩ := explanation_faithful .int ht hs
  have hseven : s.contains (.uint 7) := by
    rw [(hvalues (.uint 7) (.int 7) rfl).1, hranges]
    exact ⟨_, List.mem_cons_of_mem _ List.mem_cons_self, rfl⟩
  exact ⟨hs, hs', rfl, hseven, hranges, hexplain, (hagree hu hs').1 hexplain⟩

end Tree

end SearchArgument
