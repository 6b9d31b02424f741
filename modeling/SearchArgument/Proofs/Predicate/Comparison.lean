import SearchArgument.Predicate.Truth
import SearchArgument.Proofs.Domain.Scalar
import SearchArgument.Proofs.Predicate.Lower

/-! Comparisons by exact value. A literal bounds a range at the place that its domain gives it,
which may be the literal in another kind or the next member above it. As long as members compare
with places as with the literals themselves, the range holds the rows of which the comparison
is true, and never null. -/

namespace SearchArgument

/-- Members compare with the place of a literal as with the literal itself. -/
structure Domain.Faithful (d : Domain) : Prop where
  member {row r literal v : Value} : d.place row = .ok (.member r) →
    d.place literal = .ok (.member v) → d.compare r v = row.compareExact literal
  ceiling {row r literal v : Value} : d.place row = .ok (.member r) →
    d.place literal = .ok (.ceiling v) → row.compareExact literal ≠ .eq ∧
      (row.compareExact literal = .lt ↔ d.compare r v = .lt)

theorem Scalar.faithful (s : Scalar) : s.domain.Faithful where
  member := Scalar.compare_member
  ceiling := Scalar.compare_ceiling

variable {d : Domain} {row r literal : Value} {t : Strictness} {c : Cut}

/-! ### Cuts -/

theorem Domain.cut_finite {side : Side} (hl : literal.isNull = false)
    (h : (d.cut side t literal).run.value = .ok c) : c.coordinate.isFinite := by
  rw [value_cut, if_neg (by simp [hl])] at h
  split at h
  next => cases h
  next =>
    cases h
    rfl
  next =>
    split at h
    · cases h
      rfl
    · cases h

/-- How a cut of either side may lie to a point that it does not cut off. -/
def Side.passes : Side → Ordering → Bool
  | lower, o => o != .gt
  | upper, o => o != .lt

/-- How a value may compare with a bound that keeps it. -/
def Side.keeps : Side → Strictness → Ordering → Bool
  | lower, .opened, o => o == .gt
  | lower, .closed, o => o != .lt
  | upper, .opened, o => o == .lt
  | upper, .closed, o => o != .gt

theorem Cut.passes_finite (cmp : Value → Value → Ordering) (v r : Value) (side : Side)
    (t : Strictness) : side.passes ((Cut.finite v side t).comparePoint cmp (.finite r)) =
      side.keeps t (cmp v r).swap := by
  show side.passes ((cmp v r).then (Ord.compare (Cut.finite v side t).offset 0)) = _
  cases side <;> cases t <;> cases cmp v r <;> rfl

namespace Domain

section

variable (hd : d.Ordered) (hf : d.Faithful) (hn : row.isNull = false)
  (hr : d.place row = .ok (.member r)) (hl : literal.isNull = false)

include hd hf hn hr hl

/-- How the place of a literal compares with a row. -/
theorem compare_place {v : Value} :
    (d.place literal = .ok (.member v) → d.compare v r = (row.compareExact literal).swap) ∧
      (d.place literal = .ok (.ceiling v) → row.compareExact literal ≠ .eq ∧
        (row.compareExact literal = .lt ↔ d.compare v r = .gt)) := by
  have hrh : d.Holds r := ⟨row, hn, .inl hr⟩
  constructor
  · intro hv
    rw [← hf.member hr hv, hd.swap r v hrh ⟨literal, hl, .inl hv⟩]
  · intro hv
    rw [← hd.swap r v hrh ⟨literal, hl, .inr hv⟩, Ordering.swap_eq_gt]
    exact hf.ceiling hr hv

/-- A bound keeps a row as the comparison with its literal says. -/
theorem passes_cut {side : Side} (h : (d.cut side t literal).run.value = .ok c) :
    side.passes (c.comparePoint d.compare (.finite r)) =
      side.keeps t (row.compareExact literal) := by
  rw [value_cut, if_neg (by simp [hl])] at h
  split at h
  next => cases h
  next v hv =>
    cases h
    rw [Cut.passes_finite, (compare_place hd hf hn hr hl).1 hv, Ordering.swap_swap]
  next v hv =>
    split at h
    · cases h
      obtain ⟨hne, hlt⟩ := (compare_place hd hf hn hr hl).2 hv
      rw [Cut.passes_finite]
      -- a rounded bound is closed below and open above, whatever was asked for
      revert hne hlt
      cases side <;> cases t <;> cases row.compareExact literal <;> cases d.compare v r <;>
        simp +decide
    · cases h

end

end Domain

/-! ### Terms -/

theorem Span.covers_finite (cmp : Value → Value → Ordering) (s : Span) (r : Value) :
    s.covers cmp (.finite r) = (Side.passes .lower (s.lower.comparePoint cmp (.finite r)) &&
      Side.passes .upper (s.upper.comparePoint cmp (.finite r))) := by
  by_cases hall : s.isAll
  · obtain rfl := isAll_iff.1 hall
    rfl
  · simp [Span.covers, hall, Coordinate.isNull, Side.passes]

/-- Short of all points, only a span that begins at null holds it. -/
theorem Span.covers_null (cmp : Value → Value → Ordering) (s : Span) (h : s.isAll = false)
    (hl : s.lower.isNull = false) : s.covers cmp .null = false := by
  unfold Span.covers
  rw [h, Bool.false_or]
  generalize s.lower = a at hl
  rcases a with _ | _ | _ | ⟨v, side, t⟩
  · rfl
  · rfl
  · cases hl
  · rfl

theorem Span.isAll_of_isFinite {s : Span}
    (h : s.lower.coordinate.isFinite ∨ s.upper.coordinate.isFinite) : s.isAll = false := by
  by_contra hall
  obtain rfl := isAll_iff.1 (by simpa using hall)
  rcases h with h | h <;> cases h

theorem Cut.isNull_of_isFinite (h : c.coordinate.isFinite) : c.isNull = false := by
  cases c <;> first | rfl | cases h

namespace CompareOp

/-- The term of a comparison. An inequation has the one of the equation. -/
theorem change_spec (hd : d.Ordered) (hf : d.Faithful) {op : CompareOp} {i : Interval}
    (hl : literal.isNull = false)
    (h : ((Interval.unconstrained d).edit (op.change literal)).run.value = .ok i) :
    ∃ s : Span, i = .ofSpan d s ∧ s.covers d.compare .null = false ∧
      ∀ {row r}, row.isNull = false → d.place row = .ok (.member r) →
        s.covers d.compare (.finite r) =
          (if op = .ne then eq else op).holds (row.compareExact literal) := by
  cases op with
  | eq | ne =>
    simp only [change, Interval.edit, hl] at h
    obtain ⟨a, ha, h⟩ := Attempt.bind_eq_ok.1 h
    obtain ⟨b, hb, h⟩ := Attempt.bind_eq_ok.1 h
    cases h
    have hfin := Domain.cut_finite hl ha
    refine ⟨⟨a, b⟩, rfl, Span.covers_null _ _ (Span.isAll_of_isFinite (.inl hfin))
      (Cut.isNull_of_isFinite hfin), fun {row r} hn hr => ?_⟩
    rw [Span.covers_finite, Domain.passes_cut hd hf hn hr hl ha,
      Domain.passes_cut hd hf hn hr hl hb]
    cases row.compareExact literal <;> rfl
  | lt | lte =>
    obtain ⟨b, hb, h⟩ := Attempt.bind_eq_ok.1 h
    cases h
    refine ⟨⟨.negInfinity, b⟩, rfl, Span.covers_null _ _
      (Span.isAll_of_isFinite (.inr (Domain.cut_finite hl hb))) rfl, fun {row r} hn hr => ?_⟩
    rw [Span.covers_finite, Domain.passes_cut hd hf hn hr hl hb]
    rfl
  | gt | gte =>
    obtain ⟨a, ha, h⟩ := Attempt.bind_eq_ok.1 h
    cases h
    have hfin := Domain.cut_finite hl ha
    refine ⟨⟨a, .posInfinity⟩, rfl, Span.covers_null _ _ (Span.isAll_of_isFinite (.inl hfin))
      (Cut.isNull_of_isFinite hfin), fun {row r} hn hr => ?_⟩
    rw [Span.covers_finite, Domain.passes_cut hd hf hn hr hl ha]
    exact Bool.and_true _

theorem contains_change (hd : d.Ordered) (hf : d.Faithful) {op : CompareOp} {i : Interval}
    (hl : literal.isNull = false) (hp : (d.point? row).isSome)
    (h : ((Interval.unconstrained d).edit (op.change literal)).run.value = .ok i) :
    i.contains row ↔ row.isNull = false ∧
      (if op = .ne then eq else op).holds (row.compareExact literal) := by
  obtain ⟨s, rfl, hnull, hfinite⟩ := change_spec hd hf hl h
  obtain ⟨p, hp⟩ := Option.isSome_iff_exists.1 hp
  have hcontains : (Interval.ofSpan d s).contains row = s.covers d.compare p := by
    simp [Interval.contains, Interval.ofSpan, hp]
  rw [hcontains]
  rcases Domain.point?_eq_some.1 hp with ⟨hn, rfl⟩ | ⟨hn, r, hr, rfl⟩
  · simp [hnull, hn]
  · rw [hfinite hn hr, and_iff_right hn]

/-- The tree of a comparison selects the rows of which it is true. -/
theorem selects_lower (hd : d.Ordered) (hf : d.Faithful) {op : CompareOp} {t : Tree}
    (hl : literal.isNull = false) (hp : (d.point? row).isSome)
    (h : (op.lower d literal).run.value = .ok t) :
    t.selects row ↔ row.isNull = false ∧ op.holds (row.compareExact literal) := by
  obtain ⟨i, hi, rfl⟩ := lower_eq_ok.1 h
  have hcontains := contains_change hd hf hl hp hi
  by_cases hop : op = .ne
  · subst hop
    rw [if_pos rfl] at hcontains ⊢
    cases hn : row.isNull with
    | true => simp [Tree.selects, hn]
    | false =>
      have hhit : i.contains row = (row.compareExact literal == .eq) := by
        rw [Bool.eq_iff_iff, hcontains, and_iff_right hn]
        rfl
      simp [Tree.selects, Tree.anySelects, hn, hp, hhit, holds]
  · rw [if_neg hop] at hcontains ⊢
    exact hcontains

end CompareOp

end SearchArgument
