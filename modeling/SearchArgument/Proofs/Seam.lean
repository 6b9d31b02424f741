import Mathlib.Data.Prod.Lex
import Mathlib.Order.Lattice
import SearchArgument.Proofs.Domain.Scale
import SearchArgument.Span

/-! Seams: the places where the line of a domain can be cut. There is one seam on either
side of the null marker, one on either side of each class of values, and one above them
all. Negative infinity lies on the seam behind the null marker, since no value comes
between. A cut takes its seam from both its coordinate and its side, so `< 7` and `≥ 7` lie
on one seam and `≤ 7` and `> 7` on the next. -/

namespace SearchArgument

inductive Seam (K : Type) where
  | belowNull
  | aboveNull
  | beside (k : K) (above : Bool)
  | top

namespace Seam

variable {K : Type}

def key : Seam K → WithBot (WithBot (WithTop (K ×ₗ Bool)))
  | belowNull => ⊥
  | aboveNull => .some ⊥
  | beside k above => .some (.some (.some (toLex (k, above))))
  | top => .some (.some ⊤)

theorem key_injective : Function.Injective (key : Seam K → _) := by
  intro x y h
  cases x <;> cases y <;> simp_all [key, -WithBot.coe_top]

noncomputable instance [LinearOrder K] : LinearOrder (Seam K) := .lift' key key_injective

variable [LinearOrder K]

theorem le_iff {x y : Seam K} : x ≤ y ↔ x.key ≤ y.key := Iff.rfl

theorem lt_iff {x y : Seam K} : x < y ↔ x.key < y.key := Iff.rfl

@[simp] theorem belowNull_le (x : Seam K) : belowNull ≤ x := by simp [le_iff, key]

@[simp] theorem not_lt_belowNull (x : Seam K) : ¬x < belowNull := not_lt.2 (belowNull_le x)

@[simp] theorem le_top (x : Seam K) : x ≤ top := by
  cases x <;> simp [le_iff, key]

@[simp] theorem belowNull_lt_aboveNull : belowNull < (aboveNull : Seam K) := by
  simp [lt_iff, key]

@[simp] theorem aboveNull_le_beside (k : K) (above : Bool) : aboveNull ≤ beside k above := by
  simp [le_iff, key]

@[simp] theorem aboveNull_lt_beside (k : K) (above : Bool) : aboveNull < beside k above := by
  simp [lt_iff, key]

@[simp] theorem beside_lt_top (k : K) (above : Bool) : beside k above < top := by
  simp [lt_iff, key, -WithBot.coe_top]

@[simp] theorem aboveNull_lt_top : aboveNull < (top : Seam K) := by
  simp [lt_iff, key, -WithBot.coe_top]

@[simp] theorem belowNull_lt_beside (k : K) (above : Bool) : belowNull < beside k above :=
  belowNull_lt_aboveNull.trans (aboveNull_lt_beside k above)

@[simp] theorem belowNull_lt_top : belowNull < (top : Seam K) := by simp [lt_iff, key]

@[simp] theorem beside_lt_beside {k l : K} {a b : Bool} :
    beside k a < beside l b ↔ k < l ∨ k = l ∧ a < b := by
  simp [lt_iff, key, Prod.Lex.toLex_lt_toLex]

@[simp] theorem beside_le_beside {k l : K} {a b : Bool} :
    beside k a ≤ beside l b ↔ k < l ∨ k = l ∧ a ≤ b := by
  simp [le_iff, key, Prod.Lex.toLex_le_toLex]

theorem aboveNull_le_of_ne {x : Seam K} (h : x ≠ belowNull) : aboveNull ≤ x := by
  cases x <;> simp_all [le_iff, key]

end Seam

/-! ### Cuts of a domain -/

namespace Domain

/-- The cuts that bound ranges of a domain from below. -/
inductive Lower (d : Domain) : Cut → Prop
  | negInfinity : d.Lower .negInfinity
  | null (t : Strictness) : d.Lower (.null .lower t)
  | finite {v : Value} (t : Strictness) : d.Holds v → d.Lower (.finite v .lower t)

/-- The cuts that bound ranges of a domain from above. -/
inductive Upper (d : Domain) : Cut → Prop
  | posInfinity : d.Upper .posInfinity
  | null (t : Strictness) : d.Upper (.null .upper t)
  | finite {v : Value} (t : Strictness) : d.Holds v → d.Upper (.finite v .upper t)

/-- The points of the line that a probe can denote. -/
inductive Point (d : Domain) : Coordinate → Prop
  | null : d.Point .null
  | finite {v : Value} : d.Holds v → d.Point (.finite v)

variable {d : Domain}

theorem Lower.side_eq {c : Cut} (h : d.Lower c) : c.side = .lower := by cases h <;> rfl

theorem Upper.side_eq {c : Cut} (h : d.Upper c) : c.side = .upper := by cases h <;> rfl

theorem Lower.ne_posInfinity {c : Cut} (h : d.Lower c) : c ≠ .posInfinity := by cases h <;> simp

theorem Upper.ne_negInfinity {c : Cut} (h : d.Upper c) : c ≠ .negInfinity := by cases h <;> simp

theorem Lower.isInfinite_iff {c : Cut} (h : d.Lower c) : c.isInfinite ↔ c = .negInfinity := by
  cases h <;> simp [Cut.isInfinite, Cut.coordinate, Coordinate.isInfinite]

theorem Lower.opposite {c : Cut} (h : d.Lower c) (hc : c ≠ .negInfinity) :
    d.Upper c.opposite := by
  cases h with
  | negInfinity => exact absurd rfl hc
  | null t => exact .null _
  | finite t hv => exact .finite _ hv

theorem Upper.opposite {c : Cut} (h : d.Upper c) (hc : c ≠ .posInfinity) :
    d.Lower c.opposite := by
  cases h with
  | posInfinity => exact absurd rfl hc
  | null t => exact .null _
  | finite t hv => exact .finite _ hv

theorem point?_eq_some {probe : Value} {p : Coordinate} : d.point? probe = some p ↔
    probe.isNull ∧ p = .null ∨
      probe.isNull = false ∧ ∃ v, d.place probe = .ok (.member v) ∧ p = .finite v := by
  unfold point? member?
  cases probe.isNull with
  | true => simp [eq_comm]
  | false =>
    cases d.place probe with
    | error f => simp
    | ok q => cases q <;> simp [eq_comm]

theorem point_of_point? {probe : Value} {p : Coordinate} (h : d.point? probe = some p) :
    d.Point p := by
  rcases point?_eq_some.1 h with ⟨-, rfl⟩ | ⟨hn, v, hv, rfl⟩
  · exact .null
  · exact .finite ⟨probe, hn, .inl hv⟩

end Domain

namespace Domain.Scale

variable {d : Domain} {K : Type} [LinearOrder K] (σ : d.Scale K)

/-- The seam that a cut lies on. -/
def seam : Cut → Seam K
  | .negInfinity => .aboveNull
  | .posInfinity => .top
  | .null .lower .closed | .null .upper .opened => .belowNull
  | .null .lower .opened | .null .upper .closed => .aboveNull
  | .finite v .lower .closed | .finite v .upper .opened => .beside (σ.mark v) false
  | .finite v .lower .opened | .finite v .upper .closed => .beside (σ.mark v) true

/-- The seam just below a point. -/
def floor : Coordinate → Seam K
  | .null => .belowNull
  | .negInfinity => .aboveNull
  | .finite v => .beside (σ.mark v) false
  | .posInfinity => .top

@[simp] theorem seam_negInfinity : σ.seam .negInfinity = .aboveNull := rfl

@[simp] theorem seam_posInfinity : σ.seam .posInfinity = .top := rfl

attribute [local simp] seam floor Cut.coordinate Cut.offset Cut.touches Cut.opposite
  Coordinate.compare Coordinate.rank Coordinate.isNull Coordinate.isInfinite Side.flip
  Strictness.flip Cut.strictness

theorem seam_opposite {c : Cut} (h : c.isInfinite = false) : σ.seam c.opposite = σ.seam c := by
  rcases c with _ | _ | ⟨_ | _, _ | _⟩ | ⟨v, _ | _, _ | _⟩ <;> simp_all [Cut.isInfinite]

theorem eq_null_of_seam {c : Cut} (hc : d.Lower c) (h : σ.seam c = .belowNull) :
    c = .null .lower .closed := by
  rcases hc with _ | (_ | _) | ⟨_ | _, hv⟩ <;> simp_all

theorem seam_le_aboveNull {c : Cut} (hc : d.Lower c) (h : c.isNull ∨ c = .negInfinity) :
    σ.seam c ≤ .aboveNull := by
  rcases hc with _ | (_ | _) | ⟨_ | _, hv⟩ <;> simp_all [Cut.isNull]

theorem eq_posInfinity_of_seam {c : Cut} (hc : d.Upper c) (h : σ.seam c = .top) :
    c = .posInfinity := by
  rcases hc with _ | (_ | _) | ⟨_ | _, hv⟩ <;> simp_all

theorem floor_lt_top {p : Coordinate} (hp : d.Point p) : σ.floor p < .top := by
  cases hp <;> simp

/-- Only the null marker has its floor below negative infinity. -/
theorem aboveNull_le_floor_iff {probe : Value} {p : Coordinate} (h : d.point? probe = some p) :
    .aboveNull ≤ σ.floor p ↔ probe.isNull = false := by
  rcases point?_eq_some.1 h with ⟨hn, rfl⟩ | ⟨hn, v, -, rfl⟩ <;> simp [hn]

/-! ### Order

Between cuts of one side, and between a lower and an upper cut, the order of cuts is the
order of their seams. It says more in one place only: negative infinity comes behind
`> null`, though both lie on one seam. -/

variable {σ}

theorem seam_le_of_compare_ne_gt {a b : Cut} (ha : d.Lower a) (hb : d.Lower b)
    (h : a.compare d.compare b ≠ .gt) : σ.seam a ≤ σ.seam b := by
  revert h
  rcases ha with _ | (_ | _) | ⟨_ | _, hv⟩ <;> rcases hb with _ | (_ | _) | ⟨_ | _, hw⟩ <;>
    simp +decide [Cut.compare, σ.compare_eq, Ordering.then_eq_gt, compare_gt_iff_gt, *] <;>
      grind

theorem seam_le_of_compare_ne_lt {a b : Cut} (ha : d.Lower a) (hb : d.Lower b)
    (h : a.compare d.compare b ≠ .lt) : σ.seam b ≤ σ.seam a := by
  revert h
  rcases ha with _ | (_ | _) | ⟨_ | _, hv⟩ <;> rcases hb with _ | (_ | _) | ⟨_ | _, hw⟩ <;>
    simp +decide [Cut.compare, σ.compare_eq, Ordering.then_eq_lt, compare_lt_iff_lt, *] <;>
      grind

theorem compare_upper_eq_gt_iff {a b : Cut} (ha : d.Upper a) (hb : d.Upper b) :
    a.compare d.compare b = .gt ↔ σ.seam b < σ.seam a := by
  rcases ha with _ | (_ | _) | ⟨_ | _, hv⟩ <;> rcases hb with _ | (_ | _) | ⟨_ | _, hw⟩ <;>
    simp +decide [Cut.compare, σ.compare_eq, Ordering.then_eq_gt, compare_gt_iff_gt, *]
  grind

theorem compare_eq_gt_iff {a b : Cut} (ha : d.Lower a) (hb : d.Upper b) :
    a.compare d.compare b = .gt ↔ σ.seam b ≤ σ.seam a := by
  rcases ha with _ | (_ | _) | ⟨_ | _, hv⟩ <;> rcases hb with _ | (_ | _) | ⟨_ | _, hw⟩ <;>
    simp +decide [Cut.compare, σ.compare_eq, Ordering.then_eq_gt, compare_gt_iff_gt, *] <;>
      grind

/-- Only `< null` has a seam below everything, and no range ends there. -/
theorem joins_iff {upper lower : Cut} (hu : d.Upper upper) (hl : d.Lower lower)
    (hne : σ.seam upper ≠ .belowNull) :
    Span.joins d.compare upper lower ↔ σ.seam lower ≤ σ.seam upper := by
  revert hne
  rcases hu with _ | (_ | _) | ⟨_ | _, hv⟩ <;> rcases hl with _ | (_ | _) | ⟨_ | _, hw⟩ <;>
    simp +decide [Span.joins, Cut.compare, σ.compare_eq, Cut.isNull, Cut.isClosed,
      Ordering.then_eq_gt, compare_gt_iff_gt, *] <;> grind

/-- Between the seam of an upper cut and that of a lower one there is a gap that both cuts
leave open. -/
theorem compare_eq_lt_of_seam_lt {upper lower : Cut} (hu : d.Upper upper) (hl : d.Lower lower)
    (hne : σ.seam upper ≠ .belowNull) (h : σ.seam upper < σ.seam lower) :
    upper.compare d.compare lower = .lt ∧ upper.touches d.compare lower = false := by
  revert hne h
  rcases hu with _ | (_ | _) | ⟨_ | _, hv⟩ <;> rcases hl with _ | (_ | _) | ⟨_ | _, hw⟩ <;>
    simp +decide [Cut.compare, σ.compare_eq, Ordering.then_eq_lt, compare_lt_iff_lt, *] <;>
      grind

/-- An upper cut that comes before a lower one leaves a gap, unless the two touch or the lower one
starts right behind null where the upper one ends. -/
theorem seam_lt_of_compare_eq_lt {upper lower : Cut} (hu : d.Upper upper) (hl : d.Lower lower)
    (hne : σ.seam upper ≠ .belowNull) (hlt : upper.compare d.compare lower = .lt)
    (htouch : upper.touches d.compare lower = false) (hnull : upper = .null .upper .closed →
      lower ≠ .null .lower .opened ∧ lower ≠ .negInfinity) : σ.seam upper < σ.seam lower := by
  revert hne hlt htouch hnull
  rcases hu with _ | (_ | _) | ⟨_ | _, hv⟩ <;> rcases hl with _ | (_ | _) | ⟨_ | _, hw⟩ <;>
    simp +decide [Cut.compare, σ.compare_eq, Ordering.then_eq_lt, compare_lt_iff_lt, *] <;>
      grind

/-! ### Points -/

theorem lower_comparePoint_iff {a : Cut} (ha : d.Lower a) {p : Coordinate} (hp : d.Point p) :
    a.comparePoint d.compare p ≠ .gt ↔ σ.seam a ≤ σ.floor p := by
  rcases ha with _ | (_ | _) | ⟨_ | _, hv⟩ <;> rcases hp with _ | hw <;>
    simp +decide [Cut.comparePoint, σ.compare_eq, Ordering.then_eq_gt, compare_gt_iff_gt, *] <;>
      grind

theorem upper_comparePoint_iff {b : Cut} (hb : d.Upper b) {p : Coordinate} (hp : d.Point p) :
    b.comparePoint d.compare p ≠ .lt ↔ σ.floor p < σ.seam b := by
  rcases hb with _ | (_ | _) | ⟨_ | _, hv⟩ <;> rcases hp with _ | hw <;>
    simp +decide [Cut.comparePoint, σ.compare_eq, Ordering.then_eq_lt, compare_lt_iff_lt, *] <;>
      grind

end Domain.Scale

/-! ### Rows

Two rows are of one class if their floors are the same, and in order if their floors are. -/

namespace Domain

variable {d : Domain} {K : Type} [LinearOrder K] {σ : d.Scale K} {p q : Coordinate} {a b : Value}

theorem isSome_point?_iff : (d.point? a).isSome ↔ d.Row a := by
  rw [Option.isSome_iff_exists]
  simp only [point?_eq_some, Row]
  cases a.isNull with
  | true => simp
  | false => simp [exists_comm (α := Coordinate)]

theorem Row.exists_point (h : d.Row a) : ∃ p, d.point? a = some p :=
  Option.isSome_iff_exists.1 (isSome_point?_iff.2 h)

theorem row_of_point? (h : d.point? a = some p) : d.Row a := isSome_point?_iff.1 (by simp [h])

theorem Member.holds {v : Value} (h : d.Member v) : d.Holds v := ⟨v, h.1, .inl h.2⟩

theorem Member.point? {v : Value} (h : d.Member v) : d.point? v = some (.finite v) := by
  simp [Domain.point?, member?, h.1, h.2]

namespace Scale

theorem floor_eq_iff (hp : d.Point p) (hq : d.Point q) :
    σ.floor p = σ.floor q ↔ p.Alike d.compare q := by
  cases hp with
  | null =>
    cases hq with
    | null => exact iff_of_true rfl .null
    | finite hw => exact iff_of_false nofun nofun
  | finite hv =>
    cases hq with
    | null => exact iff_of_false nofun nofun
    | finite hw =>
      rw [floor, floor, Seam.beside.injEq, and_iff_left rfl, ← compare_eq_eq_iff hv hw]
      exact ⟨.finite, fun | .finite h => h⟩

theorem floor_le_iff (hp : d.Point p) (hq : d.Point q) :
    σ.floor p ≤ σ.floor q ↔ p.AtMost d.compare q := by
  cases hp with
  | null => exact iff_of_true (Seam.belowNull_le _) (.null q)
  | finite hv =>
    cases hq with
    | null => exact iff_of_false (not_le.2 (Seam.belowNull_lt_beside _ _)) nofun
    | finite hw =>
      have hne : d.compare _ _ ≠ .gt ↔ σ.mark _ ≤ σ.mark _ := compare_ne_gt_iff hv hw
      rw [floor, floor, Seam.beside_le_beside, and_iff_left le_rfl, ← le_iff_lt_or_eq, ← hne]
      exact ⟨.finite, fun | .finite h => h⟩

/-- Rows of one class have one floor. -/
theorem sameClass_iff (ha : d.point? a = some p) :
    d.SameClass a b ↔ ∃ q, d.point? b = some q ∧ σ.floor q = σ.floor p := by
  constructor
  · rintro ⟨p', q, hp', hq, halike⟩
    obtain rfl : p' = p := Option.some.inj (hp'.symm.trans ha)
    exact ⟨q, hq, ((floor_eq_iff (point_of_point? ha) (point_of_point? hq)).2 halike).symm⟩
  · rintro ⟨q, hq, hfloor⟩
    exact ⟨p, q, ha, hq, (floor_eq_iff (point_of_point? ha) (point_of_point? hq)).1 hfloor.symm⟩

end Scale

theorem AtMost.floor_le (σ : d.Scale K) (h : d.AtMost a b) :
    ∃ p q, d.point? a = some p ∧ d.point? b = some q ∧ σ.floor p ≤ σ.floor q := by
  obtain ⟨p, q, hp, hq, hle⟩ := h
  exact ⟨p, q, hp, hq, (Scale.floor_le_iff (point_of_point? hp) (point_of_point? hq)).2 hle⟩

end Domain

end SearchArgument
