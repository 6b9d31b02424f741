import Mathlib.Order.Interval.Set.Basic
import SearchArgument.Proofs.Seam

/-! Extents of spans. A span between two cuts takes up the half-open interval between their
seams, and what holds every point begins below the null marker as well. A probe is covered
exactly if the seam just below it lies in the extent. Extents say more than the probes of a
domain can tell: over the integers no value lies between `> 3` and `< 4`, yet the extent of
that span is not empty. -/

namespace SearchArgument

theorem Span.isAll_iff {s : Span} : s.isAll ↔ s = .all := by
  cases s
  simp [isAll, all]

namespace Domain

/-- The cuts of a span bound ranges of the domain from their own sides. -/
structure Bounds (d : Domain) (s : Span) : Prop where
  lower : d.Lower s.lower
  upper : d.Upper s.upper

namespace Scale

variable {d : Domain} {K : Type} [LinearOrder K] (σ : d.Scale K)

/-- The seams between the two cuts of a span. -/
def between (s : Span) : Set (Seam K) := Set.Ico (σ.seam s.lower) (σ.seam s.upper)

/-- The seam from which a span takes up seams: the one of its lower cut, if it does not
hold every point. -/
def start (s : Span) : Seam K := if s.isAll then .belowNull else σ.seam s.lower

def extent (s : Span) : Set (Seam K) := Set.Ico (σ.start s) (σ.seam s.upper)

/-- The seams that any of the spans takes up. -/
def extents (spans : List Span) : Set (Seam K) := {x | ∃ s ∈ spans, x ∈ σ.extent s}

@[simp] theorem mem_between {s : Span} {x : Seam K} :
    x ∈ σ.between s ↔ σ.seam s.lower ≤ x ∧ x < σ.seam s.upper := Iff.rfl

@[simp] theorem mem_extent {s : Span} {x : Seam K} :
    x ∈ σ.extent s ↔ σ.start s ≤ x ∧ x < σ.seam s.upper := Iff.rfl

@[simp] theorem mem_extents {spans : List Span} {x : Seam K} :
    x ∈ σ.extents spans ↔ ∃ s ∈ spans, x ∈ σ.extent s := Iff.rfl

theorem mem_extent_all {x : Seam K} : x ∈ σ.extent .all ↔ x < .top :=
  ⟨fun h => h.2, fun h => ⟨Seam.belowNull_le x, h⟩⟩

theorem start_of_not_isAll {s : Span} (h : s.isAll = false) : σ.start s = σ.seam s.lower := by
  simp [start, h]

theorem start_le (s : Span) : σ.start s ≤ σ.seam s.lower := by
  unfold start
  split
  · exact Seam.belowNull_le _
  · exact le_rfl

theorem extent_of_not_isAll {s : Span} (h : s.isAll = false) : σ.extent s = σ.between s := by
  rw [extent, start_of_not_isAll σ h, between]

theorem extents_nil : σ.extents [] = ∅ := by ext x; simp

theorem extents_singleton (s : Span) : σ.extents [s] = σ.extent s := by ext x; simp

theorem mem_extents_cons {s : Span} {ss : List Span} {x : Seam K} :
    x ∈ σ.extents (s :: ss) ↔ x ∈ σ.extent s ∨ x ∈ σ.extents ss := by
  simp only [mem_extents, List.mem_cons, or_and_right, exists_or, exists_eq_left]

theorem extents_append (xs ys : List Span) :
    σ.extents (xs ++ ys) = σ.extents xs ∪ σ.extents ys := by
  ext x
  simp only [mem_extents, List.mem_append, Set.mem_union, or_and_right, exists_or]

variable {σ}

theorem lt_top_of_mem_extent {s : Span} {x : Seam K} (h : x ∈ σ.extent s) : x < .top := by
  exact h.2.trans_le (Seam.le_top _)

theorem isInverted_iff {s : Span} (hs : d.Bounds s) :
    s.isInverted d.compare ↔ σ.seam s.upper ≤ σ.seam s.lower := by
  rw [Span.isInverted, beq_iff_eq]
  exact compare_eq_gt_iff hs.lower hs.upper

theorem not_isInverted_iff {s : Span} (hs : d.Bounds s) :
    s.isInverted d.compare = false ↔ σ.seam s.lower < σ.seam s.upper := by
  rw [← Bool.not_eq_true, isInverted_iff (σ := σ) hs, not_le]

theorem extent_of_isInverted {s : Span} (hs : d.Bounds s) (h : s.isInverted d.compare) :
    σ.extent s = ∅ := by
  have hle := (isInverted_iff (σ := σ) hs).1 h
  have hall : s.isAll = false := by
    by_contra hall
    obtain rfl := Span.isAll_iff.1 (by simpa using hall)
    exact absurd hle (not_le.2 Seam.aboveNull_lt_top)
  rw [extent_of_not_isAll σ hall, between, Set.Ico_eq_empty_iff]
  exact not_lt.2 hle

/-- A point is covered exactly if the span reaches across the seam below it. -/
theorem covers_iff {s : Span} (hs : d.Bounds s) {p : Coordinate} (hp : d.Point p) :
    s.covers d.compare p ↔ σ.floor p ∈ σ.extent s := by
  have hfloor := σ.floor_lt_top hp
  have hnull : p.isNull && s.lower.isInfinite → ¬σ.seam s.lower ≤ σ.floor p := by
    intro h
    obtain ⟨hpn, hli⟩ := Bool.and_eq_true_iff.1 h
    have hl := hs.lower
    generalize s.lower = a at hl hli
    cases hp with
    | null =>
      cases hl <;> simp_all [Cut.isInfinite, Cut.coordinate, Coordinate.isInfinite, seam, floor]
    | finite hv => simp [Coordinate.isNull] at hpn
  by_cases hall : s.isAll
  · obtain rfl := Span.isAll_iff.1 hall
    simpa only [mem_extent_all, hfloor, iff_true] using by simp [Span.covers, hall]
  · simp only [Span.covers, hall, Bool.false_or, Bool.and_eq_true, bne_iff_ne, mem_between,
      Bool.not_eq_true', lower_comparePoint_iff (σ := σ) hs.lower hp,
      upper_comparePoint_iff (σ := σ) hs.upper hp, extent_of_not_isAll σ (by simpa using hall)]
    constructor
    · rintro ⟨⟨-, hl⟩, hu⟩
      exact ⟨hl, hu⟩
    · rintro ⟨hl, hu⟩
      exact ⟨⟨by simpa using mt hnull (not_not.2 hl), hl⟩, hu⟩

/-- A span is a point exactly if its seams are next to each other. -/
theorem isPoint_iff {s : Span} (hs : d.Bounds s) :
    s.isPoint d.compare ↔ σ.seam s.lower = .belowNull ∧ σ.seam s.upper = .aboveNull ∨
      ∃ k, σ.seam s.lower = .beside k false ∧ σ.seam s.upper = .beside k true := by
  obtain ⟨a, b⟩ := s
  have ha := hs.lower
  have hb := hs.upper
  dsimp only at ha hb ⊢
  rcases ha with _ | (_ | _) | ⟨_ | _, hv⟩ <;> rcases hb with _ | (_ | _) | ⟨_ | _, hw⟩ <;>
    simp +decide [Span.isPoint, Cut.isInfinite, Cut.coordinate, Coordinate.isInfinite, Cut.compare,
      Coordinate.compare, Coordinate.rank, Cut.offset, seam, σ.compare_eq, *]
  exact eq_comm

theorem isPoint_congr (σ : d.Scale K) {s t : Span} (hs : d.Bounds s) (ht : d.Bounds t)
    (hl : σ.seam s.lower = σ.seam t.lower) (hu : σ.seam s.upper = σ.seam t.upper) :
    s.isPoint d.compare = t.isPoint d.compare := by
  rw [Bool.eq_iff_iff, isPoint_iff (σ := σ) hs, isPoint_iff (σ := σ) ht, hl, hu]

end Scale

end Domain

end SearchArgument
