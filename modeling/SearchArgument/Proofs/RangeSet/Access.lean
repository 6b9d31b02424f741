import SearchArgument.Proofs.Tree.Evaluation

/-! Access keeps its promises. It is read off the shape of the spans, but the spans of an
evaluated tree are canonical, so the shape tells which rows there are: a point takes up one floor,
points that are apart take up several, and what lies between two cuts has no gap. A range from
null on would have been settled to every point, so a range that has null in it ends. -/

namespace SearchArgument

variable {d : Domain} {K : Type} [LinearOrder K] {σ : d.Scale K}

/-! ### Points -/

namespace Seam

theorem Ico_belowNull : Set.Ico (.belowNull : Seam K) .aboveNull = {.belowNull} := by
  ext x
  rw [Set.mem_Ico, Set.mem_singleton_iff]
  constructor
  · rintro ⟨-, hlt⟩
    by_contra hne
    exact not_lt.2 (aboveNull_le_of_ne hne) hlt
  · rintro rfl
    exact ⟨le_rfl, belowNull_lt_aboveNull⟩

theorem Ico_beside (k : K) : Set.Ico (.beside k false) (.beside k true) = {beside k false} := by
  ext x
  rw [Set.mem_Ico, Set.mem_singleton_iff]
  constructor
  · rintro ⟨hge, hlt⟩
    cases x with
    | belowNull => exact absurd hge (not_le.2 (belowNull_lt_beside k false))
    | aboveNull => exact absurd hge (not_le.2 (aboveNull_lt_beside k false))
    | top => exact absurd hlt (not_lt.2 (le_top _))
    | beside l above =>
      rw [beside_le_beside] at hge
      rcases beside_lt_beside.1 hlt with hlt | ⟨rfl, habove⟩
      · rcases hge with hge | ⟨rfl, -⟩
        · exact absurd hge (lt_asymm hlt)
        · exact absurd hlt (lt_irrefl _)
      · cases above with
        | false => rfl
        | true => exact absurd habove (lt_irrefl _)
  · rintro rfl
    exact ⟨le_rfl, beside_lt_beside.2 (.inr ⟨rfl, Bool.false_lt_true⟩)⟩

end Seam

/-- The row at which a span begins. -/
def Span.row (s : Span) : Value := s.lower.coordinate.value?.getD .null

namespace Domain.Scale

/-- A point takes up the floor of its row and nothing else. -/
theorem extent_of_isPoint (hmember : ∀ v, d.Holds v → d.Member v) {s : Span} (hs : d.Bounds s)
    (h : s.isPoint d.compare) : ∃ p, d.point? s.row = some p ∧ σ.extent s = {σ.floor p} := by
  obtain ⟨a, b⟩ := s
  have ha := hs.lower
  rcases (isPoint_iff (σ := σ) hs).1 h with ⟨hl, hu⟩ | ⟨k, hl, hu⟩
  · obtain rfl := eq_null_of_seam σ ha hl
    refine ⟨.null, rfl, ?_⟩
    rw [extent_of_not_isAll σ rfl, between, hl, hu, Seam.Ico_belowNull, floor]
  · rcases ha with _ | (_ | _) | ⟨_ | _, hv⟩ <;> cases hl
    refine ⟨_, (hmember _ hv).point?, ?_⟩
    rw [extent_of_not_isAll σ rfl, between, hu]
    exact Seam.Ico_beside _

end Domain.Scale

namespace RangeSet

/-! ### Shapes -/

theorem promises_fullScan (σ : d.Scale K) : Access.fullScan.Promises (mk d [.all]) := by
  intro row hrow
  obtain ⟨p, hp⟩ := hrow.exists_point
  have hb : ∀ t ∈ [.all], d.Bounds t := List.forall_mem_singleton.2 Domain.Scale.bounds_all
  rw [contains_iff_of_point (σ := σ) rfl hb hp, Domain.Scale.extents_singleton,
    Domain.Scale.mem_extent_all]
  exact σ.floor_lt_top (Domain.point_of_point? hp)

theorem promises_range {a : Span} (ha : d.Bounds a) (hproper : σ.seam a.lower < σ.seam a.upper)
    (hnull : a.isFromNull = false) (hall : a.isAll = false) (hpoint : a.isPoint d.compare = false) :
    Access.range.Promises (mk d [a]) := by
  have hb : ∀ t ∈ [a], d.Bounds t := List.forall_mem_singleton.2 ha
  constructor
  · intro x y z hxy hyz hx hz
    obtain ⟨p, q, hp, hq, hpq⟩ := hxy.floor_le σ
    obtain ⟨q', r, hq', hr, hqr⟩ := hyz.floor_le σ
    obtain rfl : q' = q := Option.some.inj (hq'.symm.trans hq)
    rw [contains_iff_of_point (σ := σ) rfl hb hp, Domain.Scale.extents_singleton] at hx
    rw [contains_iff_of_point (σ := σ) rfl hb hr, Domain.Scale.extents_singleton] at hz
    rw [contains_iff_of_point (σ := σ) rfl hb hq, Domain.Scale.extents_singleton]
    exact Set.ordConnected_Ico.out hx hz ⟨hpq, hqr⟩
  · intro hc
    rw [contains_null_iff (σ := σ) rfl hb, Domain.Scale.extents_singleton,
      Domain.Scale.extent_of_not_isAll σ hall] at hc
    refine ⟨_, rfl, ?_⟩
    obtain ⟨l, u⟩ := a
    obtain rfl := Domain.Scale.eq_null_of_seam σ ha.lower (le_antisymm hc.1 (Seam.belowNull_le _))
    -- above null comes every point, and at null there is a point or nothing
    rcases ha.upper with _ | (_ | _) | ⟨t, hv⟩
    · cases hnull
    · exact absurd hproper (lt_irrefl _)
    · cases hpoint
    · rfl

section

variable (hmember : ∀ v, d.Holds v → d.Member v)

include hmember

theorem contains_point_iff (σ : d.Scale K) {a : Span} (ha : d.Bounds a) (hp : a.isPoint d.compare)
    (row : Value) : (Interval.ofSpan d a).contains row ↔ d.SameClass a.row row := by
  obtain ⟨p, hrow, hextent⟩ := Domain.Scale.extent_of_isPoint (σ := σ) hmember ha hp
  have hterm : (Interval.ofSpan d a).contains row ↔
      ∃ q, d.point? row = some q ∧ σ.floor q ∈ σ.extent a :=
    Interval.Sound.contains_iff ⟨rfl, ha⟩ row
  rw [hterm, Domain.Scale.sameClass_iff (σ := σ) hrow, hextent]
  rfl

theorem row_row (σ : d.Scale K) {a : Span} (ha : d.Bounds a) (hp : a.isPoint d.compare) :
    d.Row a.row := by
  obtain ⟨p, hrow, -⟩ := Domain.Scale.extent_of_isPoint (σ := σ) hmember ha hp
  exact Domain.row_of_point? hrow

theorem promises_point (σ : d.Scale K) {a : Span} (ha : d.Bounds a) (hp : a.isPoint d.compare) :
    Access.point.Promises (mk d [a]) := by
  refine ⟨a.row, row_row hmember σ ha hp, fun row => ?_⟩
  rw [← contains_point_iff hmember σ ha hp]
  simp [contains, intervals]

theorem promises_multiPoint {spans : List Span} (h : σ.Ascending spans) (hsize : 2 ≤ spans.length)
    (hp : ∀ a ∈ spans, a.isPoint d.compare) : Access.multiPoint.Promises (mk d spans) := by
  have hclass : ∀ a ∈ spans, ∀ row, (Interval.ofSpan d a).contains row ↔ d.SameClass a.row row :=
    fun a ha => contains_point_iff hmember σ (h.bounds a ha) (hp a ha)
  refine ⟨hsize, spans.map Span.row, List.length_map _, ?_, ?_, fun row => ?_, ?_⟩
  · rw [List.forall_mem_map]
    exact fun a ha => row_row hmember σ (h.bounds a ha) (hp a ha)
  · rw [List.pairwise_map]
    refine h.apart_start.imp_of_mem fun {a b} ha hb hlt hsame => ?_
    obtain ⟨p, hpa, hea⟩ :=
      Domain.Scale.extent_of_isPoint (σ := σ) hmember (h.bounds a ha) (hp a ha)
    obtain ⟨q, hqb, heb⟩ :=
      Domain.Scale.extent_of_isPoint (σ := σ) hmember (h.bounds b hb) (hp b hb)
    obtain ⟨r, hrb, hfloor⟩ := (Domain.Scale.sameClass_iff (σ := σ) hpa).1 hsame
    obtain rfl : r = q := Option.some.inj (hrb.symm.trans hqb)
    have hina : σ.floor r ∈ σ.extent a := hea ▸ hfloor
    have hinb : σ.floor r ∈ σ.extent b := heb ▸ rfl
    exact lt_irrefl _ ((hina.2.trans hlt).trans_le hinb.1)
  · simp only [contains, intervals, List.any_eq_true, List.mem_map, exists_exists_and_eq_and]
    exact exists_congr fun a => and_congr_right fun ha => hclass a ha row
  · intro i a hia row
    rw [intervals, List.zip_map', List.mem_map] at hia
    obtain ⟨b, hb, he⟩ := hia
    obtain ⟨rfl, rfl⟩ := Prod.mk.inj he
    exact hclass b hb row

/-- Over a domain whose values are members, canonical spans keep the promises of their access. -/
theorem promises_access {spans : List Span} (h : σ.Canonical spans) :
    (mk d spans).access.Promises (mk d spans) := by
  rw [access_mk]
  rcases spans with _ | ⟨a, _ | ⟨b, rest⟩⟩
  · exact fun row => by simp [contains, intervals]
  · have ha := List.mem_singleton_self a
    dsimp only
    split_ifs with hall hp
    · rw [Span.isAll_iff.1 hall]
      exact promises_fullScan σ
    · exact promises_point hmember σ (h.bounds a ha) hp
    · exact promises_range (h.bounds a ha) (h.proper a ha) (h.not_fromNull a ha)
        (by simpa using hall) (by simpa using hp)
  · have hsize : 2 ≤ (a :: b :: rest).length := by simp
    dsimp only
    split_ifs with hp
    · exact promises_multiPoint hmember h.toAscending hsize (List.all_eq_true.1 hp)
    · exact hsize

end

end RangeSet

namespace Tree

/-- Over a scalar domain, the access of every result keeps its promises: what an index may be told
about the rows is true of them. -/
theorem access_keeps_promises (k : Scalar) {t : Tree} {s : RangeSet} (ht : t.Built (· = k.domain))
    (h : t.Yields s) : s.access.Promises s := by
  obtain ⟨K, _, ⟨σ⟩⟩ := k.ordered.exists_scale
  obtain ⟨hd, hcan⟩ := h.canonical σ ht
  obtain ⟨d, spans⟩ := s
  obtain rfl : d = k.domain := hd
  exact RangeSet.promises_access (fun v => Scalar.member_of_holds) hcan

/-- The term of one integer. -/
def only (n : Int64) : Interval :=
  .ofSpan Scalar.int.domain ⟨.finite (.int n) .lower .closed, .finite (.int n) .upper .closed⟩

theorem built_only (n : Int64) : (leaf (only n)).Built (· = Scalar.int.domain) :=
  .leaf (Interval.built_edit (.setPoint (.int n)) trivial rfl)

/-- Null, four and seven are three classes, whatever their order in the tree. -/
theorem access_keeps_promises_nullFourSeven :
    let d := Scalar.int.domain
    let t : Tree := .node d .union [.leaf (only 7), .leaf (.null d), .leaf (only 4), .leaf (only 7)]
    let s : RangeSet := ⟨d, [.nullPoint, (only 4).bounds, (only 7).bounds]⟩
    t.Built (· = d) ∧ t.Yields s ∧ s.access = .multiPoint ∧ Access.multiPoint.Promises s := by
  intro d t s
  have ht : t.Built (· = d) := by
    refine built_node d .union _ ?_ nofun
    simp only [List.forall_mem_cons]
    exact ⟨built_only 7, .leaf (Interval.built_null d), built_only 4, built_only 7, nofun⟩
  have hs : t.Yields s := .inl rfl
  exact ⟨ht, hs, rfl, access_keeps_promises .int ht hs⟩

end Tree

end SearchArgument
