import SearchArgument.Proofs.Span.Form

/-! The complement of a list of spans. A cut and its opposite lie on one seam, so the gap
between two spans takes up exactly the seams between them, with no sliver left out and none
taken twice. Below the first span there is a gap for values only if it begins at a value, and
then the gap begins at negative infinity; only a span up to null leaves one that begins behind
null in so many words. -/

namespace SearchArgument.Domain.Scale

variable {d : Domain} {K : Type} [LinearOrder K] {σ : d.Scale K}

theorem seam_opposite_of_lower {c : Cut} (hc : d.Lower c) (h : c ≠ .negInfinity) :
    σ.seam c.opposite = σ.seam c := by
  cases hc with
  | negInfinity => exact absurd rfl h
  | null t => exact seam_opposite σ rfl
  | finite t hv => exact seam_opposite σ rfl

theorem seam_opposite_of_upper {c : Cut} (hc : d.Upper c) (h : c ≠ .posInfinity) :
    σ.seam c.opposite = σ.seam c := by
  cases hc with
  | posInfinity => exact absurd rfl h
  | null t => exact seam_opposite σ rfl
  | finite t hv => exact seam_opposite σ rfl

theorem opposite_ne_negInfinity {c : Cut} (hc : d.Upper c) : c.opposite ≠ .negInfinity := by
  cases hc <;> simp [Cut.opposite]

/-- Between two cuts with a gap neither is at infinity. -/
theorem ne_infinity_of_seam_lt {upper lower : Cut} (hne : σ.seam upper ≠ .belowNull)
    (hlt : σ.seam upper < σ.seam lower) : upper ≠ .posInfinity ∧ lower ≠ .negInfinity := by
  constructor
  · rintro rfl
    exact not_lt.2 (Seam.le_top _) hlt
  · rintro rfl
    exact not_lt.2 (Seam.aboveNull_le_of_ne hne) hlt

/-- A gap that begins where a span ends. -/
theorem gap_spec {upper bound : Cut} (hu : d.Upper upper) (hne : upper ≠ .posInfinity)
    (hb : d.Upper bound) :
    d.Bounds ⟨upper.opposite, bound⟩ ∧
      σ.extent ⟨upper.opposite, bound⟩ = Set.Ico (σ.seam upper) (σ.seam bound) := by
  refine ⟨⟨hu.opposite hne, hb⟩, ?_⟩
  rw [extent_of_not_isAll σ (by simp [Span.isAll, opposite_ne_negInfinity hu]), between,
    seam_opposite_of_upper hu hne]

/-- Outside a list there is what lies before its first span and what lies behind that span
outside the others. -/
theorem not_mem_extents_cons {s : Span} {ts : List Span} (h : σ.Ascending (s :: ts))
    (hall : s.isAll = false) {first : Seam K} (hfirst : first ≤ σ.seam s.upper) (x : Seam K) :
    first ≤ x ∧ x < .top ∧ x ∉ σ.extents (s :: ts) ↔
      x ∈ Set.Ico first (σ.seam s.lower) ∨
        σ.seam s.upper ≤ x ∧ x < .top ∧ x ∉ σ.extents ts := by
  have hsp := h.proper s List.mem_cons_self
  have htail := mem_extents_tail h x
  rw [mem_extents_cons, extent_of_not_isAll σ hall]
  simp only [Set.mem_Ico, mem_between, not_or, not_and, not_lt]
  constructor
  · rintro ⟨hux, hxt, hxs, hxts⟩
    rcases lt_or_ge x (σ.seam s.lower) with hlt | hge
    · exact .inl ⟨hux, hlt⟩
    · exact .inr ⟨hxs hge, hxt, hxts⟩
  · rintro (⟨hux, hxl⟩ | ⟨hsx, hxt, hxts⟩)
    · exact ⟨hux, hxl.trans_le (Seam.le_top _), fun hle => absurd hxl (not_lt.2 hle),
        fun hx => absurd (hxl.trans hsp) (not_lt.2 (htail.1 hx).2)⟩
    · exact ⟨hfirst.trans hsx, hxt, fun _ => hsx, hxts⟩

theorem gapsAfter_spec (upper : Cut) (spans : List Span) (hu : d.Upper upper)
    (hne : σ.seam upper ≠ .belowNull) (h : σ.Ascending spans)
    (hlt : ∀ s ∈ spans, σ.seam upper < σ.start s) :
    (∀ g ∈ Span.gapsAfter upper spans, d.Bounds g) ∧
      ∀ x, x ∈ σ.extents (Span.gapsAfter upper spans) ↔
        σ.seam upper ≤ x ∧ x < .top ∧ x ∉ σ.extents spans := by
  induction spans generalizing upper with
  | nil =>
    unfold Span.gapsAfter
    split
    next hinf =>
      refine ⟨by simp, fun x => ?_⟩
      simp only [hinf, extents_nil, seam_posInfinity, Set.mem_empty_iff_false, false_iff]
      exact fun hx => not_le.2 hx.2.1 hx.1
    next hinf =>
      obtain ⟨hgap, hextent⟩ := gap_spec (σ := σ) hu hinf .posInfinity
      refine ⟨by simpa using hgap, fun x => ?_⟩
      simp only [extents_singleton, hextent, extents_nil, seam_posInfinity, Set.mem_Ico,
        Set.mem_empty_iff_false, not_false_eq_true, and_true]
  | cons s ts ih =>
    have hs := h.bounds s List.mem_cons_self
    have hsp := h.proper s List.mem_cons_self
    have hus := (hlt s List.mem_cons_self).trans_le (σ.start_le s)
    obtain ⟨hinf, hfin⟩ := ne_infinity_of_seam_lt hne hus
    obtain ⟨hgap, hextent⟩ := gap_spec (σ := σ) hu hinf (hs.lower.opposite hfin)
    rw [seam_opposite_of_lower hs.lower hfin] at hextent
    obtain ⟨hrest, hsame⟩ := ih s.upper hs.upper (seam_upper_ne_belowNull hsp) h.tail
      (List.pairwise_cons.1 h.apart_start).1
    refine ⟨List.forall_mem_cons.2 ⟨hgap, hrest⟩, fun x => ?_⟩
    rw [Span.gapsAfter, mem_extents_cons, hextent, hsame x,
      not_mem_extents_cons h (by simp [Span.isAll, hfin]) (hus.trans hsp).le]

/-- Below a span there are values to take up only if it begins at one. -/
theorem gapBefore_spec {s : Span} (hs : d.Bounds s) :
    let first := if s.lower.coordinate.isFinite then
      [(⟨.negInfinity, s.lower.opposite⟩ : Span)] else []
    (∀ g ∈ first, d.Bounds g) ∧ σ.extents first = Set.Ico .aboveNull (σ.seam s.lower) := by
  intro first
  obtain ⟨a, b⟩ := s
  have ha := hs.lower
  cases ha with
  | negInfinity =>
    refine ⟨by simp [first, Cut.coordinate, Coordinate.isFinite], ?_⟩
    simp [first, Cut.coordinate, Coordinate.isFinite, extents_nil]
  | null t =>
    refine ⟨by simp [first, Cut.coordinate, Coordinate.isFinite], ?_⟩
    cases t <;> simp [first, Cut.coordinate, Coordinate.isFinite, extents_nil, seam]
  | finite t hv =>
    have hfirst : first = [⟨.negInfinity, (Cut.finite _ .lower t).opposite⟩] := rfl
    refine ⟨?_, ?_⟩
    · simpa [hfirst] using ⟨.negInfinity, .finite _ hv⟩
    · rw [hfirst, extents_singleton, extent_of_not_isAll σ (by simp [Span.isAll, Cut.opposite]),
        between, seam_opposite σ rfl, seam_negInfinity]

theorem gaps_spec {spans : List Span} (h : σ.Ascending spans) (hall : .all ∉ spans) :
    (∀ g ∈ Span.gaps spans, d.Bounds g) ∧ ∀ x, x ∈ σ.extents (Span.gaps spans) ↔
      .aboveNull ≤ x ∧ x < .top ∧ x ∉ σ.extents spans := by
  cases spans with
  | nil =>
    refine ⟨by simpa [Span.gaps] using bounds_nonNull, fun x => ?_⟩
    rw [Span.gaps, extents_singleton, extents_nil]
    simp only [Set.mem_empty_iff_false, not_false_eq_true, and_true]
    exact Iff.rfl
  | cons s ts =>
    have hs := h.bounds s List.mem_cons_self
    have hne := seam_upper_ne_belowNull (h.proper s List.mem_cons_self)
    have hn : s.isAll = false := by
      by_contra hn
      exact hall (by simp [Span.isAll_iff.1 (by simpa using hn)])
    obtain ⟨hfirst, hbefore⟩ := gapBefore_spec (σ := σ) hs
    obtain ⟨hrest, hsame⟩ := gapsAfter_spec s.upper ts hs.upper hne h.tail
      (List.pairwise_cons.1 h.apart_start).1
    refine ⟨List.forall_mem_append.2 ⟨hfirst, hrest⟩, fun x => ?_⟩
    rw [Span.gaps, extents_append, hbefore, not_mem_extents_cons h hn (Seam.aboveNull_le_of_ne hne)]
    exact or_congr_right (hsame x)

/-- Every gap but the one below the first span begins at the opposite of an upper cut. -/
theorem lower_of_mem_gapsAfter {upper : Cut} {spans : List Span} {g : Span}
    (hg : g ∈ Span.gapsAfter upper spans) :
    ∃ c ∈ upper :: spans.map Span.upper, g.lower = c.opposite := by
  induction spans generalizing upper with
  | nil =>
    unfold Span.gapsAfter at hg
    split at hg
    next => simp at hg
    next => exact ⟨upper, List.mem_cons_self, by rw [List.mem_singleton.1 hg]⟩
  | cons s ts ih =>
    rcases List.mem_cons.1 hg with rfl | hg
    · exact ⟨upper, List.mem_cons_self, rfl⟩
    · obtain ⟨c, hc, he⟩ := ih hg
      exact ⟨c, List.mem_cons_of_mem _ hc, he⟩

theorem lower_of_mem_gaps {s : Span} {ts : List Span} {g : Span}
    (hg : g ∈ Span.gaps (s :: ts)) :
    g.lower = .negInfinity ∧ s.lower.coordinate.isFinite ∨
      ∃ u ∈ s :: ts, g.lower = u.upper.opposite := by
  rcases List.mem_append.1 hg with hg | hg
  · split at hg
    next hfinite =>
      rw [List.mem_singleton.1 hg]
      exact .inl ⟨rfl, hfinite⟩
    next => simp at hg
  · obtain ⟨c, hc, he⟩ := lower_of_mem_gapsAfter hg
    rw [← List.map_cons (f := Span.upper)] at hc
    obtain ⟨u, hu, rfl⟩ := List.mem_map.1 hc
    exact .inr ⟨u, hu, he⟩

theorem opposite_eq_null_iff {c : Cut} (hc : d.Upper c) :
    c.opposite = .null .lower .opened ↔ σ.seam c = .aboveNull := by
  rcases hc with _ | (_ | _) | ⟨_ | _, hv⟩ <;> simp [Cut.opposite, seam, Side.flip, Strictness.flip]

/-- A gap names null exactly if it lies behind the null marker. -/
theorem namesNull_gaps {spans : List Span} (h : σ.Ascending spans) (hall : .all ∉ spans)
    (hamb : Seam.Ambiguous (σ.extents (Span.gaps spans))) :
    σ.NamesNull (Span.gaps spans) ↔ .belowNull ∈ σ.extents spans := by
  obtain ⟨hbounds, hsame⟩ := gaps_spec h hall
  cases spans with
  | nil =>
    obtain ⟨x, hx, hxt, hn⟩ := hamb.exists_gap
    exact absurd ((hsame x).2 ⟨hx, hxt, by simp⟩) hn
  | cons s ts =>
    constructor
    · rintro ⟨g, hg, hnull, -⟩
      rcases lower_of_mem_gaps hg with ⟨hinf, -⟩ | ⟨u, hu, he⟩
      · rw [hinf] at hnull
        cases hnull
      · have hupper := (opposite_eq_null_iff (σ := σ) (h.bounds u hu).upper).1 (he ▸ hnull)
        have hproper := h.proper u hu
        have hlower : σ.seam u.lower = .belowNull := by
          by_contra hne
          exact absurd (hupper ▸ hproper) (not_lt.2 (Seam.aboveNull_le_of_ne hne))
        exact ⟨u, hu, hlower ▸ σ.start_le u, hlower ▸ hproper⟩
    · rintro ⟨u, hu, hx⟩
      -- the span that holds null is the first, so no gap begins at negative infinity
      have hun : u.isAll = false := by
        by_contra hn
        exact hall (by rwa [← Span.isAll_iff.1 (by simpa using hn)])
      have hseam : σ.seam u.lower = .belowNull :=
        le_antisymm (σ.start_of_not_isAll hun ▸ hx.1) (Seam.belowNull_le _)
      have hfirst : u = s := by
        have hhead := h.head?_eq hu (hseam ▸ Seam.belowNull_le _)
        exact (Option.some.inj hhead).symm
      obtain ⟨g, hg, hgn, hl, hxg⟩ := exists_first hamb
      refine ⟨g, hg, ?_, hxg⟩
      rcases eq_of_seam_aboveNull (hbounds g hg).lower
        (seam_lower_of_ambiguous hamb hg hgn hl hxg) with hinf | hnull
      · rcases lower_of_mem_gaps hg with ⟨-, hfinite⟩ | ⟨v, hv, he⟩
        · rw [← hfirst, eq_null_of_seam σ (h.bounds u hu).lower hseam] at hfinite
          cases hfinite
        · exact absurd (he ▸ hinf) (opposite_ne_negInfinity (h.bounds v hv).upper)
      · exact hnull

/-- The complement of a canonical list is canonical and has the complement of its form. -/
theorem complement_spec {spans : List Span} (h : σ.Canonical spans) :
    σ.Canonical (Span.complement d.compare spans).value ∧
      σ.form (Span.complement d.compare spans).value = (σ.form spans).complement := by
  unfold Span.complement
  split
  next hall =>
    obtain ⟨s, hs, hsall⟩ := List.any_eq_true.1 hall
    obtain rfl := Span.isAll_iff.1 hsall
    rw [h.eq_all_of_mem hs, form_all, Form.complement_top]
    exact ⟨.nil, form_nil⟩
  next hall =>
    have hn : .all ∉ spans := fun hs => hall (List.any_eq_true.2 ⟨_, hs, rfl⟩)
    obtain ⟨hb, hsame⟩ := gaps_spec h.toAscending hn
    have hseams : σ.extents (Span.gaps spans) = (σ.form spans).complement.seams := by
      ext x
      rw [hsame x, Form.complement_seams, Set.mem_sdiff, Set.mem_Ico, and_assoc, form_seams]
    refine ⟨(union_spec hb).1, (form_union hb).trans (form_eq hseams ?_)⟩
    intro hamb
    have hnull := namesNull_gaps h.toAscending hn (hseams ▸ hamb)
    rw [Form.complement_seams] at hamb
    rw [hnull, Form.complement_unsettled, and_iff_right hamb, form_seams, not_not]

end SearchArgument.Domain.Scale
