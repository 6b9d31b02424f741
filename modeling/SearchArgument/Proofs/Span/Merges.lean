import SearchArgument.Proofs.Span.Complement
import SearchArgument.Proofs.Span.Intersection
import SearchArgument.Tree.Evaluate

/-! What the operators report. A union reports how many spans it joined to others. It is at work in
intersections and complements too, but there it has nothing to join: the common parts of ascending
lists ascend, with a gap between any two, and so do the gaps of a list. -/

namespace SearchArgument

@[simp] theorem events_noteIf (b : Bool) (e : Event) :
    (noteIf b e).events = if b then [e] else [] := by
  cases b <;> rfl

@[simp] theorem Span.length_close (spans : List Span) :
    (Span.close spans).length = spans.length := by
  have hlength : (spans.map fun s => if s.isAll then nonNull else s).length = spans.length :=
    List.length_map _
  unfold Span.close
  split
  next s heq =>
    rw [heq] at hlength
    rw [← hlength]
    split <;> rfl
  next => exact hlength

namespace Domain.Scale

variable {d : Domain} {K : Type} [LinearOrder K] {σ : d.Scale K} {spans xs ys : List Span}

/-! ### Unions -/

/-- A union of spans that are not inverted reports what it joins. -/
theorem events_union {cmp : Value → Value → Ordering}
    (h : ∀ s ∈ spans, s.isInverted cmp = false) :
    (Span.union cmp spans).events = Span.merges spans (Span.union cmp spans).value.length := by
  rw [value_union]
  unfold Span.union Span.merges
  rw [Span.filter_isInverted h]
  dsimp only
  by_cases hall : spans.any Span.isAll
  · rw [if_pos hall, if_pos (.inl hall)]
    rfl
  · rw [if_neg hall, if_neg hall, Span.length_close]
    by_cases hle : spans.length ≤ (Span.gather cmp spans).length
    · rw [if_pos (.inr hle), Nat.sub_eq_zero_of_le hle]
      rfl
    · have hjoined : (spans.length - (Span.gather cmp spans).length != 0) :=
        bne_iff_ne.2 (Nat.sub_ne_zero_of_lt (not_le.1 hle))
      rw [if_neg (not_or.2 ⟨hall, hle⟩), hjoined]
      rfl

theorem Ascending.length_union_le (h : σ.Ascending spans) (hall : ¬spans.any Span.isAll) :
    spans.length ≤ (Span.union d.compare spans).value.length := by
  rw [value_union, Span.filter_isInverted h.not_isInverted, if_neg hall, Span.length_close,
    h.gather_eq_self]

/-- Ascending spans have nothing to join. -/
theorem Ascending.events_union (h : σ.Ascending spans) :
    (Span.union d.compare spans).events = [] := by
  rw [Domain.Scale.events_union h.not_isInverted, Span.merges, if_pos]
  by_cases hall : spans.any Span.isAll
  · exact .inl hall
  · exact .inr (h.length_union_le hall)

/-! ### Intersections -/

theorem Ascending.meets (hx : σ.Ascending xs) (hy : σ.Ascending ys) :
    σ.Ascending (Span.meets d.compare xs ys) := by
  have hb : ∀ u ∈ Span.meets d.compare xs ys, d.Bounds u := fun u hu =>
    bounds_of_mem_meets hx.bounds hy.bounds hu
  refine ⟨hb, fun u hu => ?_, List.pairwise_flatMap.2 ⟨fun s hs => ?_, ?_⟩⟩
  · obtain ⟨-, -, -, -, -, hinv⟩ := mem_meets.1 hu
    exact (not_isInverted_iff (hb u hu)).1 hinv
  · -- common parts with one span are apart because the spans of the other list are
    refine (List.pairwise_map.2 (hy.apart.imp_of_mem fun {t t'} ht ht' hlt => ?_)).filter _
    rw [seam_meet_upper (hx.bounds s hs) (hy.bounds t ht),
      seam_meet_lower (hx.bounds s hs) (hy.bounds t' ht')]
    exact (min_le_right _ _).trans_lt (hlt.trans_le (le_max_right _ _))
  · refine hx.apart.imp_of_mem fun {s s'} hs hs' hlt u hu u' hu' => ?_
    obtain ⟨t, ht, rfl⟩ := List.mem_map.1 (List.mem_filter.1 hu).1
    obtain ⟨t', ht', rfl⟩ := List.mem_map.1 (List.mem_filter.1 hu').1
    rw [seam_meet_upper (hx.bounds s hs) (hy.bounds t ht),
      seam_meet_lower (hx.bounds s' hs') (hy.bounds t' ht')]
    exact (min_le_left _ _).trans_lt (hlt.trans_le (le_max_left _ _))

theorem Left.events_narrow {left : Option (List Span)} {operand : List Span} (hl : σ.Left left)
    (ho : σ.Canonical operand) : (Span.narrow d.compare left operand).events = [] := by
  unfold Span.narrow
  split
  · rfl
  · rw [Recorded.events_map]
    cases left with
    | none => exact ho.toAscending.events_union
    | some xs => exact (hl.1.toAscending.meets ho.toAscending).events_union

theorem events_intersection {operands : List (List Span)}
    (ho : ∀ spans ∈ operands, σ.Canonical spans) :
    (Span.intersection d.compare operands).events = [] := by
  have hfold : ∀ left, σ.Left left →
      (operands.foldlM (Span.narrow d.compare) left).events = [] := by
    induction operands with
    | nil => exact fun _ _ => rfl
    | cons o os ih =>
      obtain ⟨hoc, hos⟩ := List.forall_mem_cons.1 ho
      intro left hl
      rw [List.foldlM_cons, Recorded.events_bind, hl.events_narrow hoc,
        ih hos _ (narrow_spec hl hoc).1, List.append_nil]
  have hstart : σ.Left none := trivial
  simp only [Span.intersection, Recorded.events_bind, Recorded.events_pure, hfold none hstart,
    List.append_nil]

/-! ### Complements -/

theorem seam_lt_top {c : Cut} (hc : d.Upper c) (h : c ≠ .posInfinity) : σ.seam c < .top :=
  lt_of_le_of_ne (Seam.le_top _) fun he => h (eq_posInfinity_of_seam σ hc he)

theorem aboveNull_lt_seam {c : Cut} (h : c.coordinate.isFinite) : .aboveNull < σ.seam c := by
  cases c with
  | finite v s t => cases s <;> cases t <;> simp [seam]
  | negInfinity | posInfinity | null => cases h

theorem Ascending.gapsAfter {upper : Cut} (hu : d.Upper upper) (hne : σ.seam upper ≠ .belowNull)
    (h : σ.Ascending spans) (hlt : ∀ s ∈ spans, σ.seam upper < σ.seam s.lower) :
    σ.Ascending (Span.gapsAfter upper spans) ∧
      ∀ g ∈ Span.gapsAfter upper spans, σ.seam upper ≤ σ.seam g.lower := by
  induction spans generalizing upper with
  | nil =>
    unfold Span.gapsAfter
    split
    · exact ⟨.nil, List.forall_mem_nil _⟩
    next hinf =>
      have hseam := seam_opposite_of_upper (σ := σ) hu hinf
      refine ⟨.singleton (gap_spec (σ := σ) hu hinf .posInfinity).1 ?_, ?_⟩
      · exact hseam.trans_lt (seam_lt_top hu hinf)
      · exact List.forall_mem_singleton.2 hseam.ge
  | cons s ts ih =>
    have hs := h.bounds s List.mem_cons_self
    have hus := hlt s List.mem_cons_self
    obtain ⟨hinf, hfin⟩ := ne_infinity_of_seam_lt hne hus
    have hlower := seam_opposite_of_upper (σ := σ) hu hinf
    have hupper := seam_opposite_of_lower (σ := σ) hs.lower hfin
    have hsp := h.proper s List.mem_cons_self
    obtain ⟨hrest, hbehind⟩ := ih hs.upper (seam_upper_ne_belowNull hsp) h.tail
      (List.pairwise_cons.1 h.apart).1
    refine ⟨.cons (gap_spec (σ := σ) hu hinf (hs.lower.opposite hfin)).1 ?_ ?_ hrest,
      List.forall_mem_cons.2 ⟨hlower.ge, ?_⟩⟩
    · exact hlower.trans_lt (hus.trans_eq hupper.symm)
    · intro g hg
      exact hupper.trans_lt (hsp.trans_le (hbehind g hg))
    · intro g hg
      exact (hus.trans hsp).le.trans (hbehind g hg)

/-- The gaps of ascending spans ascend: between any two lies one of the spans. -/
theorem Ascending.gaps (h : σ.Ascending spans) : σ.Ascending (Span.gaps spans) := by
  cases spans with
  | nil => exact canonical_nonNull.toAscending
  | cons s ts =>
    have hs := h.bounds s List.mem_cons_self
    have hsp := h.proper s List.mem_cons_self
    obtain ⟨hrest, hbehind⟩ := Ascending.gapsAfter hs.upper (seam_upper_ne_belowNull hsp) h.tail
      (List.pairwise_cons.1 h.apart).1
    rw [Span.gaps]
    split
    next hfinite =>
      have hfirst := aboveNull_lt_seam (σ := σ) hfinite
      have hfin : s.lower ≠ .negInfinity := by
        intro he
        rw [he] at hfinite
        cases hfinite
      have hupper := seam_opposite_of_lower (σ := σ) hs.lower hfin
      refine .cons ⟨.negInfinity, hs.lower.opposite hfin⟩ ?_ ?_ hrest
      · exact hfirst.trans_eq hupper.symm
      · intro g hg
        exact hupper.trans_lt (hsp.trans_le (hbehind g hg))
    next => exact hrest

theorem events_complement (h : σ.Ascending spans) :
    (Span.complement d.compare spans).events = [] := by
  unfold Span.complement
  split
  · rfl
  · exact h.gaps.events_union

end Domain.Scale

end SearchArgument
