import SearchArgument.Proofs.RangeSet

/-! Dense domains. Every mark of a dense domain can be had from one of its members, and then
there is a probe between any two seams, so the probes of a range set tell all the seams that
it takes up. -/

namespace SearchArgument.Domain

variable {d : Domain} {K : Type} [LinearOrder K] {σ : d.Scale K}

namespace Scale

/-- Every mark is the mark of a value that the domain holds. -/
def Onto (σ : d.Scale K) : Prop := ∀ k, ∃ v, d.Holds v ∧ σ.mark v = k

/-- The marks that are in use, with one of them for all values that are not held. -/
theorem exists_onto (σ : d.Scale K) {u : Value} (hu : d.Holds u) :
    ∃ (L : Type) (_ : LinearOrder L) (τ : d.Scale L), τ.Onto := by
  classical
  let used (v : Value) : {k : K // ∃ v, d.Holds v ∧ σ.mark v = k} :=
    if hv : d.Holds v then ⟨σ.mark v, v, hv, rfl⟩ else ⟨σ.mark u, u, hu, rfl⟩
  have hused : ∀ {v}, d.Holds v → (used v : K) = σ.mark v := fun hv => by simp [used, hv]
  refine ⟨_, inferInstance, ⟨used, ?_⟩, ?_⟩
  · intro v w hv hw
    rw [σ.compare_eq hv hw, ← hused hv, ← hused hw]
    exact compare_of_strictMono (Subtype.strictMono_coe _) _ _
  · rintro ⟨k, v, hv, rfl⟩
    exact ⟨v, hv, Subtype.ext (hused hv)⟩

end Scale

namespace Dense

theorem exists_onto (hd : d.Dense) :
    ∃ (K : Type) (_ : LinearOrder K) (σ : d.Scale K), σ.Onto := by
  obtain ⟨v, hv⟩ := hd.inhabited
  obtain ⟨K, _, ⟨σ⟩⟩ := hd.toOrdered.exists_scale
  exact σ.exists_onto hv.holds

/-- A member whose floor lies between two seams above the null marker. -/
theorem exists_member (hd : d.Dense) (ho : σ.Onto) {x z : Seam K} (hx : .aboveNull ≤ x)
    (h : x < z) : ∃ v, d.Member v ∧ x ≤ σ.floor (.finite v) ∧ σ.floor (.finite v) < z := by
  have hmark : ∀ k, ∃ v, d.Member v ∧ σ.mark v = k := fun k => by
    obtain ⟨v, hv, hk⟩ := ho k
    exact ⟨v, hd.member_of_holds v hv, hk⟩
  have hlt : ∀ {v w}, d.Member v → d.Member w → d.compare v w = .lt → σ.mark v < σ.mark w :=
    fun hv hw => (Scale.compare_eq_lt_iff hv.holds hw.holds).1
  cases x with
  | belowNull => exact absurd hx (not_le.2 Seam.belowNull_lt_aboveNull)
  | aboveNull =>
    cases z with
    | belowNull => exact absurd h (Seam.not_lt_belowNull _)
    | aboveNull => exact absurd h (lt_irrefl _)
    | beside l c =>
      obtain ⟨w, hw, rfl⟩ := hmark l
      obtain ⟨v, hv, hvw⟩ := hd.below w hw
      exact ⟨v, hv, Seam.aboveNull_le_beside _ _, Seam.beside_lt_beside.2 (.inl (hlt hv hw hvw))⟩
    | top =>
      obtain ⟨v, hv⟩ := hd.inhabited
      exact ⟨v, hv, Seam.aboveNull_le_beside _ _, Seam.beside_lt_top _ _⟩
  | beside k b =>
    obtain ⟨u, hu, rfl⟩ := hmark k
    cases b with
    | false => exact ⟨u, hu, le_rfl, h⟩
    | true =>
      cases z with
      | belowNull => exact absurd h (Seam.not_lt_belowNull _)
      | aboveNull => exact absurd h (not_lt.2 hx)
      | beside l c =>
        obtain ⟨w, hw, rfl⟩ := hmark l
        have huw : σ.mark u < σ.mark w := (Seam.beside_lt_beside.1 h).resolve_right
          fun hc => absurd hc.2 (not_lt.2 (Bool.le_true c))
        obtain ⟨v, hv, huv, hvw⟩ := hd.between u w hu hw
          ((Scale.compare_eq_lt_iff hu.holds hw.holds).2 huw)
        exact ⟨v, hv, Seam.beside_le_beside.2 (.inl (hlt hu hv huv)),
          Seam.beside_lt_beside.2 (.inl (hlt hv hw hvw))⟩
      | top =>
        obtain ⟨v, hv, huv⟩ := hd.above u hu
        exact ⟨v, hv, Seam.beside_le_beside.2 (.inl (hlt hu hv huv)), Seam.beside_lt_top _ _⟩
  | top => exact absurd h (not_lt.2 (Seam.le_top _))

theorem exists_probe (hd : d.Dense) (ho : σ.Onto) {x z : Seam K} (h : x < z) :
    ∃ probe p, d.point? probe = some p ∧ x ≤ σ.floor p ∧ σ.floor p < z := by
  rcases eq_or_ne x .belowNull with rfl | hx
  · exact ⟨.null, .null, rfl, le_rfl, h⟩
  · obtain ⟨v, hv, hxv, hvz⟩ := hd.exists_member ho (Seam.aboveNull_le_of_ne hx) h
    exact ⟨v, .finite v, hv.point?, hxv, hvz⟩

/-- A domain whose members stand for those of a dense one is dense, if no two of them stand for the
same member without being equal. -/
theorem of_spelling {e : Domain} {spelled : Value → Value} (hd : d.Dense)
    (hmember : ∀ v, e.Holds v → e.Member v) (hspelled : ∀ v, e.Member v → d.Member (spelled v))
    (honto : ∀ w, d.Member w → ∃ v, e.Member v ∧ spelled v = w)
    (hcompare : ∀ v w, e.compare v w = d.compare (spelled v) (spelled w))
    (hbeq : ∀ v w, e.Member v → e.Member w → e.compare v w = .eq → v == w) : e.Dense where
  swap v w hv hw := by
    rw [hcompare, hcompare]
    exact hd.swap _ _ (hspelled v (hmember v hv)).holds (hspelled w (hmember w hw)).holds
  trans u v w hu hv hw := by
    rw [hcompare, hcompare, hcompare]
    exact hd.trans _ _ _ (hspelled u (hmember u hu)).holds (hspelled v (hmember v hv)).holds
      (hspelled w (hmember w hw)).holds
  inhabited := by
    obtain ⟨w, hw⟩ := hd.inhabited
    obtain ⟨v, hv, -⟩ := honto w hw
    exact ⟨v, hv⟩
  member_of_holds := hmember
  eq_of_compare := hbeq
  between u w hu hw huw := by
    rw [hcompare] at huw
    obtain ⟨m, hm, hum, hmw⟩ := hd.between _ _ (hspelled u hu) (hspelled w hw) huw
    obtain ⟨v, hv, rfl⟩ := honto m hm
    exact ⟨v, hv, (hcompare u v).trans hum, (hcompare v w).trans hmw⟩
  below w hw := by
    obtain ⟨m, hm, hmw⟩ := hd.below _ (hspelled w hw)
    obtain ⟨v, hv, rfl⟩ := honto m hm
    exact ⟨v, hv, (hcompare v w).trans hmw⟩
  above v hv := by
    obtain ⟨m, hm, hvm⟩ := hd.above _ (hspelled v hv)
    obtain ⟨w, hw, rfl⟩ := honto m hm
    exact ⟨w, hw, (hcompare v w).trans hvm⟩

end Dense

namespace Scale

/-- A seam that is left out is followed by more of them. -/
theorem exists_gap {spans : List Span} {x : Seam K} (hx : x ∉ σ.extents spans) (ht : x < .top) :
    ∃ z, x < z ∧ ∀ y, x ≤ y → y < z → y ∉ σ.extents spans := by
  induction spans with
  | nil => exact ⟨.top, ht, fun y _ _ hy => by simp at hy⟩
  | cons s ss ih =>
    rw [mem_extents_cons, not_or] at hx
    obtain ⟨z, hxz, hz⟩ := ih hx.2
    rcases lt_or_ge x (σ.start s) with hlt | hge
    · refine ⟨min z (σ.start s), lt_min hxz hlt, fun y hxy hy => ?_⟩
      obtain ⟨hyz, hys⟩ := lt_min_iff.1 hy
      rw [mem_extents_cons, not_or]
      exact ⟨fun hmem => absurd hmem.1 (not_le.2 hys), hz y hxy hyz⟩
    · have hupper : σ.seam s.upper ≤ x := not_lt.1 fun hlt => hx.1 ⟨hge, hlt⟩
      refine ⟨z, hxz, fun y hxy hy => ?_⟩
      rw [mem_extents_cons, not_or]
      exact ⟨fun hmem => absurd hmem.2 (not_lt.2 (hupper.trans hxy)), hz y hxy hy⟩

end Scale

/-! ### Membership tells the seams -/

namespace Dense

theorem extents_subset (hd : d.Dense) (ho : σ.Onto) {s t : RangeSet} (hs : s.domain = d)
    (ht : t.domain = d) (hsb : ∀ a ∈ s.spans, d.Bounds a) (htb : ∀ a ∈ t.spans, d.Bounds a)
    (same : ∀ probe, s.contains probe → t.contains probe) :
    σ.extents s.spans ⊆ σ.extents t.spans := by
  rintro x ⟨a, ha, hxa⟩
  by_contra hx
  obtain ⟨z, hxz, hz⟩ := Scale.exists_gap hx (Scale.lt_top_of_mem_extent hxa)
  obtain ⟨probe, p, hp, hxp, hpz⟩ := hd.exists_probe ho (lt_min hxz hxa.2)
  obtain ⟨hpz, hpa⟩ := lt_min_iff.1 hpz
  have hin : s.contains probe :=
    (RangeSet.contains_iff_of_point hs hsb hp).2 ⟨a, ha, hxa.1.trans hxp, hpa⟩
  exact hz _ hxp hpz ((RangeSet.contains_iff_of_point ht htb hp).1 (same probe hin))

/-- Over a dense domain, range sets of the same probes take up the same seams. -/
theorem extents_eq (hd : d.Dense) (ho : σ.Onto) {s t : RangeSet} (hs : s.domain = d)
    (ht : t.domain = d) (hsb : ∀ a ∈ s.spans, d.Bounds a) (htb : ∀ a ∈ t.spans, d.Bounds a)
    (same : ∀ probe, s.contains probe = t.contains probe) :
    σ.extents s.spans = σ.extents t.spans :=
  (hd.extents_subset ho hs ht hsb htb fun probe h => same probe ▸ h).antisymm
    (hd.extents_subset ho ht hs htb hsb fun probe h => same probe ▸ h)

end Dense

end SearchArgument.Domain
