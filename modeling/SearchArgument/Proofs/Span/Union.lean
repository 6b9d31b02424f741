import Mathlib.Order.MinMax
import SearchArgument.Proofs.Span.Canonical

/-! The union of spans. Sorting by lower cuts and sweeping once joins spans exactly where
their extents meet, so the swept spans ascend with a gap between any two of them and take
up what the given ones did. Closing the result mends its spelling: what the sweep joined to
a span between both infinities never held null, and a single span from null on holds all. -/

namespace SearchArgument.Domain.Scale

variable {d : Domain} {K : Type} [LinearOrder K] {σ : d.Scale K}

/-! ### Sorting -/

theorem insert_perm (cmp : Value → Value → Ordering) (s : Span) (spans : List Span) :
    (Span.insert cmp s spans).Perm (s :: spans) := by
  induction spans with
  | nil => exact .refl _
  | cons t ts ih =>
    simp only [Span.insert]
    split
    · exact .refl _
    · exact (ih.cons t).trans (.swap s t ts)

theorem sort_perm (cmp : Value → Value → Ordering) (spans : List Span) :
    (Span.sort cmp spans).Perm spans := by
  induction spans with
  | nil => exact .refl _
  | cons s ts ih => exact (insert_perm cmp s _).trans (ih.cons s)

/-- Inserting keeps a transitive relation along the list that goes with the order of spans. -/
theorem pairwise_insert {cmp : Value → Value → Ordering} {R : Span → Span → Prop}
    (htrans : ∀ a b c, R a b → R b c → R a c) {s : Span} {spans : List Span}
    (hle : ∀ t ∈ spans, (s.compare cmp t).isLE → R s t)
    (hgt : ∀ t ∈ spans, ¬(s.compare cmp t).isLE → R t s) (h : spans.Pairwise R) :
    (Span.insert cmp s spans).Pairwise R := by
  induction spans with
  | nil => exact List.pairwise_singleton _ _
  | cons t ts ih =>
    obtain ⟨hhead, htail⟩ := List.pairwise_cons.1 h
    simp only [Span.insert]
    split
    next hst =>
      have hst := hle t List.mem_cons_self hst
      refine List.pairwise_cons.2 ⟨?_, h⟩
      intro u hu
      rcases List.mem_cons.1 hu with rfl | hu
      · exact hst
      · exact htrans s t u hst (hhead u hu)
    next hst =>
      refine List.pairwise_cons.2 ⟨?_, ih (fun u hu => hle u (List.mem_cons_of_mem _ hu))
        (fun u hu => hgt u (List.mem_cons_of_mem _ hu)) htail⟩
      intro u hu
      rcases List.mem_cons.1 ((insert_perm cmp s ts).mem_iff.1 hu) with rfl | hu
      · exact hgt t List.mem_cons_self hst
      · exact hhead u hu

theorem pairwise_sort {cmp : Value → Value → Ordering} {R : Span → Span → Prop}
    (htrans : ∀ a b c, R a b → R b c → R a c) {spans : List Span}
    (hle : ∀ s ∈ spans, ∀ t ∈ spans, (s.compare cmp t).isLE → R s t)
    (hgt : ∀ s ∈ spans, ∀ t ∈ spans, ¬(s.compare cmp t).isLE → R t s) :
    (Span.sort cmp spans).Pairwise R := by
  induction spans with
  | nil => exact List.Pairwise.nil
  | cons s ts ih =>
    have hmem : ∀ t ∈ Span.sort cmp ts, t ∈ s :: ts := fun t ht =>
      List.mem_cons_of_mem _ ((sort_perm cmp ts).mem_iff.1 ht)
    have hs := List.mem_cons_self (a := s) (l := ts)
    apply pairwise_insert htrans (fun t ht => hle s hs t (hmem t ht))
      (fun t ht => hgt s hs t (hmem t ht))
    exact ih (fun t ht u hu => hle t (List.mem_cons_of_mem _ ht) u (List.mem_cons_of_mem _ hu))
      (fun t ht u hu => hgt t (List.mem_cons_of_mem _ ht) u (List.mem_cons_of_mem _ hu))

/-- Ascending lower cuts. -/
def Sorted (σ : d.Scale K) (spans : List Span) : Prop :=
  spans.Pairwise fun s t => σ.seam s.lower ≤ σ.seam t.lower

theorem seam_lower_le_of_isLE {s t : Span} (hs : d.Bounds s) (ht : d.Bounds t)
    (h : (s.compare d.compare t).isLE) : σ.seam s.lower ≤ σ.seam t.lower := by
  apply seam_le_of_compare_ne_gt hs.lower ht.lower
  intro hgt
  simp [Span.compare, hgt] at h

theorem seam_lower_le_of_not_isLE {s t : Span} (hs : d.Bounds s) (ht : d.Bounds t)
    (h : ¬(s.compare d.compare t).isLE) : σ.seam t.lower ≤ σ.seam s.lower := by
  apply seam_le_of_compare_ne_lt hs.lower ht.lower
  intro hlt
  simp [Span.compare, hlt] at h

theorem sorted_sort {spans : List Span} (hb : ∀ s ∈ spans, d.Bounds s) :
    σ.Sorted (Span.sort d.compare spans) := by
  apply pairwise_sort
  · intro a b c hab hbc
    exact hab.trans hbc
  · intro s hs t ht
    exact seam_lower_le_of_isLE (hb s hs) (hb t ht)
  · intro s hs t ht
    exact seam_lower_le_of_not_isLE (hb s hs) (hb t ht)

/-! ### Sweeping -/

@[simp] theorem extendTo_lower (cmp : Value → Value → Ordering) (s : Span) (c : Cut) :
    (s.extendTo cmp c).lower = s.lower := by
  unfold Span.extendTo
  split <;> rfl

theorem bounds_extendTo {s : Span} {c : Cut} (hs : d.Bounds s) (hc : d.Upper c) :
    d.Bounds (s.extendTo d.compare c) := by
  unfold Span.extendTo
  split
  · exact ⟨hs.lower, hc⟩
  · exact hs

theorem seam_extendTo_upper {s : Span} {c : Cut} (hs : d.Bounds s) (hc : d.Upper c) :
    σ.seam (s.extendTo d.compare c).upper = max (σ.seam s.upper) (σ.seam c) := by
  have hgt := compare_upper_eq_gt_iff (σ := σ) hc hs.upper
  unfold Span.extendTo
  split
  next h => exact (max_eq_right (hgt.1 (by simpa using h)).le).symm
  next h => exact (max_eq_left (not_lt.1 fun hlt => h (by simpa using hgt.2 hlt))).symm

/-- Two spans that meet take up what the first does, extended to the end of the second. -/
theorem mem_between_extendTo {s t : Span} (hs : d.Bounds s) (ht : d.Bounds t)
    (hle : σ.seam s.lower ≤ σ.seam t.lower) (hmeet : σ.seam t.lower ≤ σ.seam s.upper)
    (x : Seam K) :
    x ∈ σ.between (s.extendTo d.compare t.upper) ↔ x ∈ σ.between s ∨ x ∈ σ.between t := by
  simp only [mem_between, extendTo_lower, seam_extendTo_upper (σ := σ) hs ht.upper, lt_max_iff]
  constructor
  · rintro ⟨hx, hx' | hx'⟩
    · exact .inl ⟨hx, hx'⟩
    · rcases lt_or_ge x (σ.seam s.upper) with hlt | hge
      · exact .inl ⟨hx, hlt⟩
      · exact .inr ⟨hmeet.trans hge, hx'⟩
  · rintro (⟨hx, hx'⟩ | ⟨hx, hx'⟩)
    · exact ⟨hx, .inl hx'⟩
    · exact ⟨hle.trans hx, .inr hx'⟩

/-- What the sweep keeps: it starts where the running span does, leaves a gap behind each
span that it lets go of, and takes up the same seams. -/
theorem sweep_spec (s : Span) (ts : List Span) (hb : ∀ t ∈ s :: ts, d.Bounds t)
    (hp : ∀ t ∈ s :: ts, σ.seam t.lower < σ.seam t.upper) (hs : σ.Sorted (s :: ts)) :
    σ.Ascending (Span.sweep d.compare s ts) ∧
      (∀ u ∈ Span.sweep d.compare s ts, σ.seam s.lower ≤ σ.seam u.lower) ∧
      ∀ x, (∃ u ∈ Span.sweep d.compare s ts, x ∈ σ.between u) ↔
        ∃ u ∈ s :: ts, x ∈ σ.between u := by
  induction ts generalizing s with
  | nil =>
    refine ⟨⟨hb, hp, List.pairwise_singleton _ _⟩, ?_, fun x => Iff.rfl⟩
    intro u hu
    rw [List.mem_singleton.1 hu]
  | cons t ts ih =>
    obtain ⟨hsb, htb⟩ := List.forall_mem_cons.1 hb
    obtain ⟨hsp, htp⟩ := List.forall_mem_cons.1 hp
    obtain ⟨hlower, hsorted⟩ := List.pairwise_cons.1 hs
    obtain ⟨ht, hts⟩ := List.forall_mem_cons.1 htb
    have hjoins := joins_iff (σ := σ) hsb.upper ht.lower (seam_upper_ne_belowNull hsp)
    have hst : σ.seam s.lower ≤ σ.seam t.lower := hlower t List.mem_cons_self
    simp only [Span.sweep]
    split
    next hj =>
      -- the running span grows and keeps its lower cut
      have hmeet := hjoins.1 hj
      set r := s.extendTo d.compare t.upper with hr
      have hrl : r.lower = s.lower := extendTo_lower _ _ _
      have hrp : σ.seam r.lower < σ.seam r.upper := by
        rw [hrl, seam_extendTo_upper hsb ht.upper]
        exact lt_max_of_lt_left hsp
      obtain ⟨hasc, hfirst, hsame⟩ := ih r
        (List.forall_mem_cons.2 ⟨bounds_extendTo hsb ht.upper, hts⟩)
        (List.forall_mem_cons.2 ⟨hrp, fun u hu => htp u (List.mem_cons_of_mem _ hu)⟩)
        (List.pairwise_cons.2 ⟨fun u hu => hrl ▸ hlower u (List.mem_cons_of_mem _ hu),
          (List.pairwise_cons.1 hsorted).2⟩)
      refine ⟨hasc, fun u hu => hrl ▸ hfirst u hu, fun x => ?_⟩
      rw [hsame x]
      simp only [List.exists_mem_cons_iff, hr, mem_between_extendTo hsb ht hst hmeet x, or_assoc]
    next hj =>
      have hgap : σ.seam s.upper < σ.seam t.lower := not_le.1 (mt hjoins.2 hj)
      obtain ⟨hasc, hfirst, hsame⟩ := ih t htb htp hsorted
      have hbehind : ∀ u ∈ Span.sweep d.compare t ts, σ.seam s.upper < σ.seam u.lower :=
        fun u hu => hgap.trans_le (hfirst u hu)
      refine ⟨.cons hsb hsp hbehind hasc, ?_, fun x => ?_⟩
      · intro u hu
        rcases List.mem_cons.1 hu with rfl | hu
        · exact le_rfl
        · exact hst.trans (hfirst u hu)
      · rw [List.exists_mem_cons_iff, List.exists_mem_cons_iff, hsame x]

theorem gather_spec (spans : List Span) (hb : ∀ s ∈ spans, d.Bounds s)
    (hp : ∀ s ∈ spans, σ.seam s.lower < σ.seam s.upper) :
    σ.Ascending (Span.gather d.compare spans) ∧
      ∀ x, (∃ u ∈ Span.gather d.compare spans, x ∈ σ.between u) ↔
        ∃ s ∈ spans, x ∈ σ.between s := by
  have hmem := fun s => (sort_perm d.compare spans).mem_iff (a := s)
  have hsorted := sorted_sort (σ := σ) hb
  simp only [← hmem] at hb hp ⊢
  unfold Span.gather
  split
  next hnil =>
    rw [hnil]
    exact ⟨⟨by simp, by simp, List.Pairwise.nil⟩, fun x => Iff.rfl⟩
  next s ts hcons =>
    rw [hcons] at hb hp hsorted ⊢
    obtain ⟨hasc, -, hsame⟩ := sweep_spec s ts hb hp hsorted
    exact ⟨hasc, hsame⟩

/-! ### Closing -/

/-- The respelling of a joined span changes neither of its seams. -/
theorem respell_spec {s : Span} (hs : d.Bounds s) :
    let t := if s.isAll then Span.nonNull else s
    d.Bounds t ∧ σ.seam t.lower = σ.seam s.lower ∧ σ.seam t.upper = σ.seam s.upper ∧
      σ.extent t = σ.between s := by
  intro t
  by_cases hall : s.isAll
  · obtain rfl := Span.isAll_iff.1 hall
    exact ⟨bounds_nonNull, rfl, rfl, rfl⟩
  · have ht : t = s := if_neg hall
    rw [ht]
    exact ⟨hs, rfl, rfl, extent_of_not_isAll σ (by simpa using hall)⟩

theorem respelled_spec {spans : List Span} (h : σ.Ascending spans) :
    let respelled := spans.map fun s => if s.isAll then Span.nonNull else s
    σ.Ascending respelled ∧ ∀ x, x ∈ σ.extents respelled ↔ ∃ s ∈ spans, x ∈ σ.between s := by
  intro respelled
  have hspec := fun s hs => respell_spec (σ := σ) (h.bounds s hs)
  refine ⟨⟨?_, ?_, ?_⟩, fun x => ?_⟩
  · intro t ht
    obtain ⟨s, hs, rfl⟩ := List.mem_map.1 ht
    exact (hspec s hs).1
  · intro t ht
    obtain ⟨s, hs, rfl⟩ := List.mem_map.1 ht
    obtain ⟨-, hl, hu, -⟩ := hspec s hs
    rw [hl, hu]
    exact h.proper s hs
  · refine List.pairwise_map.2 (h.apart.imp_of_mem fun {s t} hs ht hlt => ?_)
    rw [(hspec s hs).2.2.1, (hspec t ht).2.1]
    exact hlt
  · simp only [mem_extents, respelled, List.mem_map, exists_exists_and_eq_and]
    refine exists_congr fun s => and_congr_right fun hs => ?_
    rw [(hspec s hs).2.2.2]

theorem close_spec {spans : List Span} (h : σ.Ascending spans) :
    σ.Canonical (Span.close spans) ∧
      ∀ x, x ∈ σ.extents (Span.close spans) ↔ ∃ s ∈ spans, x ∈ σ.between s := by
  obtain ⟨hasc, hsame⟩ := respelled_spec h
  unfold Span.close
  generalize (spans.map fun s => if s.isAll then Span.nonNull else s) = respelled at hasc hsame ⊢
  split
  next s =>
    split
    next hnull =>
      refine ⟨canonical_all, fun x => ?_⟩
      rw [← hsame x, extents_singleton, extents_singleton, mem_extent_all,
        (isFromNull_iff (hasc.bounds s List.mem_cons_self)).1 hnull]
      simp [start, Span.isAll, seam]
    next hnull => exact ⟨⟨hasc, by simpa using hnull⟩, hsame⟩
  next hmany =>
    refine ⟨⟨hasc, fun s hs => ?_⟩, hsame⟩
    by_contra hnull
    exact hmany s (hasc.eq_singleton_of_isFromNull hs (by simpa using hnull))

/-! ### Union -/

theorem value_union (cmp : Value → Value → Ordering) (spans : List Span) :
    (Span.union cmp spans).value =
      let live := spans.filter fun s => !s.isInverted cmp
      if live.any Span.isAll then [.all] else Span.close (Span.gather cmp live) := by
  simp only [Span.union]
  split <;> rfl

/-- Dropping inverted spans loses nothing. -/
theorem mem_extents_live {spans : List Span} (hb : ∀ s ∈ spans, d.Bounds s) (x : Seam K) :
    x ∈ σ.extents (spans.filter fun s => !s.isInverted d.compare) ↔ x ∈ σ.extents spans := by
  refine exists_congr fun s => ?_
  simp only [List.mem_filter, Bool.not_eq_true']
  refine ⟨fun ⟨hs, hx⟩ => ⟨hs.1, hx⟩, fun ⟨hs, hx⟩ => ⟨⟨hs, ?_⟩, hx⟩⟩
  by_contra hinv
  rw [extent_of_isInverted (hb s hs) (by simpa using hinv)] at hx
  exact hx

/-- The union of any spans of a domain is canonical and takes up what they do. -/
theorem union_spec {spans : List Span} (hb : ∀ s ∈ spans, d.Bounds s) :
    σ.Canonical (Span.union d.compare spans).value ∧
      σ.extents (Span.union d.compare spans).value = σ.extents spans := by
  have hlive := mem_extents_live (σ := σ) hb
  rw [value_union]
  have hmem : ∀ s ∈ spans.filter fun s => !s.isInverted d.compare,
      d.Bounds s ∧ σ.seam s.lower < σ.seam s.upper := by
    intro s hs
    obtain ⟨hs, hinv⟩ := List.mem_filter.1 hs
    exact ⟨hb s hs, (not_isInverted_iff (hb s hs)).1 (by simpa using hinv)⟩
  generalize (spans.filter fun s => !s.isInverted d.compare) = live at hlive hmem ⊢
  dsimp only
  split
  next hall =>
    obtain ⟨s, hs, hsall⟩ := List.any_eq_true.1 hall
    obtain rfl := Span.isAll_iff.1 hsall
    refine ⟨canonical_all, Set.ext fun x => ?_⟩
    rw [extents_singleton, mem_extent_all, ← hlive x]
    exact ⟨fun hx => ⟨_, hs, σ.mem_extent_all.2 hx⟩, fun ⟨t, _, hx⟩ => lt_top_of_mem_extent hx⟩
  next hall =>
    have hnot : ∀ s ∈ live, s.isAll = false := by simpa using hall
    obtain ⟨hasc, hsame⟩ := gather_spec (σ := σ) live (fun s hs => (hmem s hs).1)
      fun s hs => (hmem s hs).2
    obtain ⟨hcan, hclosed⟩ := close_spec hasc
    refine ⟨hcan, Set.ext fun x => ?_⟩
    rw [hclosed x, hsame x, ← hlive x]
    refine exists_congr fun s => and_congr_right fun hs => ?_
    rw [extent_of_not_isAll σ (hnot s hs)]

end SearchArgument.Domain.Scale
