import SearchArgument.Proofs.Form
import SearchArgument.Proofs.Span.Settled

/-! The form of a list of spans. Any spans of a domain have a form: the seams that they take up,
and whether none of them names the null marker as the bound that they begin behind. Putting lists
together joins their forms. A union keeps the form of what it is given, so the choice that a
canonical list makes at its beginning goes back to the spans that it was made of. -/

namespace SearchArgument

namespace Span

/-- The sweep begins where its running span does. -/
theorem exists_lower_sweep (cmp : Value → Value → Ordering) (s : Span) (ts : List Span) :
    ∃ u ∈ sweep cmp s ts, u.lower = s.lower := by
  induction ts generalizing s with
  | nil => exact ⟨s, List.mem_cons_self, rfl⟩
  | cons t ts ih =>
    simp only [sweep]
    split
    · obtain ⟨u, hu, he⟩ := ih (s.extendTo cmp t.upper)
      exact ⟨u, hu, he.trans (Domain.Scale.extendTo_lower cmp s t.upper)⟩
    · exact ⟨s, List.mem_cons_self, rfl⟩

end Span

namespace Domain.Scale

variable {d : Domain} {K : Type} [LinearOrder K]

/-- Some span begins at `> null`, in so many words, and is not empty. -/
def NamesNull (σ : d.Scale K) (spans : List Span) : Prop :=
  ∃ s ∈ spans, s.lower = .null .lower .opened ∧ .aboveNull ∈ σ.extent s

/-- The form of any spans, canonical or not. -/
def form (σ : d.Scale K) (spans : List Span) : Form K where
  seams := σ.extents spans
  unsettled := Seam.Ambiguous (σ.extents spans) ∧ ¬σ.NamesNull spans
  top_notMem := by
    rintro ⟨s, -, hx⟩
    exact lt_irrefl _ (lt_top_of_mem_extent hx)
  ambiguous h := h.1

variable {σ : d.Scale K}

@[simp] theorem form_seams (spans : List Span) : (σ.form spans).seams = σ.extents spans := rfl

theorem form_unsettled {spans : List Span} : (σ.form spans).unsettled ↔
    Seam.Ambiguous (σ.extents spans) ∧ ¬σ.NamesNull spans := Iff.rfl

/-- Between lists of the same seams, only the naming of null is left to compare. -/
theorem form_eq {spans : List Span} {f : Form K} (hseams : σ.extents spans = f.seams)
    (hnull : Seam.Ambiguous f.seams → (σ.NamesNull spans ↔ ¬f.unsettled)) :
    σ.form spans = f := by
  apply Form.ext hseams
  apply propext
  rw [form_unsettled, hseams]
  constructor
  · rintro ⟨hamb, hn⟩
    exact not_not.1 fun hu => hn ((hnull hamb).2 hu)
  · intro hu
    exact ⟨f.ambiguous hu, fun hn => (hnull (f.ambiguous hu)).1 hn hu⟩

/-! ### Putting lists together -/

theorem NamesNull.mem_extents {spans : List Span} (h : σ.NamesNull spans) :
    .aboveNull ∈ σ.extents spans := by
  obtain ⟨s, hs, -, hx⟩ := h
  exact ⟨s, hs, hx⟩

theorem namesNull_append (xs ys : List Span) :
    σ.NamesNull (xs ++ ys) ↔ σ.NamesNull xs ∨ σ.NamesNull ys := by
  simp only [NamesNull, List.mem_append, or_and_right, exists_or]

theorem form_nil : σ.form [] = ⊥ := by
  apply form_eq σ.extents_nil
  intro hamb
  exact (hamb.aboveNull_mem : Seam.aboveNull ∈ (∅ : Set (Seam K))).elim

theorem form_all : σ.form [.all] = ⊤ := by
  apply form_eq
  · ext x
    rw [σ.extents_singleton, σ.mem_extent_all, Form.top_seams, Set.mem_Iio]
  · intro hamb
    exact (hamb.belowNull_notMem (by simp)).elim

theorem form_append (xs ys : List Span) : σ.form (xs ++ ys) = σ.form xs ⊔ σ.form ys := by
  apply form_eq (σ.extents_append xs ys)
  intro hamb
  have hpart : ∀ {zs}, σ.extents zs ⊆ σ.extents xs ∪ σ.extents ys →
      (σ.NamesNull zs ↔ ¬(.aboveNull ∈ σ.extents zs → (σ.form zs).unsettled)) := by
    intro zs hsub
    rw [form_unsettled]
    constructor
    · intro hn hu
      exact (hu hn.mem_extents).2 hn
    · intro hu
      by_contra hn
      exact hu fun hmem => ⟨hamb.mono hsub hmem, hn⟩
  rw [namesNull_append, hpart Set.subset_union_left, hpart Set.subset_union_right,
    Form.sup_unsettled]
  simp only [form_seams, not_and_or]
  tauto

theorem form_flatten (operands : List (List Span)) :
    σ.form operands.flatten = (operands.map σ.form : Multiset (Form K)).sup := by
  induction operands with
  | nil => exact form_nil
  | cons o os ih =>
    rw [List.flatten_cons, form_append, ih, List.map_cons, ← Multiset.cons_coe, Multiset.sup_cons]

/-! ### Beginning above null -/

/-- The two spellings of one seam. -/
theorem eq_of_seam_aboveNull {c : Cut} (hc : d.Lower c) (h : σ.seam c = .aboveNull) :
    c = .negInfinity ∨ c = .null .lower .opened := by
  rcases hc with _ | (_ | _) | ⟨_ | _, hv⟩ <;> simp_all [seam]

theorem eq_null_of_isNull {c : Cut} (hc : d.Lower c) (hn : c.isNull)
    (h : σ.seam c ≠ .belowNull) : c = .null .lower .opened := by
  rcases hc with _ | (_ | _) | ⟨_ | _, hv⟩ <;>
    simp_all [seam, Cut.isNull, Cut.coordinate, Coordinate.isNull]

/-- Only the first span begins so low. -/
theorem Ascending.head?_eq {spans : List Span} (h : σ.Ascending spans) {s : Span}
    (hs : s ∈ spans) (hl : σ.seam s.lower ≤ .aboveNull) : spans.head? = some s := by
  cases spans with
  | nil => simp at hs
  | cons t ts =>
    rcases List.mem_cons.1 hs with rfl | hs
    · rfl
    · have hgap := (List.pairwise_cons.1 h.apart).1 s hs
      have hne := seam_upper_ne_belowNull (h.proper t List.mem_cons_self)
      exact absurd (hgap.trans_le hl) (not_lt.2 (Seam.aboveNull_le_of_ne hne))

theorem Ascending.eq_of_lower_le {spans : List Span} (h : σ.Ascending spans) {s t : Span}
    (hs : s ∈ spans) (ht : t ∈ spans) (hsl : σ.seam s.lower ≤ .aboveNull)
    (htl : σ.seam t.lower ≤ .aboveNull) : s = t :=
  Option.some.inj ((h.head?_eq hs hsl).symm.trans (h.head?_eq ht htl))

/-- The span that takes up the seam above null, where null is not among the points. -/
theorem exists_first {spans : List Span} (hamb : Seam.Ambiguous (σ.extents spans)) :
    ∃ s ∈ spans, s.isAll = false ∧ σ.seam s.lower ≤ .aboveNull ∧ .aboveNull ∈ σ.extent s := by
  obtain ⟨s, hs, hx⟩ := hamb.aboveNull_mem
  have hall : s.isAll = false := by
    by_contra hall
    obtain rfl := Span.isAll_iff.1 (by simpa using hall)
    exact hamb.belowNull_notMem ⟨_, hs, σ.mem_extent_all.2 Seam.belowNull_lt_top⟩
  exact ⟨s, hs, hall, σ.start_of_not_isAll hall ▸ hx.1, hx⟩

/-- A span that takes up the seam above null, but not the one below, begins there. -/
theorem seam_lower_of_ambiguous {spans : List Span} (hamb : Seam.Ambiguous (σ.extents spans))
    {s : Span} (hs : s ∈ spans) (hall : s.isAll = false) (hl : σ.seam s.lower ≤ .aboveNull)
    (hx : .aboveNull ∈ σ.extent s) : σ.seam s.lower = .aboveNull := by
  apply hl.antisymm
  apply Seam.aboveNull_le_of_ne
  intro he
  refine hamb.belowNull_notMem ⟨s, hs, ?_, (Seam.belowNull_le _).trans_lt hx.2⟩
  rw [σ.start_of_not_isAll hall, he]

theorem Canonical.unsettled_iff {spans : List Span} (h : σ.Canonical spans) :
    (σ.form spans).unsettled ↔ ∃ s ∈ spans, s.lower = .negInfinity ∧ s ≠ .all := by
  constructor
  · rintro ⟨hamb, hn⟩
    obtain ⟨s, hs, hall, hl, hx⟩ := exists_first hamb
    have hseam := seam_lower_of_ambiguous hamb hs hall hl hx
    refine ⟨s, hs, ?_, fun he => by simp [he, Span.isAll, Span.all] at hall⟩
    rcases eq_of_seam_aboveNull (h.bounds s hs).lower hseam with hinf | hnull
    · exact hinf
    · exact absurd ⟨s, hs, hnull, hx⟩ hn
  · rintro ⟨s, hs, hinf, hne⟩
    have hall : s.isAll = false := by
      by_contra hall
      exact hne (Span.isAll_iff.1 (by simpa using hall))
    have hl : σ.seam s.lower = .aboveNull := by rw [hinf, seam_negInfinity]
    have hstart : σ.start s = .aboveNull := (σ.start_of_not_isAll hall).trans hl
    obtain ⟨rest, rfl⟩ := List.head?_eq_some_iff.1 (h.head?_eq hs hl.le)
    have hproper := h.proper s List.mem_cons_self
    refine ⟨⟨fun hmem => ?_, ⟨s, List.mem_cons_self, hstart.le, hl ▸ hproper⟩,
      σ.seam s.upper, hl ▸ hproper.le, ?_, h.upper_notMem_extents List.mem_cons_self⟩, ?_⟩
    · have hle := start_le_of_mem_extents h.toAscending hmem
      rw [hstart] at hle
      exact absurd hle (not_le.2 Seam.belowNull_lt_aboveNull)
    · apply lt_of_le_of_ne (Seam.le_top _)
      intro htop
      have hu := eq_posInfinity_of_seam σ (h.bounds s List.mem_cons_self).upper htop
      simp [Span.isAll, hinf, hu] at hall
    · rintro ⟨t, ht, hnull, -⟩
      have htl : σ.seam t.lower = .aboveNull := by rw [hnull]; rfl
      rw [h.eq_of_lower_le ht hs htl.le hl.le, hinf] at hnull
      cases hnull

theorem Canonical.settled_iff {spans : List Span} (h : σ.Canonical spans) :
    Span.Settled spans ↔ ¬(σ.form spans).unsettled := by
  rw [h.unsettled_iff]
  push Not
  rfl

/-! ### Union -/

theorem compare_null_lt {a b : Cut} (ha : a.isNull) (hb : b.isNull = false) :
    a.compare d.compare b = .lt := by
  cases a <;> cases ha
  cases b <;> cases hb <;> rfl

theorem compare_null_gt {a b : Cut} (ha : a.isNull = false) (hb : b.isNull) :
    a.compare d.compare b = .gt := by
  cases b <;> cases hb
  cases a <;> cases ha <;> rfl

/-- Spans that begin at null come before all others. -/
theorem pairwise_isNull (spans : List Span) :
    (Span.sort d.compare spans).Pairwise fun s t => t.lower.isNull → s.lower.isNull := by
  apply pairwise_sort
  · intro a b c hab hbc hc
    exact hab (hbc hc)
  · intro s _ t _ hle ht
    by_contra hs
    have hgt := compare_null_gt (d := d) (by simpa using hs) ht
    simp [Span.compare, hgt] at hle
  · intro s _ t _ hle hs
    by_contra ht
    have hlt := compare_null_lt (d := d) hs (by simpa using ht)
    simp [Span.compare, hlt] at hle

/-- Where null is not among the points, the sweep begins at `> null` if any span does. -/
theorem NamesNull.gather {spans : List Span} (h : σ.NamesNull spans)
    (hb : ∀ s ∈ spans, d.Bounds s) (hp : ∀ s ∈ spans, σ.seam s.lower < σ.seam s.upper)
    (hmem : .belowNull ∉ σ.extents spans) : σ.NamesNull (Span.gather d.compare spans) := by
  obtain ⟨t, ht, hnull, -⟩ := h
  have hisNull : t.lower.isNull := by rw [hnull]; rfl
  have hperm := fun s => (sort_perm d.compare spans).mem_iff (a := s)
  have hfirst := pairwise_isNull (d := d) spans
  obtain ⟨hasc, -⟩ := gather_spec (σ := σ) spans hb hp
  rw [← hperm] at ht
  unfold Span.gather at hasc ⊢
  split
  next hnil => simp [hnil] at ht
  next s ts hsort =>
    rw [hsort] at ht hfirst
    simp only [hsort] at hasc
    have hs : s ∈ spans := (hperm s).1 (hsort ▸ List.mem_cons_self)
    have hsnull : s.lower.isNull := by
      rcases List.mem_cons.1 ht with rfl | ht
      · exact hisNull
      · exact (List.pairwise_cons.1 hfirst).1 t ht hisNull
    have hlower : s.lower = .null .lower .opened := by
      apply eq_null_of_isNull (σ := σ) (hb s hs).lower hsnull
      intro he
      exact hmem ⟨s, hs, he ▸ σ.start_le s, he ▸ hp s hs⟩
    obtain ⟨u, hu, he⟩ := Span.exists_lower_sweep d.compare s ts
    have hul : σ.seam u.lower = .aboveNull := by rw [he, hlower]; rfl
    exact ⟨u, hu, he.trans hlower, hul ▸ σ.start_le u, hul ▸ hasc.proper u hu⟩

theorem namesNull_gather {spans : List Span} (hb : ∀ s ∈ spans, d.Bounds s)
    (hp : ∀ s ∈ spans, σ.seam s.lower < σ.seam s.upper) (hmem : .belowNull ∉ σ.extents spans) :
    σ.NamesNull (Span.gather d.compare spans) ↔ σ.NamesNull spans := by
  constructor
  · rintro ⟨u, hu, hnull, -⟩
    obtain ⟨t, ht, he⟩ := Span.lower_of_mem_gather hu
    have htl : σ.seam t.lower = .aboveNull := by rw [← he, hnull]; rfl
    exact ⟨t, ht, he ▸ hnull, htl ▸ σ.start_le t, htl ▸ hp t ht⟩
  · intro h
    exact h.gather hb hp hmem

theorem namesNull_live {spans : List Span} (hb : ∀ s ∈ spans, d.Bounds s) :
    σ.NamesNull (spans.filter fun s => !s.isInverted d.compare) ↔ σ.NamesNull spans := by
  constructor
  · rintro ⟨s, hs, hnull⟩
    exact ⟨s, List.mem_of_mem_filter hs, hnull⟩
  · rintro ⟨s, hs, hnull, hx⟩
    refine ⟨s, List.mem_filter.2 ⟨hs, ?_⟩, hnull, hx⟩
    by_contra hinv
    rw [extent_of_isInverted (hb s hs) (by simpa using hinv)] at hx
    exact hx

/-- Where the seams leave a choice, no gathered span is spelled anew. -/
theorem close_gather {spans : List Span} (hb : ∀ s ∈ spans, d.Bounds s)
    (hp : ∀ s ∈ spans, σ.seam s.lower < σ.seam s.upper) (hall : ∀ s ∈ spans, s.isAll = false)
    (hamb : Seam.Ambiguous (σ.extents spans)) :
    Span.close (Span.gather d.compare spans) = Span.gather d.compare spans := by
  obtain ⟨hasc, hsame⟩ := gather_spec (σ := σ) spans hb hp
  have htaken : ∀ {u x}, u ∈ Span.gather d.compare spans → x ∈ σ.between u →
      x ∈ σ.extents spans := by
    intro u x hu hx
    obtain ⟨s, hs, hxs⟩ := (hsame x).1 ⟨u, hu, hx⟩
    exact ⟨s, hs, (extent_of_not_isAll σ (hall s hs)).symm ▸ hxs⟩
  apply Span.close_eq_self
  · intro u hu
    by_contra hn
    obtain rfl := Span.isAll_iff.1 (by simpa using hn)
    obtain ⟨x, hx, hxt, hxs⟩ := hamb.exists_gap
    exact hxs (htaken hu ⟨hx, hxt⟩)
  · intro u hu
    by_contra hn
    obtain rfl := (isFromNull_iff (hasc.bounds u hu)).1 (by simpa using hn)
    exact hamb.belowNull_notMem (htaken hu ⟨le_rfl, Seam.belowNull_lt_top⟩)

/-- A union has the form of its parts. -/
theorem form_union {spans : List Span} (hb : ∀ s ∈ spans, d.Bounds s) :
    σ.form (Span.union d.compare spans).value = σ.form spans := by
  apply form_eq (union_spec hb).2
  intro hamb
  have hlive := Set.ext (mem_extents_live (σ := σ) hb)
  have hnull := namesNull_live (σ := σ) hb
  have hmem : ∀ s ∈ spans.filter fun s => !s.isInverted d.compare,
      d.Bounds s ∧ σ.seam s.lower < σ.seam s.upper := by
    intro s hs
    obtain ⟨hs, hinv⟩ := List.mem_filter.1 hs
    exact ⟨hb s hs, (not_isInverted_iff (hb s hs)).1 (by simpa using hinv)⟩
  rw [form_unsettled, ← hnull, ← hlive, value_union]
  rw [form_seams, ← hlive] at hamb
  generalize (spans.filter fun s => !s.isInverted d.compare) = live at hamb hmem ⊢
  have hall : ∀ s ∈ live, s.isAll = false := by
    intro s hs
    by_contra hn
    obtain rfl := Span.isAll_iff.1 (by simpa using hn)
    exact hamb.belowNull_notMem ⟨_, hs, σ.mem_extent_all.2 Seam.belowNull_lt_top⟩
  have hany : ¬live.any Span.isAll := by simpa using hall
  dsimp only
  rw [if_neg hany, close_gather (fun s hs => (hmem s hs).1) (fun s hs => (hmem s hs).2) hall hamb,
    namesNull_gather (fun s hs => (hmem s hs).1) (fun s hs => (hmem s hs).2) hamb.belowNull_notMem]
  tauto

end Domain.Scale

end SearchArgument
