import Mathlib.Data.List.Nodup
import SearchArgument.Proofs.Span.Complement
import SearchArgument.Proofs.Span.Intersection

/-! Where the cuts of a result come from, and how many spans they make room for. No operator makes
up a value: every finite cut of a union or an intersection is a cut of an operand, and in a
complement it is the opposite of one. The cuts of canonical spans lie on seams in strictly
ascending order, so a list is no longer than the seams at its disposal allow. -/

namespace SearchArgument

namespace Cut

@[simp] theorem coordinate_opposite (c : Cut) : c.opposite.coordinate = c.coordinate := by
  cases c <;> rfl

@[simp] theorem opposite_opposite (c : Cut) : c.opposite.opposite = c := by
  rcases c with _ | _ | ⟨_ | _, _ | _⟩ | ⟨_, _ | _, _ | _⟩ <;> rfl

end Cut

namespace Span

/-! ### Cuts -/

/-- The cuts of spans, from left to right. -/
def cuts (spans : List Span) : List Cut := spans.flatMap fun s => [s.lower, s.upper]

@[simp] theorem mem_cuts {spans : List Span} {c : Cut} :
    c ∈ cuts spans ↔ ∃ s ∈ spans, c = s.lower ∨ c = s.upper := by
  simp [cuts]

@[simp] theorem length_cuts (spans : List Span) : (cuts spans).length = 2 * spans.length := by
  induction spans with
  | nil => rfl
  | cons s ts ih =>
    have hsplit : cuts (s :: ts) = s.lower :: s.upper :: cuts ts := rfl
    rw [hsplit, List.length_cons, List.length_cons, ih, List.length_cons]
    omega

/-- The cut is not finite, or one of the given cuts, or opposite to one. -/
def Drawn (given : List Cut) (c : Cut) : Prop :=
  c.coordinate.isFinite → c ∈ given ∨ c.opposite ∈ given

/-- Both cuts of every span are drawn from the given ones. -/
def AllDrawn (given : List Cut) (spans : List Span) : Prop :=
  ∀ s ∈ spans, Drawn given s.lower ∧ Drawn given s.upper

variable {given : List Cut} {cmp : Value → Value → Ordering}

theorem drawn_of_not_isFinite {c : Cut} (h : c.coordinate.isFinite = false) : Drawn given c := by
  intro hfin
  rw [h] at hfin
  cases hfin

theorem Drawn.opposite {c : Cut} (h : Drawn given c) : Drawn given c.opposite := by
  intro hfin
  rw [Cut.coordinate_opposite] at hfin
  rw [Cut.opposite_opposite]
  exact (h hfin).symm

theorem AllDrawn.nil : AllDrawn given [] := List.forall_mem_nil _

theorem allDrawn_all : AllDrawn given [all] :=
  List.forall_mem_singleton.2 ⟨drawn_of_not_isFinite rfl, drawn_of_not_isFinite rfl⟩

theorem AllDrawn.of_subset {xs ys : List Span} (h : AllDrawn given ys) (hsub : xs ⊆ ys) :
    AllDrawn given xs := fun s hs => h s (hsub hs)

theorem AllDrawn.of_mem_cuts {spans : List Span} (h : AllDrawn given spans) {c : Cut}
    (hc : c ∈ cuts spans) : Drawn given c := by
  obtain ⟨s, hs, rfl | rfl⟩ := mem_cuts.1 hc
  · exact (h s hs).1
  · exact (h s hs).2

/-! ### Union -/

theorem AllDrawn.close {spans : List Span} (h : AllDrawn given spans) :
    AllDrawn given (close spans) := by
  have hrespelled : AllDrawn given (spans.map fun s => if s.isAll then nonNull else s) := by
    refine List.forall_mem_map.2 fun s hs => ?_
    split
    · exact ⟨drawn_of_not_isFinite rfl, drawn_of_not_isFinite rfl⟩
    · exact h s hs
  unfold Span.close
  split
  next s heq =>
    split
    · exact allDrawn_all
    · exact heq ▸ hrespelled
  next => exact hrespelled

/-- A union draws its cuts from its operands. -/
theorem AllDrawn.union {spans : List Span} (h : AllDrawn given spans) :
    AllDrawn given (union cmp spans).value := by
  rw [Domain.Scale.value_union]
  dsimp only
  split
  · exact allDrawn_all
  · exact AllDrawn.close (forall_gather (h.of_subset List.filter_sublist.subset))

/-! ### Intersection -/

theorem AllDrawn.meets {xs ys : List Span} (hx : AllDrawn given xs) (hy : AllDrawn given ys) :
    AllDrawn given (meets cmp xs ys) := by
  intro u hu
  obtain ⟨s, hs, t, ht, rfl, -⟩ := Domain.Scale.mem_meets.1 hu
  unfold meet
  constructor
  · dsimp only
    split
    · exact (hy t ht).1
    · exact (hx s hs).1
  · dsimp only
    split
    · exact (hy t ht).2
    · exact (hx s hs).2

theorem AllDrawn.narrow {left : Option (List Span)} {operand : List Span}
    (hl : AllDrawn given (left.getD [all])) (ho : AllDrawn given operand) :
    AllDrawn given ((narrow cmp left operand).value.getD [all]) := by
  rw [Domain.Scale.value_narrow]
  split
  · exact hl
  · cases left with
    | none => exact ho.union
    | some xs => exact (hl.meets ho).union

/-- An intersection draws its cuts from its operands. -/
theorem AllDrawn.intersection {operands : List (List Span)}
    (h : ∀ o ∈ operands, AllDrawn given o) :
    AllDrawn given (intersection cmp operands).value := by
  simp only [Span.intersection, Recorded.value_bind, Recorded.value_foldlM, Recorded.value_pure]
  have hleft : AllDrawn given ((none : Option (List Span)).getD [all]) := allDrawn_all
  generalize (none : Option (List Span)) = left at hleft
  induction operands generalizing left with
  | nil => exact hleft
  | cons o os ih =>
    obtain ⟨ho, hos⟩ := List.forall_mem_cons.1 h
    exact ih hos _ (hleft.narrow ho)

/-! ### Complement -/

theorem AllDrawn.gapsAfter {upper : Cut} {spans : List Span} (hu : Drawn given upper)
    (h : AllDrawn given spans) : AllDrawn given (gapsAfter upper spans) := by
  induction spans generalizing upper with
  | nil =>
    unfold Span.gapsAfter
    split
    · exact .nil
    · exact List.forall_mem_singleton.2 ⟨hu.opposite, drawn_of_not_isFinite rfl⟩
  | cons s ts ih =>
    obtain ⟨hs, hts⟩ := List.forall_mem_cons.1 h
    exact List.forall_mem_cons.2 ⟨⟨hu.opposite, hs.1.opposite⟩, ih hs.2 hts⟩

theorem AllDrawn.gaps {spans : List Span} (h : AllDrawn given spans) :
    AllDrawn given (gaps spans) := by
  cases spans with
  | nil =>
    exact List.forall_mem_singleton.2 ⟨drawn_of_not_isFinite rfl, drawn_of_not_isFinite rfl⟩
  | cons s ts =>
    obtain ⟨hs, hts⟩ := List.forall_mem_cons.1 h
    refine List.forall_mem_append.2 ⟨?_, AllDrawn.gapsAfter hs.2 hts⟩
    split
    · exact List.forall_mem_singleton.2 ⟨drawn_of_not_isFinite rfl, hs.1.opposite⟩
    · exact AllDrawn.nil

/-- A complement draws its cuts from its operand, from the other side. -/
theorem AllDrawn.complement {spans : List Span} (h : AllDrawn given spans) :
    AllDrawn given (complement cmp spans).value := by
  unfold Span.complement
  split
  · exact .nil
  · exact h.gaps.union

end Span

/-! ### Counting -/

namespace Domain.Scale

variable {d : Domain} {K : Type} [LinearOrder K] {σ : d.Scale K}

/-- Along ascending spans the seams of all cuts ascend. -/
theorem Ascending.pairwise_seams {spans : List Span} (h : σ.Ascending spans) :
    ((Span.cuts spans).map σ.seam).Pairwise (· < ·) := by
  induction spans with
  | nil => exact List.Pairwise.nil
  | cons s ts ih =>
    have hproper := h.proper s List.mem_cons_self
    have hbehind : ∀ x ∈ (Span.cuts ts).map σ.seam, σ.seam s.upper < x := by
      refine List.forall_mem_map.2 fun c hc => ?_
      obtain ⟨t, ht, hct⟩ := Span.mem_cuts.1 hc
      have hgap := (List.pairwise_cons.1 h.apart).1 t ht
      rcases hct with rfl | rfl
      · exact hgap
      · exact hgap.trans (h.proper t (List.mem_cons_of_mem _ ht))
    refine List.pairwise_cons.2 ⟨?_, List.pairwise_cons.2 ⟨hbehind, ih h.tail⟩⟩
    exact List.forall_mem_cons.2 ⟨hproper, fun x hx => hproper.trans (hbehind x hx)⟩

theorem seam_of_not_isFinite {c : Cut} (h : c.coordinate.isFinite = false) :
    σ.seam c ∈ [Seam.belowNull, .aboveNull, .top] := by
  rcases c with _ | _ | ⟨_ | _, _ | _⟩ | _ <;> simp_all [seam, Cut.coordinate, Coordinate.isFinite]

theorem seam_opposite_of_isFinite {c : Cut} (h : c.coordinate.isFinite) :
    σ.seam c.opposite = σ.seam c := by
  cases c with
  | finite v s t => exact seam_opposite σ rfl
  | negInfinity | posInfinity | null => cases h

/-- Ascending spans take a given cut for each of theirs but three. -/
theorem Ascending.length_le {spans : List Span} {given : List Cut} (h : σ.Ascending spans)
    (hdrawn : Span.AllDrawn given spans) : 2 * spans.length ≤ given.length + 3 := by
  have hsub : (Span.cuts spans).map σ.seam ⊆
      [Seam.belowNull, .aboveNull, .top] ++ given.map σ.seam := by
    refine List.forall_mem_map.2 fun c hc => ?_
    cases hfin : c.coordinate.isFinite with
    | false => exact List.mem_append_left _ (seam_of_not_isFinite hfin)
    | true =>
      apply List.mem_append_right
      rcases hdrawn.of_mem_cuts hc hfin with hmem | hmem
      · exact List.mem_map_of_mem hmem
      · rw [← seam_opposite_of_isFinite hfin]
        exact List.mem_map_of_mem hmem
  have hlength := List.Nodup.length_le_of_subset (h.pairwise_seams.imp ne_of_lt) hsub
  simp only [List.length_map, Span.length_cuts, List.length_append, List.length_cons,
    List.length_nil] at hlength
  omega

/-! ### Intersections

The starts of an intersection are among those of its two operands, and none comes before the
first of either. -/

theorem Ascending.nodup_start {spans : List Span} (h : σ.Ascending spans) :
    (spans.map σ.start).Nodup := by
  refine (List.pairwise_map.2 (h.apart_start.imp_of_mem fun {s _} hs _ hlt => ?_)).imp ne_of_lt
  exact (start_lt (h.proper s hs)).trans hlt

/-- No span starts in the middle of seams that are all taken up. -/
theorem Ascending.start_le_of_forall_mem {spans : List Span} (h : σ.Ascending spans) {u : Span}
    (hu : u ∈ spans) {x : Seam K} (hxu : x ≤ σ.start u)
    (hall : ∀ y, x ≤ y → y ≤ σ.start u → y ∈ σ.extents spans) : σ.start u ≤ x := by
  obtain ⟨t, ht, hstart, hupper⟩ := hall x le_rfl hxu
  by_cases hne : t = u
  · exact hne ▸ hstart
  rcases h.apart_of_ne ht hu hne with hlt | hlt
  · exact absurd (hall _ hupper.le hlt.le) (h.upper_notMem_extents ht)
  · exact ((start_lt (h.proper u hu)).trans hlt).le.trans hstart

variable {ws xs ys : List Span}

theorem start_mem_of_inter (hw : σ.Ascending ws)
    (hinter : σ.extents ws = σ.extents xs ∩ σ.extents ys)
    {u : Span} (hu : u ∈ ws) : σ.start u ∈ xs.map σ.start ∨ σ.start u ∈ ys.map σ.start := by
  have hmem : σ.start u ∈ σ.extents ws := ⟨u, hu, le_rfl, start_lt (hw.proper u hu)⟩
  rw [hinter] at hmem
  obtain ⟨⟨s, hs, hsu, hus⟩, t, ht, htu, hut⟩ := hmem
  have hle : σ.start u ≤ max (σ.start s) (σ.start t) := by
    apply hw.start_le_of_forall_mem hu (max_le hsu htu)
    intro y hy hyu
    rw [hinter]
    obtain ⟨hys, hyt⟩ := max_le_iff.1 hy
    exact ⟨⟨s, hs, hys, hyu.trans_lt hus⟩, t, ht, hyt, hyu.trans_lt hut⟩
  rcases le_max_iff.1 hle with h | h
  · exact .inl (List.mem_map.2 ⟨s, hs, hsu.antisymm h⟩)
  · exact .inr (List.mem_map.2 ⟨t, ht, htu.antisymm h⟩)

theorem length_lt_of_inter_of_le {x y : Span} (hw : σ.Ascending ws) (hy : σ.Ascending (y :: ys))
    (hinter : σ.extents ws = σ.extents (x :: xs) ∩ σ.extents (y :: ys))
    (hxy : σ.start x ≤ σ.start y) : ws.length < (x :: xs).length + (y :: ys).length := by
  -- where `x` starts no span of the intersection does, unless `y` starts there as well
  have hsub : ws.map σ.start ⊆ xs.map σ.start ++ (y :: ys).map σ.start := by
    refine List.forall_mem_map.2 fun u hu => List.mem_append.2 ?_
    have hmem : σ.start u ∈ σ.extents ws := ⟨u, hu, le_rfl, start_lt (hw.proper u hu)⟩
    rw [hinter] at hmem
    have hyu : σ.start y ≤ σ.start u := start_le_of_mem_extents hy hmem.2
    rcases start_mem_of_inter hw hinter hu with h | h
    · rcases List.mem_cons.1 h with he | h
      · exact .inr (List.mem_cons.2 (.inl ((he.trans_le hxy).antisymm hyu)))
      · exact .inl h
    · exact .inr h
  have hlength := List.Nodup.length_le_of_subset hw.nodup_start hsub
  simp only [List.length_append, List.length_map, List.length_cons] at hlength ⊢
  omega

/-- An intersection has fewer spans than its two operands together. -/
theorem length_lt_of_inter (hw : σ.Ascending ws) (hx : σ.Ascending xs) (hy : σ.Ascending ys)
    (hinter : σ.extents ws = σ.extents xs ∩ σ.extents ys) (hxs : xs ≠ []) (hys : ys ≠ []) :
    ws.length < xs.length + ys.length := by
  obtain ⟨x, xs, rfl⟩ := List.exists_cons_of_ne_nil hxs
  obtain ⟨y, ys, rfl⟩ := List.exists_cons_of_ne_nil hys
  rcases le_total (σ.start x) (σ.start y) with hle | hle
  · exact length_lt_of_inter_of_le hw hy hinter hle
  · rw [Nat.add_comm]
    exact length_lt_of_inter_of_le hw hx (hinter.trans (Set.inter_comm _ _)) hle

end Domain.Scale

end SearchArgument
