import Mathlib.Data.List.Forall2
import Mathlib.Data.List.Pairwise
import SearchArgument.Proofs.Span.Extent

/-! Canonical lists of spans: in ascending order, none of them empty, a gap between any two,
each in its settled spelling. The extents of a canonical list determine where its spans
begin and end, over every domain: a span begins on the least seam that is taken up and ends
on the next one that is not. -/

namespace SearchArgument

/-- Lists related element by element stay so under a relation that holds of their elements. -/
theorem forall₂_imp_of_mem {α β : Type} {R S : α → β → Prop} {xs : List α} {ys : List β}
    (h : List.Forall₂ R xs ys) (himp : ∀ {a b}, a ∈ xs → b ∈ ys → R a b → S a b) :
    List.Forall₂ S xs ys := by
  refine List.forall₂_iff_zip.2 ⟨h.length_eq, fun {a b} hab => ?_⟩
  obtain ⟨ha, hb⟩ := List.of_mem_zip hab
  exact himp ha hb (List.forall₂_zip h hab)

namespace Domain.Scale

variable {d : Domain} {K : Type} [LinearOrder K]

/-- Spans in ascending order, none of them empty, with a gap between any two. -/
structure Ascending (σ : d.Scale K) (spans : List Span) : Prop where
  bounds : ∀ s ∈ spans, d.Bounds s
  proper : ∀ s ∈ spans, σ.seam s.lower < σ.seam s.upper
  apart : spans.Pairwise fun s t => σ.seam s.upper < σ.seam t.lower

/-- Ascending spans in their settled spelling. -/
structure Canonical (σ : d.Scale K) (spans : List Span) : Prop extends σ.Ascending spans where
  not_fromNull : ∀ s ∈ spans, s.isFromNull = false

variable {σ : d.Scale K}

theorem bounds_all : d.Bounds .all := ⟨.negInfinity, .posInfinity⟩

theorem bounds_nonNull : d.Bounds .nonNull := ⟨.null _, .posInfinity⟩

theorem isFromNull_iff {s : Span} (hs : d.Bounds s) :
    s.isFromNull ↔ s = ⟨.null .lower .closed, .posInfinity⟩ := by
  obtain ⟨a, b⟩ := s
  have ha := hs.lower
  rcases ha with _ | (_ | _) | ⟨t, hv⟩ <;>
    simp [Span.isFromNull, Cut.isNull, Cut.isClosed, Cut.coordinate, Cut.strictness,
      Coordinate.isNull]

/-- Apart from a span from null on, only `all` takes up every seam. -/
theorem isAll_iff_of_not_isFromNull {s : Span} (hs : d.Bounds s) (hn : s.isFromNull = false) :
    s.isAll ↔ σ.start s = .belowNull ∧ σ.seam s.upper = .top := by
  constructor
  · intro hall
    rw [Span.isAll_iff.1 hall]
    exact ⟨rfl, rfl⟩
  · rintro ⟨hstart, hupper⟩
    by_contra hall
    rw [σ.start_of_not_isAll (by simpa using hall)] at hstart
    have hl := eq_null_of_seam σ hs.lower hstart
    have hu := eq_posInfinity_of_seam σ hs.upper hupper
    exact absurd ((isFromNull_iff hs).2 (by rw [← hl, ← hu])) (by simp [hn])

theorem seam_upper_ne_belowNull {s : Span} (h : σ.seam s.lower < σ.seam s.upper) :
    σ.seam s.upper ≠ .belowNull := by
  intro he
  rw [he] at h
  exact Seam.not_lt_belowNull _ h

theorem Ascending.nil : σ.Ascending [] := ⟨by simp, by simp, List.Pairwise.nil⟩

theorem Ascending.singleton {s : Span} (hs : d.Bounds s) (hp : σ.seam s.lower < σ.seam s.upper) :
    σ.Ascending [s] :=
  ⟨by simpa using hs, by simpa using hp, List.pairwise_singleton _ _⟩

theorem Ascending.cons {s : Span} {ss : List Span} (hs : d.Bounds s)
    (hp : σ.seam s.lower < σ.seam s.upper) (hbehind : ∀ t ∈ ss, σ.seam s.upper < σ.seam t.lower)
    (h : σ.Ascending ss) : σ.Ascending (s :: ss) :=
  ⟨List.forall_mem_cons.2 ⟨hs, h.bounds⟩, List.forall_mem_cons.2 ⟨hp, h.proper⟩,
    List.pairwise_cons.2 ⟨hbehind, h.apart⟩⟩

theorem Canonical.nil : σ.Canonical [] := ⟨.nil, by simp⟩

theorem Canonical.singleton {s : Span} (hs : d.Bounds s)
    (hp : σ.seam s.lower < σ.seam s.upper) (hnull : s.isFromNull = false) : σ.Canonical [s] :=
  ⟨.singleton hs hp, by simpa using hnull⟩

theorem canonical_all : σ.Canonical [.all] := .singleton bounds_all Seam.aboveNull_lt_top rfl

theorem canonical_nonNull : σ.Canonical [.nonNull] :=
  .singleton bounds_nonNull Seam.aboveNull_lt_top rfl

/-- A span with no seam to spare on either side stands alone. -/
theorem Ascending.eq_singleton {s : Span} {spans : List Span} (h : σ.Ascending spans)
    (hs : s ∈ spans) (hl : σ.seam s.lower ≤ .aboveNull) (hu : s.upper = .posInfinity) :
    spans = [s] := by
  obtain ⟨pre, post, rfl⟩ := List.append_of_mem hs
  obtain ⟨-, hpost, hpre⟩ := List.pairwise_append.1 h.apart
  have hpre : pre = [] := by
    refine List.eq_nil_iff_forall_not_mem.2 fun t ht => ?_
    have htp := seam_upper_ne_belowNull (h.proper t (List.mem_append_left _ ht))
    exact not_lt.2 (Seam.aboveNull_le_of_ne htp)
      ((hpre t ht s List.mem_cons_self).trans_le hl)
  have hpost : post = [] := by
    refine List.eq_nil_iff_forall_not_mem.2 fun t ht => ?_
    have hlt := (List.pairwise_cons.1 hpost).1 t ht
    rw [hu] at hlt
    exact not_lt.2 (Seam.le_top _) hlt
  rw [hpre, hpost, List.nil_append]

theorem Ascending.eq_all_of_mem {spans : List Span} (h : σ.Ascending spans)
    (hs : .all ∈ spans) : spans = [.all] :=
  h.eq_singleton hs le_rfl rfl

theorem Ascending.eq_singleton_of_isFromNull {s : Span} {spans : List Span}
    (h : σ.Ascending spans) (hs : s ∈ spans) (hnull : s.isFromNull) : spans = [s] := by
  obtain rfl := (isFromNull_iff (h.bounds s hs)).1 hnull
  exact h.eq_singleton hs (Seam.belowNull_le _) rfl

theorem start_lt {s : Span} (h : σ.seam s.lower < σ.seam s.upper) :
    σ.start s < σ.seam s.upper :=
  (σ.start_le s).trans_lt h

/-- What holds every point stands alone, so the gaps between spans reach to their starts. -/
theorem Ascending.apart_start {spans : List Span} (h : σ.Ascending spans) :
    spans.Pairwise fun s t => σ.seam s.upper < σ.start t := by
  refine h.apart.imp_of_mem fun {s t} hs ht hlt => ?_
  by_cases hall : t.isAll
  · obtain rfl := Span.isAll_iff.1 hall
    have hsp := seam_upper_ne_belowNull (h.proper s hs)
    exact absurd hlt (not_lt.2 (Seam.aboveNull_le_of_ne hsp))
  · rwa [σ.start_of_not_isAll (by simpa using hall)]

/-- One of two spans ends before the other starts. -/
def Apart (σ : d.Scale K) (s t : Span) : Prop :=
  σ.seam s.upper < σ.start t ∨ σ.seam t.upper < σ.start s

instance : Std.Symm σ.Apart := ⟨fun _ _ => Or.symm⟩

theorem Ascending.apart_of_ne {spans : List Span} (h : σ.Ascending spans) {s t : Span}
    (hs : s ∈ spans) (ht : t ∈ spans) (hne : s ≠ t) : σ.Apart s t :=
  List.Pairwise.forall (R := σ.Apart) (h.apart_start.imp Or.inl) hs ht hne

/-- A span ends on a seam that none of the spans takes up. -/
theorem Ascending.upper_notMem_extents {spans : List Span} (h : σ.Ascending spans) {s : Span}
    (hs : s ∈ spans) : σ.seam s.upper ∉ σ.extents spans := by
  rintro ⟨t, ht, hstart, hupper⟩
  have hne : s ≠ t := by
    rintro rfl
    exact lt_irrefl _ hupper
  rcases h.apart_of_ne hs ht hne with hlt | hlt
  · exact not_le.2 hlt hstart
  · exact lt_asymm (hlt.trans (start_lt (h.proper s hs))) hupper

/-! ### Uniqueness -/

/-- Spans that take up the same seams. -/
def Alike (σ : d.Scale K) (s t : Span) : Prop :=
  σ.start s = σ.start t ∧ σ.seam s.upper = σ.seam t.upper

theorem Alike.isAll_eq {s t : Span} (hs : d.Bounds s) (ht : d.Bounds t)
    (hsn : s.isFromNull = false) (htn : t.isFromNull = false) (h : σ.Alike s t) :
    s.isAll = t.isAll := by
  rw [Bool.eq_iff_iff, isAll_iff_of_not_isFromNull (σ := σ) hs hsn,
    isAll_iff_of_not_isFromNull (σ := σ) ht htn, h.1, h.2]

theorem Alike.seam_lower {s t : Span} (hall : s.isAll = t.isAll) (h : σ.Alike s t) :
    σ.seam s.lower = σ.seam t.lower := by
  cases hs : s.isAll with
  | true =>
    have ht : t.isAll := hall ▸ hs
    rw [Span.isAll_iff.1 hs, Span.isAll_iff.1 ht]
  | false =>
    rw [← σ.start_of_not_isAll hs, ← σ.start_of_not_isAll (hall ▸ hs), h.1]

theorem start_le_of_mem_extents {s : Span} {ss : List Span} (h : σ.Ascending (s :: ss))
    {x : Seam K} (hx : x ∈ σ.extents (s :: ss)) : σ.start s ≤ x := by
  obtain ⟨u, hu, hux⟩ := hx
  rcases List.mem_cons.1 hu with rfl | hu
  · exact hux.1
  · have hlt := (List.pairwise_cons.1 h.apart_start).1 u hu
    exact ((start_lt (h.proper s List.mem_cons_self)).trans hlt).le.trans hux.1

theorem start_mem_extents {s : Span} {ss : List Span} (h : σ.Ascending (s :: ss)) :
    σ.start s ∈ σ.extents (s :: ss) :=
  ⟨s, List.mem_cons_self, le_rfl, start_lt (h.proper s List.mem_cons_self)⟩

theorem upper_le_of_extents_eq {s t : Span} {ss ts : List Span} (ht : σ.Ascending (t :: ts))
    (he : σ.extents (s :: ss) = σ.extents (t :: ts))
    (hstart : σ.start s = σ.start t) : σ.seam s.upper ≤ σ.seam t.upper := by
  by_contra hlt
  refine ht.upper_notMem_extents List.mem_cons_self (he ▸ ⟨s, List.mem_cons_self, ?_, not_le.1 hlt⟩)
  rw [hstart]
  exact (start_lt (ht.proper t List.mem_cons_self)).le

theorem Ascending.tail {s : Span} {ss : List Span} (h : σ.Ascending (s :: ss)) :
    σ.Ascending ss :=
  ⟨fun t ht => h.bounds t (List.mem_cons_of_mem _ ht),
    fun t ht => h.proper t (List.mem_cons_of_mem _ ht), (List.pairwise_cons.1 h.apart).2⟩

theorem mem_extents_tail {s : Span} {ss : List Span} (h : σ.Ascending (s :: ss)) (x : Seam K) :
    x ∈ σ.extents ss ↔ x ∈ σ.extents (s :: ss) ∧ σ.seam s.upper ≤ x := by
  constructor
  · rintro ⟨u, hu, hux⟩
    exact ⟨⟨u, List.mem_cons_of_mem _ hu, hux⟩,
      ((List.pairwise_cons.1 h.apart_start).1 u hu).le.trans hux.1⟩
  · rintro ⟨⟨u, hu, hux⟩, hx⟩
    rcases List.mem_cons.1 hu with rfl | hu
    · exact absurd hux.2 (not_lt.2 hx)
    · exact ⟨u, hu, hux⟩

/-- Ascending lists that take up the same seams have alike spans, one by one. -/
theorem forall₂_alike {xs ys : List Span} (hx : σ.Ascending xs) (hy : σ.Ascending ys)
    (he : σ.extents xs = σ.extents ys) : List.Forall₂ σ.Alike xs ys := by
  induction xs generalizing ys with
  | nil =>
    cases ys with
    | nil => exact .nil
    | cons t ts =>
      have hmem := start_mem_extents hy
      rw [← he, extents_nil] at hmem
      exact hmem.elim
  | cons s ss ih =>
    cases ys with
    | nil =>
      have hmem := start_mem_extents hx
      rw [he, extents_nil] at hmem
      exact hmem.elim
    | cons t ts =>
      have hstart : σ.start s = σ.start t := le_antisymm
        (start_le_of_mem_extents hx (he ▸ start_mem_extents hy))
        (start_le_of_mem_extents hy (he ▸ start_mem_extents hx))
      have hupper : σ.seam s.upper = σ.seam t.upper := le_antisymm
        (upper_le_of_extents_eq hy he hstart)
        (upper_le_of_extents_eq hx he.symm hstart.symm)
      refine .cons ⟨hstart, hupper⟩ (ih hx.tail hy.tail (Set.ext fun x => ?_))
      rw [mem_extents_tail hx, mem_extents_tail hy, he, hupper]

/-- Canonical lists that take up the same seams have their cuts on the same seams, one by one. -/
theorem Canonical.forall₂_seams {xs ys : List Span} (hx : σ.Canonical xs) (hy : σ.Canonical ys)
    (he : σ.extents xs = σ.extents ys) :
    List.Forall₂ (fun a b => a.isAll = b.isAll ∧ σ.seam a.lower = σ.seam b.lower ∧
      σ.seam a.upper = σ.seam b.upper) xs ys := by
  apply forall₂_imp_of_mem (forall₂_alike hx.toAscending hy.toAscending he)
  intro a b ha hb hab
  have hall := hab.isAll_eq (hx.bounds a ha) (hy.bounds b hb) (hx.not_fromNull a ha)
    (hy.not_fromNull b hb)
  exact ⟨hall, hab.seam_lower hall, hab.2⟩

/-- Only the span of every point takes up all seams. -/
theorem Canonical.eq_all_of_extents {spans : List Span} (h : σ.Canonical spans)
    (he : σ.extents spans = σ.extents [.all]) : spans = [.all] := by
  cases forall₂_alike h.toAscending canonical_all.toAscending he with
  | @cons s _ _ _ halike hnil =>
    cases hnil
    have hs := List.mem_singleton_self s
    have hiff := isAll_iff_of_not_isFromNull (σ := σ) (h.bounds s hs) (h.not_fromNull s hs)
    rw [Span.isAll_iff.1 (hiff.2 halike)]

end Domain.Scale

end SearchArgument
