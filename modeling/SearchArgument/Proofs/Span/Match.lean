import Mathlib.Data.List.Forall2
import SearchArgument.Proofs.Span.Form

/-! Matching spans. Cuts match if they differ at most in the values that they name, and these
have one mark. Canonical lists of one form match span by span, over every domain. Where marks
tell values apart, canonical lists are therefore equal exactly if their forms are. -/

namespace SearchArgument

variable {d : Domain} {K : Type} [LinearOrder K] {σ : d.Scale K}

/-! ### Cuts -/

inductive Cut.Matches (σ : d.Scale K) : Cut → Cut → Prop
  | negInfinity : Matches σ .negInfinity .negInfinity
  | posInfinity : Matches σ .posInfinity .posInfinity
  | null (side : Side) (t : Strictness) : Matches σ (.null side t) (.null side t)
  | finite {v w : Value} (side : Side) (t : Strictness) : d.Holds v → d.Holds w →
    σ.mark v = σ.mark w → Matches σ (.finite v side t) (.finite w side t)

namespace Cut.Matches

variable {a b : Cut}

theorem seam_eq (h : a.Matches σ b) : σ.seam a = σ.seam b := by
  cases h with
  | negInfinity => rfl
  | posInfinity => rfl
  | null side t => rfl
  | finite side t _ _ hmark => cases side <;> cases t <;> simp [Domain.Scale.seam, hmark]

theorem eq_null_iff {side : Side} {t : Strictness} (h : a.Matches σ b) :
    a = .null side t ↔ b = .null side t := by
  cases h <;> simp

/-- Cuts that name no value are told apart exactly. -/
theorem eq_of_not_isFinite (h : a.Matches σ b) (hb : b.coordinate.isFinite = false) : a = b := by
  cases h with
  | negInfinity => rfl
  | posInfinity => rfl
  | null side t => rfl
  | finite side t _ _ _ => cases hb

/-- Lower cuts of one seam match, if both or neither lie at negative infinity. -/
theorem of_lower (ha : d.Lower a) (hb : d.Lower b) (hinf : a = .negInfinity ↔ b = .negInfinity)
    (h : σ.seam a = σ.seam b) : a.Matches σ b := by
  rcases ha with _ | (_ | _) | ⟨_ | _, hv⟩ <;> rcases hb with _ | (_ | _) | ⟨_ | _, hw⟩ <;>
    simp [Domain.Scale.seam] at h hinf
  case negInfinity.negInfinity => exact .negInfinity
  case null.opened.null.opened => exact .null _ _
  case null.closed.null.closed => exact .null _ _
  case finite.opened.finite.opened => exact .finite _ _ hv hw h
  case finite.closed.finite.closed => exact .finite _ _ hv hw h

theorem of_upper (ha : d.Upper a) (hb : d.Upper b) (h : σ.seam a = σ.seam b) :
    a.Matches σ b := by
  rcases ha with _ | (_ | _) | ⟨_ | _, hv⟩ <;> rcases hb with _ | (_ | _) | ⟨_ | _, hw⟩ <;>
    simp [Domain.Scale.seam] at h
  case posInfinity.posInfinity => exact .posInfinity
  case null.opened.null.opened => exact .null _ _
  case null.closed.null.closed => exact .null _ _
  case finite.opened.finite.opened => exact .finite _ _ hv hw h
  case finite.closed.finite.closed => exact .finite _ _ hv hw h

theorem beq (hσ : σ.Exact) (h : a.Matches σ b) : a == b := by
  cases h with
  | negInfinity => rfl
  | posInfinity => rfl
  | null side t => cases side <;> cases t <;> rfl
  | @finite v w side t hv hw hmark =>
    show (v == w && decide (side = side) && decide (t = t)) = true
    simp [(hσ v w hv hw).1 hmark]

/-- Equal cuts of a domain match. -/
theorem of_beq (hσ : σ.Exact) (ha : d.Lower a ∨ d.Upper a) (hb : d.Lower b ∨ d.Upper b)
    (h : a == b) : a.Matches σ b := by
  have hholds : ∀ {v s t}, d.Lower (.finite v s t) ∨ d.Upper (.finite v s t) → d.Holds v := by
    rintro v s t (⟨_, hv⟩ | ⟨_, hv⟩) <;> assumption
  have hparts : (a.coordinate == b.coordinate && decide (a.side = b.side) &&
      decide (a.strictness = b.strictness)) = true := h
  simp only [Bool.and_eq_true, decide_eq_true_eq] at hparts
  obtain ⟨⟨hcoordinate, hside⟩, hstrict⟩ := hparts
  cases a <;> cases b <;> try cases hcoordinate
  case negInfinity.negInfinity.refl => exact .negInfinity
  case posInfinity.posInfinity.refl => exact .posInfinity
  case null.null.refl =>
    cases hside
    cases hstrict
    exact .null _ _
  case finite.finite v s t w s' t' =>
    obtain rfl : s = s' := hside
    obtain rfl : t = t' := hstrict
    exact .finite _ _ (hholds ha) (hholds hb) ((hσ v w (hholds ha) (hholds hb)).2 hcoordinate)

end Cut.Matches

/-! ### Spans -/

structure Span.Matches (σ : d.Scale K) (a b : Span) : Prop where
  lower : a.lower.Matches σ b.lower
  upper : a.upper.Matches σ b.upper

namespace Span.Matches

variable {a b : Span}

theorem isAll_eq (h : a.Matches σ b) : a.isAll = b.isAll := by
  have hl := h.lower
  have hu := h.upper
  unfold isAll
  generalize a.lower = al, b.lower = bl, a.upper = au, b.upper = bu at hl hu
  cases hl <;> cases hu <;> rfl

theorem extent_eq (h : a.Matches σ b) : σ.extent a = σ.extent b := by
  unfold Domain.Scale.extent Domain.Scale.start
  rw [h.isAll_eq, h.lower.seam_eq, h.upper.seam_eq]

theorem form_eq (h : a.Matches σ b) : σ.form [a] = σ.form [b] := by
  apply Form.ext
  · rw [Domain.Scale.form_seams, Domain.Scale.form_seams, σ.extents_singleton,
      σ.extents_singleton, h.extent_eq]
  · simp only [Domain.Scale.form, Domain.Scale.NamesNull, σ.extents_singleton,
      List.mem_singleton, exists_eq_left, h.extent_eq, h.lower.eq_null_iff]

theorem beq (hσ : σ.Exact) (h : a.Matches σ b) : a == b :=
  Bool.and_eq_true_iff.2 ⟨h.lower.beq hσ, h.upper.beq hσ⟩

theorem of_beq (hσ : σ.Exact) (ha : d.Bounds a) (hb : d.Bounds b) (h : a == b) :
    a.Matches σ b := by
  obtain ⟨hl, hu⟩ := Bool.and_eq_true_iff.1 h
  exact ⟨.of_beq hσ (.inl ha.lower) (.inl hb.lower) hl,
    .of_beq hσ (.inr ha.upper) (.inr hb.upper) hu⟩

theorem eq_of_not_isFinite (h : a.Matches σ b) (hl : b.lower.coordinate.isFinite = false)
    (hu : b.upper.coordinate.isFinite = false) : a = b := by
  obtain ⟨_, _⟩ := a
  obtain ⟨_, _⟩ := b
  rw [Span.mk.injEq]
  exact ⟨h.lower.eq_of_not_isFinite hl, h.upper.eq_of_not_isFinite hu⟩

end Span.Matches

/-! ### Canonical lists -/

namespace Domain.Scale

variable {xs ys : List Span}

/-- Lists that match span by span have one form. -/
theorem form_eq_of_matches (h : List.Forall₂ (Span.Matches σ) xs ys) :
    σ.form xs = σ.form ys := by
  induction h with
  | nil => rfl
  | @cons a b as bs hab _ ih =>
    rw [← List.singleton_append, form_append, ih, ← List.singleton_append (l := bs), form_append,
      hab.form_eq]

/-- Where one of two lists of the same form begins at negative infinity, so does the other. -/
theorem Canonical.lower_eq_negInfinity (hx : σ.Canonical xs) (hy : σ.Canonical ys)
    (h : σ.form xs = σ.form ys) {a b : Span} (ha : a ∈ xs) (hb : b ∈ ys)
    (hall : a.isAll = b.isAll) (hseam : σ.seam a.lower = σ.seam b.lower)
    (hinf : a.lower = .negInfinity) : b.lower = .negInfinity := by
  by_cases hb_all : b.isAll
  · rw [Span.isAll_iff.1 hb_all]
    rfl
  · have hne : a ≠ .all := by
      rintro rfl
      exact hb_all (hall ▸ rfl)
    have hunsettled := hx.unsettled_iff.2 ⟨a, ha, hinf, hne⟩
    rw [h] at hunsettled
    obtain ⟨t, ht, htinf, -⟩ := hy.unsettled_iff.1 hunsettled
    have hbt : b = t := by
      apply hy.eq_of_lower_le hb ht
      · rw [← hseam, hinf, seam_negInfinity]
      · rw [htinf, seam_negInfinity]
    rw [hbt, htinf]

/-- Canonical lists of one form match span by span. -/
theorem Canonical.forall₂_matches (hx : σ.Canonical xs) (hy : σ.Canonical ys)
    (h : σ.form xs = σ.form ys) : List.Forall₂ (Span.Matches σ) xs ys := by
  apply forall₂_imp_of_mem (hx.forall₂_seams hy (congrArg Form.seams h))
  rintro a b ha hb ⟨hall, hlower, hupper⟩
  have hinf : a.lower = .negInfinity ↔ b.lower = .negInfinity :=
    ⟨hx.lower_eq_negInfinity hy h ha hb hall hlower,
      hy.lower_eq_negInfinity hx h.symm hb ha hall.symm hlower.symm⟩
  exact ⟨.of_lower (hx.bounds a ha).lower (hy.bounds b hb).lower hinf hlower,
    .of_upper (hx.bounds a ha).upper (hy.bounds b hb).upper hupper⟩

/-- A single span that names no value is told by its form. -/
theorem Canonical.eq_singleton_of_form (hx : σ.Canonical xs) {b : Span} (hb : σ.Canonical [b])
    (hl : b.lower.coordinate.isFinite = false) (hu : b.upper.coordinate.isFinite = false)
    (h : σ.form xs = σ.form [b]) : xs = [b] := by
  cases hx.forall₂_matches hb h with
  | cons hab hnil =>
    cases hnil
    rw [hab.eq_of_not_isFinite hl hu]

theorem forall₂_matches_iff_beq (hσ : σ.Exact) (hx : ∀ a ∈ xs, d.Bounds a)
    (hy : ∀ b ∈ ys, d.Bounds b) : List.Forall₂ (Span.Matches σ) xs ys ↔ xs == ys := by
  induction xs generalizing ys with
  | nil => cases ys <;> simp
  | cons a as ih =>
    cases ys with
    | nil => simp
    | cons b bs =>
      obtain ⟨ha, has⟩ := List.forall_mem_cons.1 hx
      obtain ⟨hb, hbs⟩ := List.forall_mem_cons.1 hy
      rw [List.forall₂_cons, ih has hbs, List.cons_beq_cons, Bool.and_eq_true]
      exact and_congr_left fun _ => ⟨Span.Matches.beq hσ, Span.Matches.of_beq hσ ha hb⟩

/-- Canonical lists are equal exactly if their forms are. -/
theorem Canonical.beq_iff (hσ : σ.Exact) (hx : σ.Canonical xs) (hy : σ.Canonical ys) :
    xs == ys ↔ σ.form xs = σ.form ys := by
  rw [← forall₂_matches_iff_beq hσ hx.bounds hy.bounds]
  exact ⟨form_eq_of_matches, hx.forall₂_matches hy⟩

end Domain.Scale

end SearchArgument
