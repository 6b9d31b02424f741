import Mathlib.Data.List.Forall2
import Mathlib.Data.Set.Lattice
import Mathlib.Order.CompletePartialOrder
import SearchArgument.Proofs.Tree.Lattice

/-! Opposed forms, and trees of them. Opposed forms have no seam in common, and together they may
leave out nothing above null. The trees then meet in nothing, and their union evaluates to one term,
which holds null exactly if one of them selects it. A tree and its complement are such trees, over
every ordered domain: the gaps fit between the terms whatever the values, whether or not any member
of the domain lies in them. -/

namespace SearchArgument

/-! ### Opposed forms

A form is opposed to its complement, and forms opposed one by one have their meet opposed to the
join of the others, so a conjunction is opposed to the disjunction of the negations. -/

namespace Form

variable {K : Type} [LinearOrder K] {f g f' g' : Form K}

/-- Nothing above null is left out. -/
def Covers (f : Form K) : Prop := Set.Ico .aboveNull .top ⊆ f.seams

theorem covers_top : (⊤ : Form K).Covers := fun _ hx => hx.2

theorem Covers.not_unsettled (h : f.Covers) : ¬f.unsettled := by
  intro hu
  obtain ⟨x, hx, hxt, hn⟩ := (f.ambiguous hu).exists_gap
  exact hn (h ⟨hx, hxt⟩)

theorem Covers.eq_top (h : f.Covers) (hnull : .belowNull ∈ f.seams) : f = ⊤ := by
  apply Form.ext
  · refine Set.Subset.antisymm (fun x hx => f.lt_top hx) fun x hx => ?_
    by_cases hne : x = .belowNull
    · exact hne ▸ hnull
    · exact h ⟨Seam.aboveNull_le_of_ne hne, hx⟩
  · exact eq_false h.not_unsettled

theorem Covers.eq_complement_bot (h : f.Covers) (hnull : .belowNull ∉ f.seams) :
    f = (⊥ : Form K).complement := by
  have hseams : f.seams = (⊥ : Form K).complement.seams := by
    rw [complement_seams, bot_seams, Set.sdiff_empty]
    refine Set.Subset.antisymm (fun x hx => ⟨Seam.aboveNull_le_of_ne ?_, f.lt_top hx⟩) h
    rintro rfl
    exact hnull hx
  have hcovers : (⊥ : Form K).complement.Covers := fun _ hx => hseams ▸ h hx
  apply Form.ext hseams
  rw [eq_false h.not_unsettled, eq_false hcovers.not_unsettled]

/-- Forms without a common seam. If `whole` holds, nothing above null is outside of both. -/
structure Opposed (whole : Prop) (f g : Form K) : Prop where
  disjoint : Disjoint f.seams g.seams
  covers : whole → (f ⊔ g).Covers

namespace Opposed

variable {whole : Prop}

theorem symm (h : Opposed whole f g) : Opposed whole g f :=
  ⟨h.disjoint.symm, fun hw => sup_comm f g ▸ h.covers hw⟩

theorem mono {whole' : Prop} (h : Opposed whole f g) (hw : whole' → whole) : Opposed whole' f g :=
  ⟨h.disjoint, fun hw' => h.covers (hw hw')⟩

theorem inf_seams_eq (h : Opposed whole f g) : (f ⊓ g).seams = ∅ :=
  h.disjoint.inter_eq

theorem bot_left (h : whole → g.Covers) : Opposed whole ⊥ g :=
  ⟨Set.empty_disjoint _, fun hw => (bot_sup_eq g).symm ▸ h hw⟩

theorem complement (f : Form K) : Opposed whole f f.complement where
  disjoint := Set.disjoint_sdiff_right
  covers _ x hx := by
    by_cases hf : x ∈ f.seams
    · exact .inl hf
    · exact .inr ⟨hx, hf⟩

theorem inf_sup (h : Opposed whole f g) (h' : Opposed whole f' g') :
    Opposed whole (f ⊓ f') (g ⊔ g') where
  disjoint := by
    refine Set.disjoint_union_right.2 ⟨?_, ?_⟩
    · exact h.disjoint.mono_left Set.inter_subset_left
    · exact h'.disjoint.mono_left Set.inter_subset_right
  covers hw x hx := by
    -- what is outside of one opponent is inside of the other
    rcases h.covers hw hx with hf | hg
    · rcases h'.covers hw hx with hf' | hg'
      · exact .inl ⟨hf, hf'⟩
      · exact .inr (.inr hg')
    · exact .inr (.inl hg)

/-- The meet of some forms is opposed to the join of their opponents. -/
theorem intersection_union {fs gs : List (Form K)} (h : List.Forall₂ (Opposed whole) fs gs) :
    Opposed whole (SetOp.intersection.form fs) (SetOp.union.form gs) := by
  induction h with
  | nil => exact (bot_left fun _ => covers_top).symm
  | cons hfg _ ih =>
    rw [SetOp.form_intersection_cons, SetOp.form_union_cons]
    exact hfg.inf_sup ih

end Opposed

end Form

/-! ### Trees -/

variable {d : Domain} {K : Type} [LinearOrder K] {σ : d.Scale K}

theorem Domain.Scale.form_nonNull : σ.form [.nonNull] = (⊥ : Form K).complement := by
  have hextents : σ.extents [.nonNull] = Set.Ico .aboveNull .top := σ.extents_singleton _
  apply Form.Covers.eq_complement_bot
  · exact hextents.symm.subset
  · rw [form_seams, hextents]
    exact fun h => absurd h.1 (not_le.2 Seam.belowNull_lt_aboveNull)

namespace Tree

variable {t u : Tree}

/-- A tree that leaves out nothing above null evaluates to one term. -/
theorem Whole.evaluatesTo_of_covers (h : t.Whole d) (hcovers : (t.form σ).Covers) :
    t.EvaluatesTo [if t.selects .null then .all else .nonNull] := by
  obtain ⟨s, hs, -, hcan, hform⟩ := h.exists_evaluate σ
  have hnull : t.selects .null ↔ .belowNull ∈ (t.form σ).seams :=
    h.sound.selects_iff (σ := σ) (p := .null) rfl
  refine ⟨s, hs, ?_⟩
  split
  next hsel =>
    apply hcan.eq_singleton_of_form Domain.Scale.canonical_all rfl rfl
    rw [hform, hcovers.eq_top (hnull.1 hsel), Domain.Scale.form_all]
  next hsel =>
    apply hcan.eq_singleton_of_form Domain.Scale.canonical_nonNull rfl rfl
    rw [hform, hcovers.eq_complement_bot (mt hnull.2 hsel), Domain.Scale.form_nonNull]

/-- The text of the term without null. -/
example (d : Domain) : (RangeSet.mk d [.nonNull]).render = "(null, +infinity)" := rfl

/-- Trees of opposed forms have nothing in common, and leave out nothing but null. -/
theorem Whole.evaluatesTo_of_opposed {whole : Prop} (ht : t.Whole d) (hu : u.Whole d)
    (h : Form.Opposed whole (t.form σ) (u.form σ)) :
    (node d .intersection [t, u]).EvaluatesTo [] ∧
      (whole → (node d .union [t, u]).EvaluatesTo
        [if t.selects .null || u.selects .null then .all else .nonNull]) := by
  constructor
  · rw [(ht.intersection hu).evaluatesTo_nil_iff σ, form_intersection]
    exact h.inf_seams_eq
  · intro hw
    have hselects : (node d .union [t, u]).selects .null =
        (t.selects .null || u.selects .null) := by
      rw [selects, anySelects, anySelects, anySelects, Bool.or_false]
    rw [← hselects]
    apply (ht.union hu).evaluatesTo_of_covers (σ := σ)
    rw [form_union]
    exact h.covers hw

/-- Nothing is in a tree and in its complement, and only null may be in neither: together they come
to the unconstrained term if the tree selects null, and to `(null, +infinity)` if it does not. -/
theorem complement_partition (hd : d.Ordered) (ht : t.Built (· = d)) (h : t.Evaluates) :
    (node d .intersection [t, node d .complement [t]]).EvaluatesTo [] ∧
      (node d .union [t, node d .complement [t]]).EvaluatesTo
        [if t.selects .null then .all else .nonNull] := by
  obtain ⟨K, _, ⟨σ⟩⟩ := hd.exists_scale
  have ht : t.Whole d := whole_iff.2 ⟨ht, h⟩
  have hopposed : Form.Opposed True (t.form σ) ((node d .complement [t]).form σ) := by
    rw [form_complement]
    exact .complement _
  obtain ⟨hnone, hall⟩ := ht.evaluatesTo_of_opposed ht.complement hopposed
  have hnull : (node d .complement [t]).selects .null = false := by
    simp [selects, Value.isNull]
  rw [hnull, Bool.or_false] at hall
  exact ⟨hnone, hall trivial⟩

/-- The integers from three on, and null. -/
def fromThreeOrNull : Tree :=
  node Scalar.int.domain .union [leaf (.null Scalar.int.domain), fromThree]

theorem whole_fromThreeOrNull : fromThreeOrNull.Whole Scalar.int.domain :=
  (whole_leaf (Interval.built_null _)).union whole_fromThree

theorem complement_partition_fromThreeOrNull :
    let neg (t : Tree) : Tree := node Scalar.int.domain .complement [t]
    (node Scalar.int.domain .intersection [fromThreeOrNull, neg fromThreeOrNull]).EvaluatesTo [] ∧
      (node Scalar.int.domain .union [fromThreeOrNull, neg fromThreeOrNull]).EvaluatesTo [.all] ∧
      (node Scalar.int.domain .intersection [belowThree, neg belowThree]).EvaluatesTo [] ∧
      (node Scalar.int.domain .union [belowThree, neg belowThree]).EvaluatesTo [.nonNull] := by
  intro neg
  have hfrom := whole_iff.1 whole_fromThreeOrNull
  have hthree := whole_iff.1 whole_belowThree
  obtain ⟨hnone, hall⟩ := complement_partition Scalar.int.ordered hfrom.1 hfrom.2
  obtain ⟨hnone', hnonNull⟩ := complement_partition Scalar.int.ordered hthree.1 hthree.2
  exact ⟨hnone, hall, hnone', hnonNull⟩

end Tree

end SearchArgument
