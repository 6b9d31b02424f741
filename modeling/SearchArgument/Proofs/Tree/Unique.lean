import SearchArgument.Proofs.Domain.Fraction
import SearchArgument.Proofs.Predicate.Lower
import SearchArgument.Proofs.Tree.Agreement

/-! Uniqueness of the canonical form. Over a dense domain the probes of a range set determine its
seams, and these determine the settled cuts up to equality of values, so trees of the same probes
come to one form once their results are evaluated again. Range sets that differ no more than that
are twins: they have equal trees, equal access and equal explanations, if not the same text. -/

namespace SearchArgument

variable {d : Domain} {K : Type} [LinearOrder K] {σ : d.Scale K}

/-! ### Twins -/

inductive Cut.Twin (d : Domain) : Cut → Cut → Prop
  | negInfinity : Twin d .negInfinity .negInfinity
  | posInfinity : Twin d .posInfinity .posInfinity
  | null (side : Side) (t : Strictness) : Twin d (.null side t) (.null side t)
  | finite {v w : Value} (side : Side) (t : Strictness) : d.Member v → d.Member w →
    d.compare v w = .eq → Twin d (.finite v side t) (.finite w side t)

namespace Cut.Twin

variable {a b : Cut}

/-- Twins match on every scale. -/
theorem toMatches (σ : d.Scale K) (h : a.Twin d b) : a.Matches σ b := by
  cases h with
  | negInfinity => exact .negInfinity
  | posInfinity => exact .posInfinity
  | null side t => exact .null side t
  | finite side t hv hw he =>
    exact .finite side t hv.holds hw.holds
      ((Domain.Scale.compare_eq_eq_iff (σ := σ) hv.holds hw.holds).1 he)

/-- Over a dense domain cuts that match are twins. -/
theorem of_matches (hd : d.Dense) (h : a.Matches σ b) : a.Twin d b := by
  cases h with
  | negInfinity => exact .negInfinity
  | posInfinity => exact .posInfinity
  | null side t => exact .null side t
  | finite side t hv hw hmark =>
    exact .finite side t (hd.member_of_holds _ hv) (hd.member_of_holds _ hw)
      ((Domain.Scale.compare_eq_eq_iff (σ := σ) hv hw).2 hmark)

theorem beq (hd : d.Dense) (h : a.Twin d b) : a == b := by
  cases h with
  | negInfinity => rfl
  | posInfinity => rfl
  | null side t => cases side <;> cases t <;> rfl
  | @finite v w side t hv hw he =>
    show (v == w && decide (side = side) && decide (t = t)) = true
    simp [hd.eq_of_compare v w hv hw he]

/-- Where only identical members compare as equal, twins are identical. -/
theorem eq (hx : ∀ v w, d.Member v → d.Member w → d.compare v w = .eq → v = w)
    (h : a.Twin d b) : a = b := by
  cases h with
  | negInfinity => rfl
  | posInfinity => rfl
  | null side t => rfl
  | @finite v w side t hv hw he => rw [hx v w hv hw he]

theorem isNull_eq (h : a.Twin d b) : a.isNull = b.isNull := by cases h <;> rfl

theorem ofCut_beq (hd : d.Dense) (h : a.Twin d b) : Bound.ofCut a == Bound.ofCut b := by
  cases h with
  | negInfinity => rfl
  | posInfinity => rfl
  | null side t => rfl
  | @finite v w side t hv hw he => cases t <;> exact hd.eq_of_compare v w hv hw he

end Cut.Twin

structure Span.Twin (d : Domain) (a b : Span) : Prop where
  bounds_left : d.Bounds a
  bounds_right : d.Bounds b
  lower : a.lower.Twin d b.lower
  upper : a.upper.Twin d b.upper

namespace Span.Twin

variable {a b : Span}

theorem beq (hd : d.Dense) (h : a.Twin d b) : a == b :=
  Bool.and_eq_true_iff.2 ⟨h.lower.beq hd, h.upper.beq hd⟩

theorem eq (hx : ∀ v w, d.Member v → d.Member w → d.compare v w = .eq → v = w)
    (h : a.Twin d b) : a = b := by
  obtain ⟨_, _⟩ := a
  obtain ⟨_, _⟩ := b
  rw [Span.mk.injEq]
  exact ⟨h.lower.eq hx, h.upper.eq hx⟩

theorem toMatches (σ : d.Scale K) (h : a.Twin d b) : a.Matches σ b :=
  ⟨h.lower.toMatches σ, h.upper.toMatches σ⟩

theorem of_matches (hd : d.Dense) (ha : d.Bounds a) (hb : d.Bounds b) (h : a.Matches σ b) :
    a.Twin d b :=
  ⟨ha, hb, .of_matches hd h.lower, .of_matches hd h.upper⟩

theorem isPoint_eq (σ : d.Scale K) (h : a.Twin d b) :
    a.isPoint d.compare = b.isPoint d.compare :=
  σ.isPoint_congr h.bounds_left h.bounds_right (h.lower.toMatches σ).seam_eq
    (h.upper.toMatches σ).seam_eq

end Span.Twin

inductive RangeSet.Twin (d : Domain) : RangeSet → RangeSet → Prop
  | spans {xs ys : List Span} : List.Forall₂ (Span.Twin d) xs ys → Twin d ⟨d, xs⟩ ⟨d, ys⟩

namespace RangeSet.Twin

variable {s t : RangeSet}

theorem eq (hx : ∀ v w, d.Member v → d.Member w → d.compare v w = .eq → v = w)
    (h : s.Twin d t) : s = t := by
  obtain ⟨hspans⟩ := h
  have hsame := hspans.imp fun _ _ hab => hab.eq hx
  rw [List.forall₂_eq_eq_eq] at hsame
  rw [hsame]

theorem contains_eq (σ : d.Scale K) (h : s.Twin d t) (probe : Value) :
    s.contains probe = t.contains probe := by
  obtain @⟨xs, ys, hspans⟩ := h
  have hsame : (∀ a ∈ xs, d.Bounds a) ∧ (∀ b ∈ ys, d.Bounds b) ∧ σ.extents xs = σ.extents ys := by
    induction hspans with
    | nil => exact ⟨by simp, by simp, rfl⟩
    | cons hab _ ih =>
      refine ⟨List.forall_mem_cons.2 ⟨hab.bounds_left, ih.1⟩,
        List.forall_mem_cons.2 ⟨hab.bounds_right, ih.2.1⟩, Set.ext fun x => ?_⟩
      rw [Domain.Scale.mem_extents_cons, Domain.Scale.mem_extents_cons,
        (hab.toMatches σ).extent_eq, ih.2.2]
  obtain ⟨hx, hy, he⟩ := hsame
  rw [Bool.eq_iff_iff, contains_iff (σ := σ) rfl hx, contains_iff (σ := σ) rfl hy, he]

theorem access_eq (σ : d.Scale K) (h : s.Twin d t) : s.access = t.access := by
  obtain ⟨hspans⟩ := h
  exact access_congr (hspans.imp fun _ _ hab => ⟨(hab.toMatches σ).isAll_eq, hab.isPoint_eq σ⟩)

theorem beq (hd : d.Dense) (h : s.Twin d t) : s == t := by
  obtain @⟨xs, ys, hspans⟩ := h
  have hsame : xs == ys := by
    induction hspans with
    | nil => rfl
    | cons hab _ ih => exact Bool.and_eq_true_iff.2 ⟨hab.beq hd, ih⟩
  exact (beq_iff (d := d) rfl rfl).2 hsame

theorem toTree_beq (hd : d.Dense) (h : s.Twin d t) : s.toTree == t.toTree :=
  toTree_beq_iff.2 (h.beq hd)

theorem explain_beq (hd : d.Dense) (σ : d.Scale K) (h : s.Twin d t) :
    s.explain == t.explain := by
  have haccess := h.access_eq σ
  have hnull := h.contains_eq σ .null
  obtain @⟨xs, ys, hspans⟩ := h
  have hranges : (RangeSet.mk d xs).explain.ranges == (RangeSet.mk d ys).explain.ranges := by
    clear haccess hnull
    simp only [explain]
    induction hspans with
    | nil => rfl
    | cons hab _ ih =>
      rw [List.filter_cons, List.filter_cons, hab.upper.isNull_eq]
      split
      · exact Bool.and_eq_true_iff.2
          ⟨Bool.and_eq_true_iff.2 ⟨hab.lower.ofCut_beq hd, hab.upper.ofCut_beq hd⟩, ih⟩
      · exact ih
  show (decide (access _ = access _) && decide (contains _ _ = contains _ _) && _ == _) = true
  rw [haccess, hnull, decide_eq_true rfl, decide_eq_true rfl, Bool.true_and, Bool.true_and]
  exact hranges

end RangeSet.Twin

/-! ### Uniqueness -/

/-- Over a dense domain, settled results of the same seams are twins. -/
theorem RangeSet.Normal.twin (hd : d.Dense) {seams : Set (Seam K)} {s t : RangeSet}
    (hs : s.Normal σ seams) (ht : t.Normal σ seams) : s.Twin d t := by
  have hmatches := hs.canonical.forall₂_matches ht.canonical (hs.form_eq ht)
  have hbounds := hs.canonical.bounds
  have hbounds' := ht.canonical.bounds
  obtain ⟨e, xs⟩ := s
  obtain ⟨f, ys⟩ := t
  obtain rfl : e = d := hs.domain_eq
  obtain rfl : f = e := ht.domain_eq
  apply RangeSet.Twin.spans
  apply forall₂_imp_of_mem hmatches
  intro a b ha hb hab
  exact .of_matches hd (hbounds a ha) (hbounds' b hb) hab

namespace Tree

/-- Over a dense domain, trees that evaluate to the same probes have one form: their results
evaluate once more to equal trees, accessed and explained alike, and to identical range sets, of
one text, where only identical members compare as equal. The trees of predicates are among them. -/
theorem canonical_form_unique (hd : d.Dense) :
    (∀ (p : Predicate) t, (p.lower d).run.value = .ok t → t.Built (· = d)) ∧
    ∀ {t t' : Tree} {s s' : RangeSet}, t.Built (· = d) → t'.Built (· = d) →
      t.evaluate.run.value = .ok s → t'.evaluate.run.value = .ok s' →
      (∀ probe, s.contains probe = s'.contains probe) →
      ∃ r r', s.toTree.evaluate.run.value = .ok r ∧ s'.toTree.evaluate.run.value = .ok r' ∧
        r.toTree == r'.toTree ∧ r.access = r'.access ∧ r.explain == r'.explain ∧
        ((∀ v w, d.Member v → d.Member w → d.compare v w = .eq → v = w) → r = r') := by
  refine ⟨fun p t h => (Predicate.whole_lower h).built, ?_⟩
  intro t t' s s' ht ht' h h' same
  obtain ⟨K, _, σ, ho⟩ := hd.exists_onto
  obtain ⟨hdom, hcan⟩ := ht.sound.evaluate_canonical (σ := σ) h
  obtain ⟨hdom', hcan'⟩ := ht'.sound.evaluate_canonical (σ := σ) h'
  obtain ⟨r, hr, hnormal⟩ := RangeSet.reevaluate_spec hdom hcan
  obtain ⟨r', hr', hnormal'⟩ := RangeSet.reevaluate_spec hdom' hcan'
  rw [← hd.extents_eq ho hdom hdom' hcan.bounds hcan'.bounds same] at hnormal'
  have htwin := hnormal.twin hd hnormal'
  exact ⟨r, r', hr, hr', htwin.toTree_beq hd, htwin.access_eq σ, htwin.explain_beq hd σ,
    fun hx => htwin.eq hx⟩

/-- The binary fractions below one half. -/
def belowHalf : Tree :=
  .leaf (.ofSpan .fraction ⟨.negInfinity, .finite (.text "1") .upper .opened⟩)

/-- The binary fractions that are not at least one half. -/
def notFromHalf : Tree :=
  .node .fraction .complement
    [.leaf (.ofSpan .fraction ⟨.finite (.text "1") .lower .closed, .posInfinity⟩)]

theorem built_belowHalf : belowHalf.Built (· = .fraction) :=
  .leaf (Interval.built_edit (.setUpper (.text "1") .opened) trivial rfl)

theorem built_notFromHalf : notFromHalf.Built (· = .fraction) :=
  built_node _ .complement _ (List.forall_mem_singleton.2
    (.leaf (Interval.built_edit (.setLower (.text "1") .closed) trivial rfl))) fun _ => le_rfl

/-- A lower bound at negative infinity and one just above null say the same. -/
theorem contains_respelled (d : Domain) (b : Cut) (hb : b ≠ .posInfinity) (probe : Value) :
    (RangeSet.mk d [⟨.null .lower .opened, b⟩]).contains probe =
      (RangeSet.mk d [⟨.negInfinity, b⟩]).contains probe := by
  have hcovers : ∀ p, (⟨.null .lower .opened, b⟩ : Span).covers d.compare p =
      (⟨.negInfinity, b⟩ : Span).covers d.compare p := by
    intro p
    simp only [Span.covers, Span.isAll, hb, decide_false, Bool.and_false, Bool.false_or]
    cases p <;> rfl
  simp only [RangeSet.contains, RangeSet.intervals, List.map_cons, List.map_nil, List.any_cons,
    List.any_nil, Bool.or_false, Interval.contains, Interval.ofSpan, hcovers]

theorem canonical_form_unique_belowHalf :
    let s : RangeSet := ⟨.fraction, [⟨.null .lower .opened, .finite (.text "1") .upper .opened⟩]⟩
    let s' : RangeSet := ⟨.fraction, [⟨.negInfinity, .finite (.text "1") .upper .opened⟩]⟩
    belowHalf.evaluate.run.value = .ok s ∧ notFromHalf.evaluate.run.value = .ok s' ∧ s ≠ s' ∧
      ∃ r r', s.toTree.evaluate.run.value = .ok r ∧ s'.toTree.evaluate.run.value = .ok r' ∧
        r.toTree == r'.toTree ∧ r.access = r'.access ∧ r.explain == r'.explain ∧ r = r' := by
  intro s s'
  have same := contains_respelled .fraction (.finite (.text "1") .upper .opened) (by simp)
  obtain ⟨r, r', hr, hr', htree, haccess, hexplain, hsame⟩ :=
    (canonical_form_unique Domain.dense_fraction).2 built_belowHalf built_notFromHalf
      rfl rfl same
  exact ⟨rfl, rfl, by simp [s, s'], r, r', hr, hr', htree, haccess, hexplain,
    hsame fun _ _ => Domain.eq_of_compare_fraction⟩

/-- The binary fractions below one half, as a decimal spells it. -/
def belowSpelled (c : Decimal) : Tree :=
  .leaf (.ofSpan .decimalHalf ⟨.negInfinity, .finite (.decimal c) .upper .opened⟩)

theorem built_belowSpelled {c : Decimal} (h : c == .half) :
    (belowSpelled c).Built (· = .decimalHalf) := by
  have hcut := (Domain.member_of_beq_half h).cut_eq .upper .opened
  refine .leaf (Interval.built_edit (.setUpper (.decimal c) .opened) trivial ?_)
  exact Attempt.bind_eq_ok.2 ⟨_, congrArg (·.run.value) hcut, rfl⟩

/-- Decimals keep their scale in the text, so where `0.5` and `0.50` are one member of a dense
domain, the fractions below it have equal trees of different texts. -/
theorem rendering_not_unique_half :
    let short : Decimal := .half
    let long : Decimal := (Decimal.ofScaled? 50 2).getD .zero
    let below (c : Decimal) : RangeSet :=
      ⟨.decimalHalf, [⟨.null .lower .opened, .finite (.decimal c) .upper .opened⟩]⟩
    Domain.decimalHalf.Dense ∧
      (belowSpelled short).Built (· = .decimalHalf) ∧
      (belowSpelled long).Built (· = .decimalHalf) ∧
      (belowSpelled short).evaluate.run.value = .ok (below short) ∧
      (belowSpelled long).evaluate.run.value = .ok (below long) ∧
      (∀ probe, (below short).contains probe = (below long).contains probe) ∧
      (below short).toTree.evaluate.run.value = .ok (below short) ∧
      (below long).toTree.evaluate.run.value = .ok (below long) ∧
      (below short).toTree == (below long).toTree ∧
      (below short).toTree.render = "(null, 0.5)" ∧
      (below long).toTree.render = "(null, 0.50)" := by
  intro short long below
  have hd := Domain.dense_decimalHalf
  obtain ⟨K, _, σ, -⟩ := hd.exists_onto
  have hhalf : short == .half ∧ long == .half := by decide
  have hshort := built_belowSpelled hhalf.1
  have hlong := built_belowSpelled hhalf.2
  have hbounds := (hshort.sound.evaluate_canonical (σ := σ) (s := below short) rfl).2.bounds
  have hbounds' := (hlong.sound.evaluate_canonical (σ := σ) (s := below long) rfl).2.bounds
  have htwin : (below short).Twin .decimalHalf (below long) :=
    .spans (.cons ⟨hbounds _ List.mem_cons_self, hbounds' _ List.mem_cons_self,
      .null .lower .opened, .finite .upper .opened (Domain.member_of_beq_half hhalf.1)
        (Domain.member_of_beq_half hhalf.2) rfl⟩ .nil)
  exact ⟨hd, hshort, hlong, rfl, rfl, htwin.contains_eq σ, rfl, rfl, htwin.toTree_beq hd, by decide,
    by decide⟩

end Tree

end SearchArgument
