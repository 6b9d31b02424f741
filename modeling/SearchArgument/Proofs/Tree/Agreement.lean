import SearchArgument.Proofs.Span.Match
import SearchArgument.Proofs.Tree.Evaluation

/-! Re-evaluation and agreement. The terms of a canonical range set are settled one by one, and
their union then finds nothing left to join, so the range set evaluated once more is the range set
with each span settled. Settled results have no choice of spelling left. Over a domain whose marks
tell values apart, two trees therefore evaluate to equal results exactly if they have one form, and
to equal results of a second evaluation exactly if their forms have the same seams. -/

namespace SearchArgument

variable {d : Domain} {K : Type} [LinearOrder K] {σ : d.Scale K}

namespace RangeSet

variable {s t : RangeSet}

/-! ### The tree of a range set -/

/-- A term hands up its settled span. -/
theorem operands_term {above : Option SetOp} {a : Span}
    (h : a.settled? d.compare = some a.settle) :
    ((Tree.leaf (.ofSpan d a)).operands above).run.value = .ok [[a.settle]] := by
  show Except.ok [(a.settled? d.compare).toList] = _
  rw [h, Option.toList_some]

theorem operands_terms {above : Option SetOp} {spans : List Span}
    (h : ∀ a ∈ spans, a.settled? d.compare = some a.settle) :
    (Tree.allOperands above (spans.map fun a => .leaf (.ofSpan d a))).run.value =
      .ok (spans.map fun a => [a.settle]) := by
  induction spans with
  | nil => rfl
  | cons a as ih =>
    obtain ⟨ha, has⟩ := List.forall_mem_cons.1 h
    exact Tree.allOperands_cons_eq_ok.2 ⟨_, _, operands_term ha, ih has, rfl⟩

/-- A canonical range set evaluated as a tree is settled, and not changed otherwise. -/
theorem evaluate_toTree (hd : s.domain = d) (h : σ.Canonical s.spans) :
    s.toTree.evaluate.run.value = .ok s.settle := by
  obtain ⟨e, spans⟩ := s
  obtain rfl : e = d := hd
  have hterms : ∀ a ∈ spans, a.settled? e.compare = some a.settle := fun a ha =>
    Span.settled?_eq_settle (h.bounds a ha)
      ((Domain.Scale.not_isInverted_iff (h.bounds a ha)).2 (h.proper a ha)) (h.not_fromNull a ha)
  match spans with
  | [] => rfl
  | [a] =>
    exact Tree.evaluate_eq_ok.2 ⟨_, operands_term (hterms a List.mem_cons_self), rfl⟩
  | a :: b :: rest =>
    rw [toTree_union]
    generalize a :: b :: rest = spans at h hterms
    -- the settled spans are canonical, so their union is no other list
    have hunion : (SetOp.union.combine e.compare (spans.map fun a => [a.settle])).run.value =
        .ok (spans.map Span.settle) := by
      show Except.ok (Span.union e.compare (spans.map fun a => [a.settle]).flatten).value = _
      have hflat : (spans.map fun a => [a.settle]).flatten = spans.map Span.settle :=
        List.map_eq_flatMap.symm
      rw [hflat, h.settle.union_eq_self]
    refine Tree.evaluate_eq_ok.2 ⟨[spans.map Span.settle], ?_, by simp [settle, Tree.domain]⟩
    refine Tree.operands_node_eq_ok.2 ⟨_, operands_terms hterms, ?_⟩
    rw [if_neg (by simp)]
    exact ⟨_, hunion, rfl⟩

/-! ### Settled results -/

/-- A range set in its settled form over a domain, taking up given seams. -/
structure Normal (σ : d.Scale K) (seams : Set (Seam K)) (s : RangeSet) : Prop where
  domain_eq : s.domain = d
  canonical : σ.Canonical s.spans
  settled : Span.Settled s.spans
  extents_eq : σ.extents s.spans = seams

theorem reevaluate_spec (hd : s.domain = d) (hcan : σ.Canonical s.spans) :
    ∃ r, s.toTree.evaluate.run.value = .ok r ∧ r.Normal σ (σ.extents s.spans) :=
  ⟨s.settle, evaluate_toTree hd hcan, hd, hcan.settle, Span.settled_settle _,
    Domain.Scale.extents_settle _⟩

/-- Settled results of the same seams have one form. -/
theorem Normal.form_eq {seams : Set (Seam K)} (hs : s.Normal σ seams) (ht : t.Normal σ seams) :
    σ.form s.spans = σ.form t.spans := by
  apply Form.ext (hs.extents_eq.trans ht.extents_eq.symm)
  rw [eq_false (hs.canonical.settled_iff.1 hs.settled),
    eq_false (ht.canonical.settled_iff.1 ht.settled)]

end RangeSet

/-! ### Agreement by forms -/

namespace Tree

variable {t u : Tree} {s : RangeSet}

theorem Whole.evaluates (h : t.Whole d) : t.Evaluates := evaluates_iff.2 h.no_bare

theorem whole_iff : t.Whole d ↔ t.Built (· = d) ∧ t.Evaluates :=
  ⟨fun h => ⟨h.built, h.evaluates⟩, fun h => ⟨h.1, evaluates_iff.1 h.2⟩⟩

/-- A whole tree evaluates to what its form says. -/
theorem Whole.exists_evaluate (σ : d.Scale K) (h : t.Whole d) :
    ∃ s, t.evaluate.run.value = .ok s ∧ s.domain = d ∧ σ.Canonical s.spans ∧
      σ.form s.spans = t.form σ := by
  obtain ⟨s, hs⟩ := h.evaluates
  exact ⟨s, hs, h.sound.evaluate_spec hs⟩

theorem reevaluate_eq (h : t.evaluate.run.value = .ok s) :
    t.reevaluate.run.value = s.toTree.evaluate.run.value := by
  rw [reevaluate, Attempt.value_bind, h]
  rfl

/-- A whole tree evaluates twice, to the settled spelling of its seams. -/
theorem Whole.exists_reevaluate (σ : d.Scale K) (h : t.Whole d) :
    ∃ s, t.reevaluate.run.value = .ok s ∧ s.Normal σ (t.form σ).seams := by
  obtain ⟨s, hs, hd, hcan, hform⟩ := h.exists_evaluate σ
  obtain ⟨r, hr, hnormal⟩ := RangeSet.reevaluate_spec hd hcan
  rw [← hform]
  exact ⟨r, (reevaluate_eq hs).trans hr, hnormal⟩

theorem Whole.agree_iff (hσ : σ.Exact) (ht : t.Whole d) (hu : u.Whole d) :
    t.Agree u ↔ t.form σ = u.form σ := by
  obtain ⟨r, hr, hdr, hcanr, hformr⟩ := ht.exists_evaluate σ
  obtain ⟨s, hs, hds, hcans, hforms⟩ := hu.exists_evaluate σ
  have hbeq : t.Agree u ↔ r == s := by
    rw [Agree, hr, hs]
    simp only [Except.ok.injEq, ↓existsAndEq, true_and]
  rw [hbeq, RangeSet.beq_iff hdr hds, hcanr.beq_iff hσ hcans, hformr, hforms]

theorem Whole.agreeSettled_iff (hσ : σ.Exact) (ht : t.Whole d) (hu : u.Whole d) :
    t.AgreeSettled u ↔ (t.form σ).seams = (u.form σ).seams := by
  obtain ⟨r, hr, hnr⟩ := ht.exists_reevaluate σ
  obtain ⟨s, hs, hns⟩ := hu.exists_reevaluate σ
  have hbeq : t.AgreeSettled u ↔ r == s := by
    rw [AgreeSettled, hr, hs]
    simp only [Except.ok.injEq, ↓existsAndEq, true_and]
  rw [hbeq, RangeSet.beq_iff hnr.domain_eq hns.domain_eq, hnr.canonical.beq_iff hσ hns.canonical]
  constructor
  · intro he
    rw [← hnr.extents_eq, ← hns.extents_eq]
    exact congrArg Form.seams he
  · intro he
    rw [he] at hnr
    exact hnr.form_eq hns

/-- Only a tree without seams evaluates to nothing. -/
theorem Whole.evaluatesTo_nil_iff (σ : d.Scale K) (h : t.Whole d) :
    t.EvaluatesTo [] ↔ (t.form σ).seams = ∅ := by
  obtain ⟨s, hs, -, hcan, hform⟩ := h.exists_evaluate σ
  have hnil : t.EvaluatesTo [] ↔ s.spans = [] := by
    rw [EvaluatesTo, hs]
    simp only [Except.ok.injEq, ↓existsAndEq, true_and]
  rw [hnil, ← hform, Domain.Scale.form_seams]
  constructor
  · intro he
    rw [he, σ.extents_nil]
  · intro he
    cases hspans : s.spans with
    | nil => rfl
    | cons a as =>
      rw [hspans] at hcan he
      exact absurd (Domain.Scale.start_mem_extents hcan.toAscending) (he ▸ Set.notMem_empty _)

/-- A tree evaluates to a range set with null if it takes up the seam below null. -/
theorem Whole.contains_null_iff (σ : d.Scale K) (h : t.Whole d)
    (hs : t.evaluate.run.value = .ok s) :
    s.contains .null ↔ .belowNull ∈ (t.form σ).seams := by
  obtain ⟨hd, hcan, hform⟩ := h.sound.evaluate_spec (σ := σ) hs
  rw [RangeSet.contains_null_iff (σ := σ) hd hcan.bounds, ← hform, Domain.Scale.form_seams]

/-! ### Regrouping -/

namespace Regrouped

variable {op : SetOp} {ts us : List Tree}

theorem whole_iff (hop : op ≠ .complement) (h : Regrouped d op ts us) :
    (∀ t ∈ ts, t.Whole d) ↔ ∀ u ∈ us, u.Whole d := by
  induction h with
  | perm hperm => exact forall_congr' fun t => by rw [hperm.mem_iff]
  | group ts us => rw [List.forall_mem_append, List.forall_mem_cons, whole_node_iff hop]
  | symm _ ih => exact ih.symm
  | trans _ _ ih₁ ih₂ => exact ih₁.trans ih₂

/-- Regrouped operands come together to the same form. -/
theorem form_eq (σ : d.Scale K) (hop : op ≠ .complement) (h : Regrouped d op ts us) :
    op.form (ts.map (form σ)) = op.form (us.map (form σ)) := by
  simp only [SetOp.form_of_ne hop]
  induction h with
  | perm hperm => exact SetOp.collect_perm op (hperm.map _)
  | group ts us =>
    rw [List.map_append, List.map_cons, form_node, SetOp.form_of_ne hop, ← List.singleton_append]
    exact SetOp.collect_append (SetOp.collect_singleton op _).symm rfl
  | symm _ ih => exact ih.symm
  | trans _ _ ih₁ ih₂ => exact ih₁.trans ih₂

end Regrouped

end Tree

end SearchArgument
