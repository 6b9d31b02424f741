import SearchArgument.Proofs.Tree.Lattice

/-! Trees that evaluation leaves as they are. Settling leaves a range set equal exactly if no span
but that of every point begins at negative infinity, and a second evaluation settles. The tree of a
result is therefore fixed exactly if the result is settled, and what it evaluates to always is. Only
complements make spans begin at negative infinity. -/

namespace SearchArgument

/-! ### Settled range sets -/

theorem Span.settle_beq_iff {a : Span} : a.settle == a ↔ (a.lower = .negInfinity → a = .all) := by
  constructor
  · intro h hinf
    by_contra hne
    have hall : ¬a.isAll := mt isAll_iff.1 hne
    rw [settle, if_neg hall, if_pos hinf] at h
    obtain ⟨hlower, -⟩ := Bool.and_eq_true_iff.1 h
    rw [hinf] at hlower
    cases hlower
  · intro h
    rw [settle_eq_self h]
    exact beq_self_eq_true a

theorem Span.map_settle_beq_iff {spans : List Span} :
    spans.map settle == spans ↔ Settled spans := by
  induction spans with
  | nil => simp [Settled]
  | cons a as ih =>
    rw [List.map_cons, List.cons_beq_cons, Bool.and_eq_true, settle_beq_iff, ih, Settled, Settled,
      List.forall_mem_cons]

/-- Settling a range set leaves it equal exactly if it is settled. -/
theorem RangeSet.settle_beq_iff {s : RangeSet} : s.settle == s ↔ Span.Settled s.spans := by
  have hd : s.settle.domain = s.domain := rfl
  exact (beq_iff hd rfl).trans Span.map_settle_beq_iff

/-! ### Complements -/

namespace Tree

variable {d : Domain} {K : Type} [LinearOrder K] {σ : d.Scale K} {t : Tree} {s : RangeSet}

theorem anyComplement_eq_any (ts : List Tree) : anyComplement ts = ts.any (·.hasComplement) := by
  induction ts with
  | nil => rfl
  | cons t ts ih => rw [anyComplement, List.any_cons, ih]

/-- A form that no complement went into is settled. -/
theorem Sound.not_unsettled (ht : t.Sound d) (h : t.hasComplement = false) :
    ¬(t.form σ).unsettled := by
  induction ht with
  | leaf => exact not_false
  | @node op children _ _ ih =>
    rw [hasComplement, anyComplement_eq_any, Bool.or_eq_false_iff, decide_eq_false_iff_not,
      List.any_eq_false] at h
    have hchild : ¬∃ f ∈ children.map (form σ), f.unsettled := by
      rintro ⟨f, hf, hu⟩
      obtain ⟨t, ht, rfl⟩ := List.mem_map.1 hf
      exact ih t ht (by simpa using h.2 t ht) hu
    rw [form_node, SetOp.form_of_ne h.1]
    intro hu
    cases op with
    | union => exact hchild (Form.exists_unsettled_of_sup hu)
    | intersection => exact hchild (Form.exists_unsettled_of_inf hu)
    | complement => exact h.1 rfl

/-! ### Fixed points -/

/-- The tree of a result is fixed exactly if the result is settled. -/
theorem fixed_toTree_iff (hd : s.domain = d) (h : σ.Canonical s.spans) :
    s.toTree.Fixed ↔ Span.Settled s.spans := by
  rw [Fixed, RangeSet.evaluate_toTree hd h]
  simp only [Except.ok.injEq, ↓existsAndEq, true_and]
  rw [RangeSet.toTree_beq_iff, RangeSet.settle_beq_iff]

/-- A second evaluation respells negative infinity as `> null`, changes nothing else and is the
last to change anything. So the result is fixed exactly if it leaves nothing to respell, as it does
where the tree has no complement. -/
theorem reevaluation_settles (k : Scalar) (ht : t.Built (· = k.domain))
    (h : t.evaluate.run.value = .ok s) :
    s.toTree.evaluate.run.value = .ok s.settle ∧
    s.settle.toTree.evaluate.run.value = .ok s.settle ∧
    (s.toTree.Fixed ↔ ∀ a ∈ s.spans, a.lower = .negInfinity → a = .all) ∧
    (t.hasComplement = false → s.toTree.Fixed) := by
  obtain ⟨K, _, σ, -⟩ := k.exists_exact
  obtain ⟨hd, hcan, hform⟩ := ht.sound.evaluate_spec (σ := σ) h
  have hfixed := fixed_toTree_iff hd hcan
  have hagain : s.settle.settle = s.settle :=
    congrArg (RangeSet.mk s.domain) (Span.settled_settle s.spans).map_settle
  refine ⟨RangeSet.evaluate_toTree hd hcan, ?_, hfixed, fun hno => ?_⟩
  · rw [RangeSet.evaluate_toTree (s := s.settle) hd hcan.settle, hagain]
  · rw [hfixed, hcan.settled_iff, hform]
    exact ht.sound.not_unsettled hno

/-- The integers from five on. -/
def fromFive : Tree :=
  leaf (.ofSpan Scalar.int.domain ⟨.finite (.int 5) .lower .closed, .posInfinity⟩)

theorem built_fromFive : fromFive.Built (· = Scalar.int.domain) :=
  .leaf (Interval.built_edit (.setLower (.int 5) .closed) trivial rfl)

theorem built_union_fromFive {t : Tree} (ht : t.Built (· = Scalar.int.domain)) :
    (node Scalar.int.domain .union [t, fromFive]).Built (· = Scalar.int.domain) :=
  built_node _ _ _ (by simp [ht, built_fromFive]) nofun

/-- The integers below three or from five on, with a complement for the first part and without. -/
theorem reevaluation_settles_fromFive :
    let below : Span := ⟨.negInfinity, .finite (.int 3) .upper .opened⟩
    let respelled : Span := ⟨.null .lower .opened, .finite (.int 3) .upper .opened⟩
    let upward : Span := ⟨.finite (.int 5) .lower .closed, .posInfinity⟩
    let s : RangeSet := ⟨Scalar.int.domain, [below, upward]⟩
    let s' : RangeSet := ⟨Scalar.int.domain, [respelled, upward]⟩
    (node Scalar.int.domain .union [belowThree, fromFive]).evaluate.run.value = .ok s ∧
      s.toTree.evaluate.run.value = .ok s' ∧ s'.toTree.evaluate.run.value = .ok s' ∧
      ¬s.toTree.Fixed ∧
      (node Scalar.int.domain .union [underThree, fromFive]).evaluate.run.value = .ok s' ∧
      s'.toTree.Fixed := by
  intro below respelled upward s s'
  obtain ⟨hsecond, hthird, hfixed, -⟩ :=
    reevaluation_settles .int (built_union_fromFive whole_belowThree.built) (s := s) rfl
  obtain ⟨-, -, -, hno⟩ :=
    reevaluation_settles .int (built_union_fromFive built_underThree) (s := s') rfl
  have hne : below ≠ .all := by simp [below, Span.all]
  exact ⟨rfl, hsecond, hthird, fun h => hne (hfixed.1 h below List.mem_cons_self rfl), rfl, hno rfl⟩

end Tree

end SearchArgument
