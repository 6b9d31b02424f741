import SearchArgument.Proofs.Domain.Scalar
import SearchArgument.Proofs.RangeSet
import SearchArgument.Proofs.Tree.Operands

/-! The evaluation of trees: it selects the probes that the tree selects, and it is canonical,
as is its complement. -/

namespace SearchArgument.Tree

variable {d : Domain} {K : Type} [LinearOrder K] {σ : d.Scale K} {t : Tree} {s : RangeSet}

theorem evaluate_eq_ok : t.evaluate.run.value = .ok s ↔
    ∃ os, (t.operands none).run.value = .ok os ∧ s = ⟨t.domain, os.flatten⟩ := by
  simp only [evaluate, Attempt.bind_eq_ok, Attempt.value_pure, Except.ok.injEq, eq_comm (b := s)]

/-- An evaluated tree is canonical and has the form of the tree. -/
theorem Sound.evaluate_spec (ht : t.Sound d) (h : t.evaluate.run.value = .ok s) :
    s.domain = d ∧ σ.Canonical s.spans ∧ σ.form s.spans = t.form σ := by
  obtain ⟨os, hos, rfl⟩ := evaluate_eq_ok.1 h
  obtain ⟨spans, rfl⟩ := List.length_eq_one_iff.1 (length_operands (by simp) (by simp) hos)
  obtain ⟨hcan, hform⟩ := ht.operands_form (σ := σ) .union (by simp) hos
  rw [List.map_singleton, SetOp.collect_singleton] at hform
  rw [List.flatten_singleton]
  exact ⟨ht.domain_eq, hcan spans List.mem_cons_self, hform⟩

/-- The spans of an evaluated tree ascend along the seams of its domain. -/
theorem Sound.evaluate_canonical (ht : t.Sound d) (h : t.evaluate.run.value = .ok s) :
    s.domain = d ∧ σ.Canonical s.spans := by
  obtain ⟨hd, hcan, -⟩ := ht.evaluate_spec (σ := σ) h
  exact ⟨hd, hcan⟩

theorem Sound.contains_evaluate (σ : d.Scale K) (ht : t.Sound d)
    (h : t.evaluate.run.value = .ok s) {probe : Value} {p : Coordinate}
    (hp : d.point? probe = some p) : s.contains probe = t.selects probe := by
  obtain ⟨hd, hcan, hform⟩ := ht.evaluate_spec (σ := σ) h
  rw [Bool.eq_iff_iff, RangeSet.contains_iff_of_point (σ := σ) hd hcan.bounds hp,
    ht.selects_iff (σ := σ) hp, ← hform]
  rfl

/-- A probe that is no point of the domain is selected nowhere. -/
theorem Sound.selects_eq_false (ht : t.Sound d) {probe : Value} (hp : d.point? probe = none) :
    t.selects probe = false := by
  induction ht with
  | leaf hi => simp [selects, Interval.contains, hi.domain_eq, hp]
  | @node op children _ _ ih =>
    cases op with
    | union => simpa [selects, anySelects_eq_any] using ih
    | intersection => simp [selects, hp]
    | complement => simp [selects, hp]

/-- A tree evaluates exactly if each of its complements has a child, and fails for no other
reason. -/
theorem evaluates_iff : t.Evaluates ↔ t.hasBareComplement = false := by
  constructor
  · rintro ⟨s, hs⟩
    obtain ⟨os, hos, -⟩ := evaluate_eq_ok.1 hs
    by_contra hbare
    rw [operands_eq_error none t (by simpa using hbare)] at hos
    cases hos
  · intro h
    obtain ⟨os, hos⟩ := exists_operands none t h
    exact ⟨_, evaluate_eq_ok.2 ⟨os, hos, rfl⟩⟩

theorem evaluate_eq_error (h : t.hasBareComplement) :
    t.evaluate.run.value = .error .childlessComplement := by
  rw [evaluate, Attempt.value_bind, operands_eq_error none t h]
  rfl

theorem not_evaluates_iff :
    ¬t.Evaluates ↔ t.evaluate.run.value = .error .childlessComplement := by
  constructor
  · intro h
    rw [evaluates_iff, Bool.not_eq_false] at h
    exact evaluate_eq_error h
  · rintro h ⟨s, hs⟩
    cases h.symm.trans hs

/-- No node evaluates above a tree that does not. -/
theorem not_evaluates_node {e : Domain} {op : SetOp} {ts : List Tree} (hmem : t ∈ ts)
    (h : ¬t.Evaluates) : ¬(node e op ts).Evaluates := by
  rw [evaluates_iff, Bool.not_eq_false] at h ⊢
  rw [hasBareComplement, anyBare_eq_any, Bool.or_eq_true, List.any_eq_true]
  exact .inr ⟨t, hmem, h⟩

theorem not_evaluates_pair {e : Domain} {op : SetOp} {u : Tree} (h : ¬t.Evaluates ∨ ¬u.Evaluates) :
    ¬(node e op [t, u]).Evaluates := by
  rcases h with h | h
  · exact not_evaluates_node List.mem_cons_self h
  · exact not_evaluates_node (List.mem_cons_of_mem _ List.mem_cons_self) h

/-! ### Membership -/

theorem exists_evaluate (hd : d.Ordered) (ht : t.Built (· = d))
    (hbare : t.hasBareComplement = false) :
    ∃ s, t.evaluate.run.value = .ok s ∧ ∀ probe, s.contains probe = t.selects probe := by
  obtain ⟨K, _, ⟨σ⟩⟩ := hd.exists_scale
  obtain ⟨s, hs⟩ := evaluates_iff.2 hbare
  refine ⟨s, hs, fun probe => ?_⟩
  cases hp : d.point? probe with
  | none =>
    rw [ht.sound.selects_eq_false hp, RangeSet.contains_eq_false]
    rw [(ht.sound.evaluate_spec (σ := σ) hs).1, hp]
  | some p => exact ht.sound.contains_evaluate σ hs hp

/-- Over an ordered domain every tree without a childless complement evaluates, to the range
set of exactly those probes that it selects. A probe that the domain rejects or rounds is
nowhere. The scalar domains are ordered. -/
theorem evaluation_selects :
    (∀ k : Scalar, k.domain.Ordered) ∧ ∀ {d : Domain} {t : Tree}, d.Ordered → t.Built (· = d) →
      t.hasBareComplement = false → ∃ s, t.evaluate.run.value = .ok s ∧
        ∀ probe, s.contains probe = t.selects probe ∧
          (d.point? probe = none → s.contains probe = false) := by
  refine ⟨Scalar.ordered, fun {d t} hd ht hbare => ?_⟩
  obtain ⟨s, hs, hselects⟩ := exists_evaluate hd ht hbare
  refine ⟨s, hs, fun probe => ⟨hselects probe, fun hp => ?_⟩⟩
  rw [hselects probe, ht.sound.selects_eq_false hp]

/-- The integers up to three, written as what neither null nor `> 3` matches. -/
def upToThree : Tree :=
  .node Scalar.int.domain .complement [.node Scalar.int.domain .union
    [.leaf (.null Scalar.int.domain),
      .leaf (.ofSpan Scalar.int.domain ⟨.finite (.int 3) .lower .opened, .posInfinity⟩)]]

theorem built_upToThree : upToThree.Built (· = Scalar.int.domain) := by
  have hnull := Interval.built_null Scalar.int.domain
  have hbig : (Interval.ofSpan Scalar.int.domain
      ⟨.finite (.int 3) .lower .opened, .posInfinity⟩).Built (· = Scalar.int.domain) :=
    Interval.built_edit (.setLower (.int 3) .opened) trivial rfl
  have hunion := built_node Scalar.int.domain .union _
    (List.forall_mem_cons.2 ⟨.leaf hnull, List.forall_mem_singleton.2 (.leaf hbig)⟩) nofun
  exact built_node _ .complement _ (List.forall_mem_singleton.2 hunion) fun _ => le_rfl

theorem evaluation_selects_upToThree : ∃ s, upToThree.evaluate.run.value = .ok s ∧
    ∀ probe, s.contains probe = upToThree.selects probe ∧
      (Scalar.int.domain.point? probe = none → s.contains probe = false) :=
  evaluation_selects.2 Scalar.int.ordered built_upToThree rfl

/-! ### Canonicity -/

theorem value_evaluateComplemented (h : t.evaluate.run.value = .ok s) :
    t.evaluateComplemented.run.value = .ok s.complement.value := by
  rw [evaluateComplemented, Attempt.value_bind, h]
  rfl

theorem Yields.canonical (σ : d.Scale K) (h : t.Yields s) (ht : t.Built (· = d)) :
    s.domain = d ∧ σ.Canonical s.spans := by
  rcases h with h | h
  · exact ht.sound.evaluate_canonical h
  · cases hr : t.evaluate.run.value with
    | error f =>
      rw [evaluateComplemented, Attempt.value_bind, hr] at h
      cases h
    | ok r =>
      obtain ⟨rfl, hcan⟩ := ht.sound.evaluate_canonical (σ := σ) hr
      obtain rfl := Except.ok.inj ((value_evaluateComplemented hr).symm.trans h)
      exact ⟨rfl, (Domain.Scale.complement_spec hcan).1⟩

theorem evaluation_canonical (hd : d.Ordered) (ht : t.Built (· = d))
    (h : t.evaluate.run.value = .ok s) :
    s.Canonical ∧ ∃ c, t.evaluateComplemented.run.value = .ok c ∧ c.Canonical := by
  obtain ⟨K, _, ⟨σ⟩⟩ := hd.exists_scale
  obtain ⟨rfl, hcan⟩ := ht.sound.evaluate_canonical (σ := σ) h
  exact ⟨RangeSet.canonical_of_scale rfl hcan, _, value_evaluateComplemented h,
    RangeSet.canonical_of_scale rfl (Domain.Scale.complement_spec hcan).1⟩

theorem evaluation_canonical_upToThree :
    let s : RangeSet := ⟨Scalar.int.domain,
      [⟨.null .lower .opened, .finite (.int 3) .upper .closed⟩]⟩
    upToThree.evaluate.run.value = .ok s ∧ s.Canonical ∧
      ∃ c, upToThree.evaluateComplemented.run.value = .ok c ∧ c.Canonical :=
  ⟨rfl, evaluation_canonical Scalar.int.ordered built_upToThree rfl⟩

end SearchArgument.Tree
