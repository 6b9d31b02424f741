import SearchArgument.Predicate
import SearchArgument.Proofs.Value

/-! Two negations in a row. What is written without a negation comes back as it was. A negation is
lost for good, since the first of the two takes it away and neither adds a node anywhere: what comes
back is smaller, and equal predicates are equally large. -/

namespace SearchArgument

theorem CompareOp.negate_negate (op : CompareOp) : op.negate.negate = op := by cases op <;> rfl

namespace Predicate

/-! ### Equality -/

mutual

protected theorem beq_self : ∀ p : Predicate, p.beq p
  | always | never | isNull | isNotNull => rfl
  | and ps | or ps => beqAll_self ps
  | not p => p.beq_self
  | compare op v => by simp [Predicate.beq]
  | isIn vs | isNotIn vs => beq_self_eq_true vs

theorem beqAll_self : ∀ ps : List Predicate, beqAll ps ps
  | [] => rfl
  | p :: ps => Bool.and_eq_true_iff.2 ⟨p.beq_self, beqAll_self ps⟩

end

instance : ReflBEq Predicate := ⟨fun {p} => p.beq_self⟩

mutual

theorem size_eq_of_beq : ∀ {p q : Predicate}, p == q → p.size = q.size
  | and ps, q, h => by
    cases q with
    | and qs => exact congrArg (· + 1) (sizes_eq_of_beqAll h)
    | _ => cases h
  | or ps, q, h => by
    cases q with
    | or qs => exact congrArg (· + 1) (sizes_eq_of_beqAll h)
    | _ => cases h
  | not p, q, h => by
    cases q with
    | not q => exact congrArg (· + 1) (size_eq_of_beq h)
    | _ => cases h
  | always, q, h | never, q, h | compare _ _, q, h | isIn _, q, h | isNotIn _, q, h
  | isNull, q, h | isNotNull, q, h => by
    cases q <;> first | rfl | cases h

theorem sizes_eq_of_beqAll : ∀ {ps qs : List Predicate}, beqAll ps qs → sizes ps = sizes qs
  | [], [], _ => rfl
  | [], _ :: _, h | _ :: _, [], h => by cases h
  | p :: ps, q :: qs, h => by
    obtain ⟨hp, hps⟩ := Bool.and_eq_true_iff.1 h
    rw [sizes, sizes, size_eq_of_beq hp, sizes_eq_of_beqAll hps]

end

/-! ### Negations -/

mutual

/-- Where there is a negation at all, there is one that stands below no other. -/
theorem outerNots_eq_zero_iff : ∀ p : Predicate,
    p.outerNots = 0 ↔ ∀ q ∈ p.subpredicates, q.isNot = false
  | always | never | compare _ _ | isIn _ | isNotIn _ | isNull | isNotNull =>
    iff_of_true rfl (List.forall_mem_singleton.2 rfl)
  | not p => iff_of_false Nat.one_ne_zero fun h => nomatch h p.not List.mem_cons_self
  | and ps | or ps => by
    rw [subpredicates, List.forall_mem_cons, outerNots, outerNotsAll_eq_zero_iff ps]
    exact (and_iff_right rfl).symm

theorem outerNotsAll_eq_zero_iff : ∀ ps : List Predicate,
    outerNotsAll ps = 0 ↔ ∀ q ∈ allSubpredicates ps, q.isNot = false
  | [] => iff_of_true rfl nofun
  | p :: ps => by
    rw [outerNotsAll, Nat.add_eq_zero_iff, allSubpredicates, List.forall_mem_append,
      outerNots_eq_zero_iff p, outerNotsAll_eq_zero_iff ps]

end

mutual

theorem negate_negate : ∀ {p : Predicate}, p.outerNots = 0 → p.negate.negate = p
  | always, _ | never, _ | isIn _, _ | isNotIn _, _ | isNull, _ | isNotNull, _ => rfl
  | compare op v, _ => congrArg (compare · v) op.negate_negate
  | not _, h => nomatch h
  | and _, h => congrArg and (negateAll_negateAll h)
  | or _, h => congrArg or (negateAll_negateAll h)

theorem negateAll_negateAll : ∀ {ps : List Predicate}, outerNotsAll ps = 0 →
    negateAll (negateAll ps) = ps
  | [], _ => rfl
  | p :: ps, h => by
    obtain ⟨hp, hps⟩ := Nat.add_eq_zero_iff.1 h
    rw [negateAll, negateAll, negate_negate hp, negateAll_negateAll hps]

end

/-- Two negations restore a predicate exactly if there is no negation in it. Then they restore it to
the letter, and else to something smaller. -/
theorem double_negation_restores (p : Predicate) :
    (p.negate.negate == p ↔ ∀ q ∈ p.subpredicates, q.isNot = false) ∧
      (p.negate.negate = p ∨ p.negate.negate.size < p.size) := by
  have hsize := p.size_negate
  have hsize' := p.negate.size_negate
  constructor
  · rw [← outerNots_eq_zero_iff]
    constructor
    · intro h
      have heq := size_eq_of_beq h
      omega
    · intro h
      rw [negate_negate h]
      exact beq_self_eq_true p
  · rcases Nat.eq_zero_or_pos p.outerNots with h | h
    · exact .inl (negate_negate h)
    · right
      omega

/-- Between `3` and `5` and not null comes back, the negation of it does not. -/
theorem double_negation_restores_threeToFive :
    let p : Predicate := .and [between (.int 3) (.int 5), .isNotNull]
    let q : Predicate := .or [.never, .not p]
    p.negate.negate == p ∧ ¬q.negate.negate == q ∧ q.negate.negate.size < q.size := by
  intro p q
  obtain ⟨hp, -⟩ := double_negation_restores p
  obtain ⟨hq, hsmaller⟩ := double_negation_restores q
  have hnot : p.not ∈ q.subpredicates :=
    List.mem_cons_of_mem _ (List.mem_cons_of_mem _ List.mem_cons_self)
  have hlost : ¬q.negate.negate == q := fun h => nomatch hq.1 h p.not hnot
  refine ⟨hp.2 (by decide), hlost, hsmaller.resolve_left fun h => hlost ?_⟩
  rw [h]
  exact beq_self_eq_true q

end Predicate

end SearchArgument
