import Mathlib.Order.Interval.Set.Disjoint
import SearchArgument.Proofs.Predicate.Comparison
import SearchArgument.Proofs.Tree.Partition

/-! A predicate beside its negation. Both lower or neither does, since they place the same literals
in the same order, and the trees that they lower to have opposed forms: the bounds of a comparison
and of the opposite one are two cuts of one seam, whether or not the literal was rounded. Only a
null literal makes them leave out anything else than null. -/

namespace SearchArgument

variable {d : Domain}

/-! ### Attempts side by side -/

namespace Attempt

variable {α β γ δ : Type} {R : α → β → Prop} {S : γ → δ → Prop} {m : Attempt α} {n : Attempt β}

/-- Both attempts fail with one fault, or both succeed with related results. -/
inductive Related (R : α → β → Prop) (m : Attempt α) (n : Attempt β) : Prop
  | failed {f : Fault} : m.run.value = .error f → n.run.value = .error f → Related R m n
  | done {a : α} {b : β} : m.run.value = .ok a → n.run.value = .ok b → R a b → Related R m n

namespace Related

theorem pure {a : α} {b : β} (h : R a b) :
    Related R (Pure.pure a : Attempt α) (Pure.pure b : Attempt β) :=
  .done rfl rfl h

theorem refl (m : Attempt α) : Related Eq m m := by
  cases h : m.run.value with
  | error f => exact .failed h h
  | ok a => exact .done h h rfl

theorem symm {R' : β → α → Prop} (h : Related R m n) (hR : ∀ {a b}, R a b → R' b a) :
    Related R' n m := by
  cases h with
  | failed hm hn => exact .failed hn hm
  | done hm hn hab => exact .done hn hm (hR hab)

theorem bind {f : α → Attempt γ} {g : β → Attempt δ} (h : Related R m n)
    (hf : ∀ {a b}, m.run.value = .ok a → n.run.value = .ok b → R a b → Related S (f a) (g b)) :
    Related S (m >>= f) (n >>= g) := by
  cases h with
  | @failed f hm hn =>
    refine .failed (f := f) ?_ ?_
    · rw [value_bind, hm]
      rfl
    · rw [value_bind, hn]
      rfl
  | done hm hn hab =>
    cases hf hm hn hab with
    | @failed f hf hg =>
      refine .failed (f := f) ?_ ?_
      · rw [value_bind, hm]
        exact hf
      · rw [value_bind, hn]
        exact hg
    | done hf hg hcd => exact .done (bind_eq_ok.2 ⟨_, hm, hf⟩) (bind_eq_ok.2 ⟨_, hn, hg⟩) hcd

theorem exists_right {a : α} (h : Related R m n) (hm : m.run.value = .ok a) :
    ∃ b, n.run.value = .ok b ∧ R a b := by
  cases h with
  | failed hm' => cases hm.symm.trans hm'
  | done hm' hn hab =>
    cases hm.symm.trans hm'
    exact ⟨_, hn, hab⟩

end Related

end Attempt

/-! ### Comparisons -/

/-- From either side, and with the opposite strictness, a literal is cut at the same place. -/
theorem Domain.related_cut (d : Domain) (side : Side) (t : Strictness) (literal : Value) :
    Attempt.Related (fun a b => b = a.opposite) (d.cut side t literal)
      (d.cut side.flip t.flip literal) := by
  have hcut := d.value_cut side t literal
  have hcut' := d.value_cut side.flip t.flip literal
  split at hcut
  next hl =>
    rw [if_pos hl] at hcut'
    exact .done hcut hcut' rfl
  next hl =>
    rw [if_neg hl] at hcut'
    split at hcut
    next f hp =>
      rw [hp] at hcut'
      exact .failed hcut hcut'
    next v hp =>
      rw [hp] at hcut'
      exact .done hcut hcut' rfl
    next v hp =>
      rw [hp] at hcut'
      dsimp only at hcut'
      split at hcut
      next hd =>
        rw [if_pos hd] at hcut'
        cases side <;> exact .done hcut hcut' rfl
      next hd =>
        rw [if_neg hd] at hcut'
        exact .failed hcut hcut'

variable {K : Type} [LinearOrder K] {σ : d.Scale K}

/-- Trees of opposed forms. -/
def Tree.Opposed (σ : d.Scale K) (whole : Prop) (t u : Tree) : Prop :=
  Form.Opposed whole (t.form σ) (u.form σ)

/-- What ends at a cut and what begins at its opposite share nothing and leave out only null. -/
theorem Tree.opposed_bounds {whole : Prop} {c : Cut} (hc : d.Upper c)
    (hfin : c.coordinate.isFinite) :
    Tree.Opposed σ whole (.leaf (.ofSpan d ⟨.negInfinity, c⟩))
      (.leaf (.ofSpan d ⟨c.opposite, .posInfinity⟩)) := by
  have hne : c ≠ .posInfinity := by
    rintro rfl
    cases hfin
  have hbelow : σ.extent ⟨.negInfinity, c⟩ = Set.Ico .aboveNull (σ.seam c) :=
    σ.extent_of_not_isAll (Span.isAll_of_isFinite (.inr hfin))
  have habove := (Domain.Scale.gap_spec (σ := σ) hc hne .posInfinity).2
  constructor
  · show Disjoint (σ.extent ⟨.negInfinity, c⟩) (σ.extent ⟨c.opposite, .posInfinity⟩)
    rw [hbelow, habove]
    exact Set.Ico_disjoint_Ico_same
  · rintro - x ⟨hx, hxt⟩
    show x ∈ σ.extent ⟨.negInfinity, c⟩ ∪ σ.extent ⟨c.opposite, .posInfinity⟩
    rw [hbelow, habove]
    rcases lt_or_ge x (σ.seam c) with hlt | hge
    · exact .inl ⟨hx, hlt⟩
    · exact .inr ⟨hge, hxt⟩

/-- A conjunction is opposed to the disjunction of opposed trees. -/
theorem Tree.opposed_node {whole : Prop} {ts us : List Tree}
    (h : List.Forall₂ (Tree.Opposed σ whole) ts us) :
    Tree.Opposed σ whole (.node d .intersection ts) (.node d .union us) := by
  rw [Tree.Opposed, Tree.form_node, Tree.form_node]
  apply Form.Opposed.intersection_union
  rw [List.forall₂_map_left_iff, List.forall₂_map_right_iff]
  exact h

namespace CompareOp

variable {whole : Prop} {literal : Value}

theorem related_bounds (hl : literal.isNull = false) (t : Strictness) :
    Attempt.Related (Tree.Opposed σ whole)
      (do return .leaf (← (Interval.unconstrained d).edit (.setUpper literal t)))
      (do return .leaf (← (Interval.unconstrained d).edit (.setLower literal t.flip))) := by
  apply Attempt.Related.bind (R := fun i j => ∃ c, d.Upper c ∧ c.coordinate.isFinite ∧
    i = .ofSpan d ⟨.negInfinity, c⟩ ∧ j = .ofSpan d ⟨c.opposite, .posInfinity⟩)
  · apply (d.related_cut .upper t literal).bind
    rintro c - hc - rfl
    exact .pure ⟨c, Domain.upper_cut hc, Domain.cut_finite hl hc, rfl, rfl⟩
  · rintro - - - - ⟨c, hc, hfin, rfl, rfl⟩
    exact .pure (Tree.opposed_bounds hc hfin)

theorem related_point (literal : Value) :
    Attempt.Related (Tree.Opposed σ whole) (eq.lower d literal) (ne.lower d literal) := by
  apply (Attempt.Related.refl (Interval.point d literal)).bind
  rintro i - - - rfl
  refine .pure ?_
  rw [Tree.Opposed, Tree.form_complement]
  exact .complement _

/-- A comparison and the opposite one lower alike, to opposed trees. -/
theorem related_lower_negate (hl : literal.isNull = false) (op : CompareOp) :
    Attempt.Related (Tree.Opposed σ whole) (op.lower d literal) (op.negate.lower d literal) := by
  cases op with
  | eq => exact related_point literal
  | ne => exact (related_point literal).symm Form.Opposed.symm
  | lt => exact related_bounds hl .opened
  | lte => exact related_bounds hl .closed
  | gt => exact (related_bounds hl .closed).symm Form.Opposed.symm
  | gte => exact (related_bounds hl .opened).symm Form.Opposed.symm

end CompareOp

/-! ### Predicates -/

namespace Predicate

/-- No literal in the list is null. -/
def NoNull (literals : List Value) : Prop := ∀ v ∈ literals, v.isNull = false

theorem related_lowerList (vs : List Value) :
    Attempt.Related (Tree.Opposed σ (NoNull vs)) (lowerList d vs) (lowerOutside d vs) := by
  unfold lowerOutside
  split
  next hnil =>
    obtain rfl := List.isEmpty_iff.1 hnil
    refine .done rfl rfl ?_
    rw [Tree.Opposed, Tree.form_unconstrained]
    exact .bot_left fun _ => Form.covers_top
  next =>
    rw [← bind_pure (lowerList d vs), bind_assoc]
    apply (Attempt.Related.refl (lowerList d vs)).bind
    rintro inside - - - rfl
    rw [pure_bind]
    split
    next hnull =>
      refine .pure (Form.Opposed.symm (.bot_left fun hw => ?_))
      obtain ⟨v, hv, hvn⟩ := List.any_eq_true.1 hnull
      exact absurd hvn (by simp [hw v hv])
    next =>
      refine .pure ?_
      rw [Tree.Opposed, Tree.form_complement]
      exact .complement _

mutual

/-- A predicate and its negation lower alike, to opposed trees. -/
theorem related_lower_negate (σ : d.Scale K) : ∀ p : Predicate,
    Attempt.Related (Tree.Opposed σ (NoNull p.literals)) (p.lower d) (p.negate.lower d)
  | always => by
    rw [negate, lower, lower]
    refine .pure (Form.Opposed.symm (.bot_left fun _ => ?_))
    exact Tree.form_unconstrained (σ := σ) d ▸ Form.covers_top
  | never => by
    rw [negate, lower, lower]
    refine .pure (.bot_left fun _ => ?_)
    exact Tree.form_unconstrained (σ := σ) d ▸ Form.covers_top
  | and ps => by
    rw [negate, lower, lower]
    apply (related_lowerAll_negateAll σ ps).bind
    rintro ts us - - h
    exact .pure (Tree.opposed_node h)
  | or ps => by
    rw [negate, lower, lower]
    apply (related_lowerAll_negateAll σ ps).bind
    rintro ts us - - h
    refine .pure (Form.Opposed.symm (Tree.opposed_node ?_))
    exact (h.imp fun _ _ hab => Form.Opposed.symm hab).flip
  | not p => by
    rw [negate, lower]
    exact (related_lower_negate σ p).symm Form.Opposed.symm
  | compare op v => by
    rw [negate, lower, lower]
    split
    next hv =>
      have hmem : v ∈ (compare op v).literals := List.mem_singleton_self v
      exact .pure (.bot_left fun hw => absurd hv (by simp [hw v hmem]))
    next hv => exact CompareOp.related_lower_negate (by simpa using hv) op
  | isIn vs => by
    rw [negate, lower, lower]
    exact related_lowerList vs
  | isNotIn vs => by
    rw [negate, lower, lower]
    exact (related_lowerList vs).symm Form.Opposed.symm
  | isNull => by
    rw [negate, lower, lower]
    refine .pure ?_
    rw [Tree.Opposed, Tree.form_complement]
    exact .complement _
  | isNotNull => by
    rw [negate, lower, lower]
    refine .pure (Form.Opposed.symm ?_)
    rw [Tree.form_complement]
    exact .complement _

theorem related_lowerAll_negateAll (σ : d.Scale K) : ∀ ps : List Predicate,
    Attempt.Related (List.Forall₂ (Tree.Opposed σ (NoNull (literalsAll ps)))) (lowerAll d ps)
      (lowerAll d (negateAll ps))
  | [] => by
    rw [negateAll, lowerAll]
    exact .pure .nil
  | p :: ps => by
    rw [negateAll, lowerAll, lowerAll]
    apply (related_lower_negate σ p).bind
    rintro t u - - htu
    apply (related_lowerAll_negateAll σ ps).bind
    rintro ts us - - h
    have hsplit : NoNull (literalsAll (p :: ps)) →
        NoNull p.literals ∧ NoNull (literalsAll ps) := List.forall_mem_append.1
    refine .pure (.cons (htu.mono fun hw => (hsplit hw).1) ?_)
    exact h.imp fun _ _ hab => hab.mono fun hw => (hsplit hw).2

end

/-- What a predicate and its negation lower to has nothing in common. If none of its literals is
null, the two leave out at most the null row, which they do unless one of them selects it. -/
theorem negation_partition (k : Scalar) {p : Predicate} {t : Tree}
    (h : (p.lower k.domain).run.value = .ok t) :
    ∃ u, (p.negate.lower k.domain).run.value = .ok u ∧
      (Tree.node k.domain .intersection [t, u]).EvaluatesTo [] ∧
      ((∀ v ∈ p.literals, v.isNull = false) →
        (Tree.node k.domain .union [t, u]).EvaluatesTo
          [if t.selects .null || u.selects .null then .all else .nonNull]) := by
  obtain ⟨K, _, σ, -⟩ := k.exists_exact
  obtain ⟨u, hu, hopposed⟩ := (related_lower_negate σ p).exists_right h
  exact ⟨u, hu, (whole_lower h).evaluatesTo_of_opposed (whole_lower hu) hopposed⟩

/-- Neither at least `2.25` nor outside of `4` nor a value. -/
def smallOrFourOrNull : Predicate :=
  .not (.and [.compare .gte (.decimal ⟨⟨225, 2, by decide, by decide⟩, false⟩),
    .isNotIn [.int 4], .isNotNull])

theorem negation_partition_smallOrFourOrNull :
    let d := Scalar.int.domain
    let below : Tree := .leaf (.ofSpan d ⟨.negInfinity, .finite (.int 3) .upper .opened⟩)
    let four : Tree := .node d .union [.leaf (.ofSpan d
      ⟨.finite (.int 4) .lower .closed, .finite (.int 4) .upper .closed⟩)]
    let t : Tree := .node d .union [below, four, .leaf (.null d)]
    (smallOrFourOrNull.lower d).run.value = .ok t ∧
      ∃ u, (smallOrFourOrNull.negate.lower d).run.value = .ok u ∧
        (Tree.node d .intersection [t, u]).EvaluatesTo [] ∧
        (Tree.node d .union [t, u]).EvaluatesTo
          [if t.selects .null || u.selects .null then .all else .nonNull] := by
  intro d below four t
  have h : (smallOrFourOrNull.lower d).run.value = .ok t := by
    simp only [smallOrFourOrNull, lower, negate, negateAll, lowerAll]
    rfl
  obtain ⟨u, hu, hnone, hall⟩ := negation_partition .int h
  refine ⟨h, u, hu, hnone, hall ?_⟩
  simp [smallOrFourOrNull, literals, literalsAll, Value.isNull]

end Predicate

end SearchArgument
