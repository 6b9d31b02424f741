import SearchArgument.Proofs.Tree.Agreement

/-! The laws of set operators. The forms of trees make a lattice, so over the scalar domains,
whose values have marks of their own, the laws of lattices hold of results as they stand. The
distributive laws, De Morgan's laws and the law of the double complement hold of the seams alone:
one side may begin at negative infinity where the other begins at `> null`, until both are
evaluated once more. -/

namespace SearchArgument

namespace Tree

variable {d : Domain} {K : Type} [LinearOrder K] {σ : d.Scale K} {op : SetOp} {ts us : List Tree}
  {t u v : Tree}

/-! ### Lattice laws -/

theorem Regrouped.agree (hσ : σ.Exact) (hop : op ≠ .complement) (h : Regrouped d op ts us)
    (hts : ∀ t ∈ ts, t.Whole d) : (node d op ts).Agree (node d op us) := by
  have hus := (h.whole_iff hop).1 hts
  rw [Whole.agree_iff hσ ((whole_node_iff hop).2 hts) ((whole_node_iff hop).2 hus), form_node,
    form_node]
  exact h.form_eq σ hop

theorem Whole.singleton_agree (hσ : σ.Exact) (hop : op ≠ .complement) (ht : t.Whole d) :
    (node d op [t]).Agree t := by
  rw [Whole.agree_iff hσ ((whole_node_iff hop).2 (List.forall_mem_singleton.2 ht)) ht, form_node,
    SetOp.form_of_ne hop]
  exact SetOp.collect_singleton op _

theorem Whole.union_agree_iff (hσ : σ.Exact) (ht : t.Whole d) (hu : u.Whole d) (hv : v.Whole d) :
    (node d .union [t, u]).Agree v ↔ t.form σ ⊔ u.form σ = v.form σ := by
  rw [Whole.agree_iff hσ (ht.union hu) hv, form_union]

theorem Whole.intersection_agree_iff (hσ : σ.Exact) (ht : t.Whole d) (hu : u.Whole d)
    (hv : v.Whole d) :
    (node d .intersection [t, u]).Agree v ↔ t.form σ ⊓ u.form σ = v.form σ := by
  rw [Whole.agree_iff hσ (ht.intersection hu) hv, form_intersection]

/-- Unions and intersections keep their results under any order and grouping of their operands.
They are idempotent, absorb each other, and have the empty and the unconstrained term for neutral
and absorbing operands. -/
theorem lattice_laws (k : Scalar) :
    (∀ {op : SetOp} {ts us : List Tree}, op ≠ .complement → Regrouped k.domain op ts us →
      (∀ t ∈ ts, t.Built (· = k.domain) ∧ t.Evaluates) →
      (node k.domain op ts).Agree (node k.domain op us)) ∧
    ∀ {a b : Tree}, a.Built (· = k.domain) → b.Built (· = k.domain) → a.Evaluates →
      b.Evaluates →
      (node k.domain .union [a]).Agree a ∧
      (node k.domain .intersection [a]).Agree a ∧
      (node k.domain .union [a, a]).Agree a ∧
      (node k.domain .intersection [a, a]).Agree a ∧
      (node k.domain .union [a, leaf (.empty k.domain)]).Agree a ∧
      (node k.domain .intersection [a, leaf (.unconstrained k.domain)]).Agree a ∧
      (node k.domain .union [a, node k.domain .intersection [a, b]]).Agree a ∧
      (node k.domain .intersection [a, node k.domain .union [a, b]]).Agree a ∧
      (node k.domain .union [a, leaf (.unconstrained k.domain)]).Agree
        (leaf (.unconstrained k.domain)) ∧
      (node k.domain .intersection [a, leaf (.empty k.domain)]).Agree
        (leaf (.empty k.domain)) := by
  obtain ⟨K, _, σ, hexact⟩ := k.exists_exact
  refine ⟨fun {op ts us} hop h hts => ?_, fun {a b} ha hb ha' hb' => ?_⟩
  · exact h.agree hexact hop fun t ht => whole_iff.2 (hts t ht)
  have ha := whole_iff.2 ⟨ha, ha'⟩
  have hb := whole_iff.2 ⟨hb, hb'⟩
  have hempty : (leaf (.empty k.domain)).Whole k.domain := whole_leaf (Interval.built_empty _)
  have hall : (leaf (.unconstrained k.domain)).Whole k.domain :=
    whole_leaf (Interval.built_unconstrained _)
  refine ⟨ha.singleton_agree hexact nofun, ha.singleton_agree hexact nofun,
    ?_, ?_, ?_, ?_, ?_, ?_, ?_, ?_⟩
  · exact (ha.union_agree_iff hexact ha ha).2 (sup_idem _)
  · exact (ha.intersection_agree_iff hexact ha ha).2 (inf_idem _)
  · exact (ha.union_agree_iff hexact hempty ha).2 (sup_bot_eq _)
  · exact (ha.intersection_agree_iff hexact hall ha).2 (by rw [form_unconstrained, inf_top_eq])
  · apply (ha.union_agree_iff hexact (ha.intersection hb) ha).2
    rw [form_intersection, sup_inf_self]
  · apply (ha.intersection_agree_iff hexact (ha.union hb) ha).2
    rw [form_union, inf_sup_self]
  · exact (ha.union_agree_iff hexact hall hall).2 (by rw [form_unconstrained, sup_top_eq])
  · exact (ha.intersection_agree_iff hexact hempty hempty).2 (inf_bot_eq _)

/-- The integers below five. -/
def belowFive : Tree :=
  leaf (.ofSpan Scalar.int.domain ⟨.negInfinity, .finite (.int 5) .upper .opened⟩)

/-- The integers from three on. -/
def fromThree : Tree :=
  leaf (.ofSpan Scalar.int.domain ⟨.finite (.int 3) .lower .closed, .posInfinity⟩)

/-- The integers below three, as what `fromThree` leaves. -/
def belowThree : Tree := node Scalar.int.domain .complement [fromThree]

theorem whole_belowFive : belowFive.Whole Scalar.int.domain :=
  whole_leaf (Interval.built_edit (.setUpper (.int 5) .opened) trivial rfl)

theorem whole_fromThree : fromThree.Whole Scalar.int.domain :=
  whole_leaf (Interval.built_edit (.setLower (.int 3) .closed) trivial rfl)

theorem whole_belowThree : belowThree.Whole Scalar.int.domain :=
  whole_fromThree.complement

theorem lattice_laws_belowThree :
    (node Scalar.int.domain .union [belowFive, belowThree, fromThree]).Agree
      (node Scalar.int.domain .union
        [fromThree, node Scalar.int.domain .union [belowFive, belowThree]]) ∧
    (node Scalar.int.domain .intersection
      [belowThree, node Scalar.int.domain .union [belowThree, belowFive]]).Agree belowThree := by
  obtain ⟨hregroup, hlaws⟩ := lattice_laws .int
  have hfive := whole_iff.1 whole_belowFive
  have hfrom := whole_iff.1 whole_fromThree
  have hthree := whole_iff.1 whole_belowThree
  obtain ⟨-, -, -, -, -, -, -, habsorb, -⟩ := hlaws hthree.1 hfive.1 hthree.2 hfive.2
  have hregrouped : Regrouped Scalar.int.domain .union [belowFive, belowThree, fromThree]
      [fromThree, node Scalar.int.domain .union [belowFive, belowThree]] :=
    .trans (.group [belowFive, belowThree] [fromThree]) (.perm (.swap _ _ _))
  exact ⟨hregroup nofun hregrouped (by simp [hfive, hfrom, hthree]), habsorb⟩

/-! ### Distributive laws -/

/-- Unions and intersections distribute over each other, up to the spelling that a second
evaluation settles. -/
theorem distributive_laws (k : Scalar) {a b c : Tree} (ha : a.Built (· = k.domain))
    (hb : b.Built (· = k.domain)) (hc : c.Built (· = k.domain)) (ha' : a.Evaluates)
    (hb' : b.Evaluates) (hc' : c.Evaluates) :
    (node k.domain .intersection [a, node k.domain .union [b, c]]).AgreeSettled
      (node k.domain .union
        [node k.domain .intersection [a, b], node k.domain .intersection [a, c]]) ∧
    (node k.domain .union [a, node k.domain .intersection [b, c]]).AgreeSettled
      (node k.domain .intersection
        [node k.domain .union [a, b], node k.domain .union [a, c]]) := by
  obtain ⟨K, _, σ, hexact⟩ := k.exists_exact
  have ha := whole_iff.2 ⟨ha, ha'⟩
  have hb := whole_iff.2 ⟨hb, hb'⟩
  have hc := whole_iff.2 ⟨hc, hc'⟩
  constructor
  · rw [Whole.agreeSettled_iff hexact (ha.intersection (hb.union hc))
      ((ha.intersection hb).union (ha.intersection hc))]
    simp only [form_union, form_intersection, Form.inf_seams, Form.sup_seams]
    exact Set.inter_union_distrib_left _ _ _
  · rw [Whole.agreeSettled_iff hexact (ha.union (hb.intersection hc))
      ((ha.union hb).intersection (ha.union hc))]
    simp only [form_union, form_intersection, Form.inf_seams, Form.sup_seams]
    exact Set.union_inter_distrib_left _ _ _

theorem distributive_laws_belowFive :
    let joined := node Scalar.int.domain .intersection
      [belowFive, node Scalar.int.domain .union [belowThree, fromThree]]
    let parts := node Scalar.int.domain .union
      [node Scalar.int.domain .intersection [belowFive, belowThree],
        node Scalar.int.domain .intersection [belowFive, fromThree]]
    joined.EvaluatesTo [⟨.null .lower .opened, .finite (.int 5) .upper .opened⟩] ∧
      parts.EvaluatesTo [⟨.negInfinity, .finite (.int 5) .upper .opened⟩] ∧
      joined.AgreeSettled parts := by
  have hfive := whole_iff.1 whole_belowFive
  have hfrom := whole_iff.1 whole_fromThree
  have hthree := whole_iff.1 whole_belowThree
  refine ⟨⟨_, rfl, rfl⟩, ⟨_, rfl, rfl⟩, ?_⟩
  exact (distributive_laws .int hfive.1 hthree.1 hfrom.1 hfive.2 hthree.2 hfrom.2).1

/-! ### Duality -/

/-- De Morgan's laws and the law of the double complement. Where an operand does not evaluate,
neither side of a law does, for the same reason. -/
theorem complement_laws (k : Scalar) {a b : Tree} (ha : a.Built (· = k.domain))
    (hb : b.Built (· = k.domain)) :
    let neg (t : Tree) : Tree := node k.domain .complement [t]
    let join (t u : Tree) : Tree := node k.domain .union [t, u]
    let meet (t u : Tree) : Tree := node k.domain .intersection [t, u]
    let empty : Tree := leaf (.empty k.domain)
    (a.Evaluates → b.Evaluates →
      (neg (join a b)).AgreeSettled (meet (neg a) (neg b)) ∧
      (neg (meet a b)).AgreeSettled (join (neg a) (neg b)) ∧
      (a.hasNullBound = false → b.hasNullBound = false →
        (neg (join a b)).Agree (meet (neg a) (neg b)))) ∧
    (a.Evaluates → (neg (neg a)).AgreeSettled (meet a (neg empty))) ∧
    (¬a.Evaluates ∨ ¬b.Evaluates →
      ∀ t ∈ [neg (join a b), meet (neg a) (neg b), neg (meet a b), join (neg a) (neg b)],
        t.evaluate.run.value = .error .childlessComplement) ∧
    (¬a.Evaluates → ∀ t ∈ [neg (neg a), meet a (neg empty)],
      t.evaluate.run.value = .error .childlessComplement) := by
  intro neg join meet empty
  obtain ⟨K, _, σ, hexact⟩ := k.exists_exact
  have hneg : ∀ {t}, ¬t.Evaluates → ¬(neg t).Evaluates :=
    not_evaluates_node (List.mem_singleton_self _)
  refine ⟨fun ha' hb' => ?_, fun ha' => ?_, fun h => ?_, fun h => ?_⟩
  · have ha := whole_iff.2 ⟨ha, ha'⟩
    have hb := whole_iff.2 ⟨hb, hb'⟩
    have hjoin := (ha.union hb).complement
    have hmeet := (ha.intersection hb).complement
    refine ⟨?_, ?_, fun hna hnb => ?_⟩
    · apply (Whole.agreeSettled_iff hexact hjoin (ha.complement.intersection hb.complement)).2
      simp only [form_complement, form_union, form_intersection]
      exact Form.complement_sup_seams _ _
    · apply (Whole.agreeSettled_iff hexact hmeet (ha.complement.union hb.complement)).2
      simp only [form_complement, form_union, form_intersection]
      exact Form.complement_inf_seams _ _
    · apply (Whole.agree_iff hexact hjoin (ha.complement.intersection hb.complement)).2
      simp only [form_complement, form_union, form_intersection]
      exact Form.complement_sup (ha.sound.nullFree hna) (hb.sound.nullFree hnb)
  · have ha := whole_iff.2 ⟨ha, ha'⟩
    have hempty : empty.Whole k.domain := whole_leaf (Interval.built_empty _)
    apply (Whole.agreeSettled_iff hexact ha.complement.complement
      (ha.intersection hempty.complement)).2
    simp only [form_complement, form_intersection, empty, form_empty]
    exact Form.complement_complement_seams _
  · simp only [← not_evaluates_iff, List.forall_mem_cons]
    have hparts := h.imp hneg hneg
    exact ⟨hneg (not_evaluates_pair h), not_evaluates_pair hparts, hneg (not_evaluates_pair h),
      not_evaluates_pair hparts, nofun⟩
  · simp only [← not_evaluates_iff, List.forall_mem_cons]
    exact ⟨hneg (hneg h), not_evaluates_pair (.inl h), nofun⟩

/-- With a null bound the first law takes a second evaluation, without one it does not. -/
theorem complement_laws_fromThree :
    let fromThreeOrNull := node Scalar.int.domain .union
      [leaf (.null Scalar.int.domain), fromThree]
    let neitherNor := node Scalar.int.domain .intersection
      [node Scalar.int.domain .complement [leaf (.null Scalar.int.domain)], belowThree]
    (node Scalar.int.domain .complement [fromThreeOrNull]).EvaluatesTo
        [⟨.null .lower .opened, .finite (.int 3) .upper .opened⟩] ∧
      neitherNor.EvaluatesTo [⟨.negInfinity, .finite (.int 3) .upper .opened⟩] ∧
      (node Scalar.int.domain .complement [fromThreeOrNull]).AgreeSettled neitherNor ∧
      (node Scalar.int.domain .complement
        [node Scalar.int.domain .union [fromThree, belowFive]]).Agree
        (node Scalar.int.domain .intersection
          [belowThree, node Scalar.int.domain .complement [belowFive]]) := by
  have hfrom := whole_iff.1 whole_fromThree
  have hfive := whole_iff.1 whole_belowFive
  have hnull := whole_iff.1 (whole_leaf (Interval.built_null Scalar.int.domain))
  refine ⟨⟨_, rfl, rfl⟩, ⟨_, rfl, rfl⟩, ?_, ?_⟩
  · exact ((complement_laws .int hnull.1 hfrom.1).1 hnull.2 hfrom.2).1
  · exact ((complement_laws .int hfrom.1 hfive.1).1 hfrom.2 hfive.2).2.2 rfl rfl

/-! ### Differences -/

/-- Two trees come to the same, once their results are evaluated again, exactly if neither leaves
anything of the other and both or none of their results contain null. -/
theorem agreeSettled_iff_no_difference (k : Scalar) {a b : Tree} {s s' : RangeSet}
    (ha : a.Built (· = k.domain)) (hb : b.Built (· = k.domain))
    (h : a.evaluate.run.value = .ok s) (h' : b.evaluate.run.value = .ok s') :
    a.AgreeSettled b ↔
      (node k.domain .intersection [a, node k.domain .complement [b]]).EvaluatesTo [] ∧
      (node k.domain .intersection [b, node k.domain .complement [a]]).EvaluatesTo [] ∧
      s.contains .null = s'.contains .null := by
  obtain ⟨K, _, σ, hexact⟩ := k.exists_exact
  have ha : a.Whole k.domain := whole_iff.2 ⟨ha, s, h⟩
  have hb : b.Whole k.domain := whole_iff.2 ⟨hb, s', h'⟩
  rw [Whole.agreeSettled_iff hexact ha hb, Form.seams_eq_iff,
    (ha.intersection hb.complement).evaluatesTo_nil_iff σ,
    (hb.intersection ha.complement).evaluatesTo_nil_iff σ, Bool.eq_iff_iff,
    ha.contains_null_iff σ h, hb.contains_null_iff σ h']
  simp only [form_intersection, form_complement]

/-- The integers below three, as one term. -/
def underThree : Tree :=
  leaf (.ofSpan Scalar.int.domain ⟨.negInfinity, .finite (.int 3) .upper .opened⟩)

theorem built_underThree : underThree.Built (· = Scalar.int.domain) :=
  .leaf (Interval.built_edit (.setUpper (.int 3) .opened) trivial rfl)

theorem agreeSettled_iff_no_difference_underThree :
    underThree.EvaluatesTo [⟨.null .lower .opened, .finite (.int 3) .upper .opened⟩] ∧
      belowThree.EvaluatesTo [⟨.negInfinity, .finite (.int 3) .upper .opened⟩] ∧
      underThree.AgreeSettled belowThree := by
  have hleaf : underThree.evaluate.run.value = .ok ⟨Scalar.int.domain,
    [⟨.null .lower .opened, .finite (.int 3) .upper .opened⟩]⟩ := rfl
  have hthree : belowThree.evaluate.run.value = .ok ⟨Scalar.int.domain,
    [⟨.negInfinity, .finite (.int 3) .upper .opened⟩]⟩ := rfl
  refine ⟨⟨_, hleaf, rfl⟩, ⟨_, hthree, rfl⟩, ?_⟩
  apply (agreeSettled_iff_no_difference .int built_underThree whole_belowThree.built hleaf hthree).2
  exact ⟨⟨⟨_, []⟩, rfl, rfl⟩, ⟨⟨_, []⟩, rfl, rfl⟩, rfl⟩

/-- No integer lies between three and four, but the term between them leaves a difference to the
empty one. -/
example :
    let between := leaf (.ofSpan Scalar.int.domain
      ⟨.finite (.int 3) .lower .opened, .finite (.int 4) .upper .opened⟩)
    ¬(node Scalar.int.domain .intersection
      [between, node Scalar.int.domain .complement [leaf (.empty Scalar.int.domain)]]).EvaluatesTo
        [] := by
  rintro between ⟨s, hs, he⟩
  cases hs
  cases he

end Tree

end SearchArgument
