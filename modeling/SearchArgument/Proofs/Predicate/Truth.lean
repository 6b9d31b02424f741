import SearchArgument.Proofs.Predicate.Comparison
import SearchArgument.Proofs.Tree.Evaluation

/-! Lowered predicates select the rows of which the predicate is true. Where a predicate is
unknown its negation is unknown as well, so negations may be pushed inwards, and the two-valued
trees only ever say where a predicate is true. -/

namespace SearchArgument

variable {d : Domain} {row : Value}

/-! ### Three values -/

namespace Truth

theorem not_not (a : Truth) : a.not.not = a := by cases a <;> rfl

theorem not_and (a b : Truth) : (a.and b).not = a.not.or b.not := by cases a <;> cases b <;> rfl

theorem not_or (a b : Truth) : (a.or b).not = a.not.and b.not := by cases a <;> cases b <;> rfl

theorem not_ofBool (b : Bool) : (ofBool b).not = ofBool !b := by cases b <;> rfl

@[simp] theorem ofBool_eq_yes {b : Bool} : ofBool b = yes ↔ b := by cases b <;> decide

theorem and_eq_yes {a b : Truth} : a.and b = yes ↔ a = yes ∧ b = yes := by
  cases a <;> cases b <;> decide

theorem or_eq_yes {a b : Truth} : a.or b = yes ↔ a = yes ∨ b = yes := by
  cases a <;> cases b <;> decide

theorem ofCompare_negate (op : CompareOp) (row literal : Value) :
    ofCompare op.negate row literal = (ofCompare op row literal).not := by
  unfold ofCompare
  split
  · rfl
  · rw [not_ofBool]
    congr 1
    cases op <;> cases row.compareExact literal <;> rfl

theorem ofCompare_eq_yes {op : CompareOp} {literal : Value} : ofCompare op row literal = yes ↔
    row.isNull = false ∧ literal.isNull = false ∧ op.holds (row.compareExact literal) := by
  unfold ofCompare
  cases row.isNull <;> cases literal.isNull <;> simp

theorem not_eq_yes {a : Truth} : a.not = yes ↔ a = no := by cases a <;> decide

/-- A row is in a list only by a hit. -/
theorem ofMember_eq_yes {vs : List Value} : ofMember row vs = yes ↔
    row.isNull = false ∧ ∃ v ∈ vs, v.isNull = false ∧ row.compareExact v = .eq := by
  have hany : (vs.any fun v => !v.isNull && row.compareExact v == .eq) ↔
      ∃ v ∈ vs, v.isNull = false ∧ row.compareExact v = .eq := by simp
  rw [← hany]
  unfold ofMember
  cases vs with
  | nil => simp
  | cons v vs =>
    rw [if_neg (by simp)]
    cases row.isNull with
    | true => simp
    | false =>
      rw [if_neg (by simp)]
      split
      next hhit => simp only [hhit, and_self]
      next hhit => split <;> simp only [hhit, reduceCtorEq, and_false]

/-- A row is outside a list if that is empty, or else if nothing in it is null or a hit. -/
theorem ofMember_eq_no {vs : List Value} : ofMember row vs = no ↔ vs = [] ∨
    row.isNull = false ∧ vs.any (·.isNull) = false ∧ ofMember row vs ≠ yes := by
  unfold ofMember
  cases vs with
  | nil => simp
  | cons v vs =>
    rw [if_neg (by simp)]
    cases row.isNull with
    | true => simp
    | false =>
      rw [if_neg (by simp)]
      split
      next => simp
      next =>
        split
        next hnull => simp only [hnull, reduceCtorEq, false_and, and_false, or_false]
        next hnull => simpa using hnull

end Truth

namespace Predicate

mutual

theorem truth_negate (row : Value) : ∀ p : Predicate, p.negate.truth row = (p.truth row).not
  | always => rfl
  | never => rfl
  | and ps => truthOfAny_negateAll row ps
  | or ps => truthOfAll_negateAll row ps
  | not p => (Truth.not_not _).symm
  | compare op v => Truth.ofCompare_negate op row v
  | isIn vs => rfl
  | isNotIn vs => (Truth.not_not _).symm
  | isNull => (Truth.not_ofBool _).symm
  | isNotNull => by
    rw [negate, truth, truth, Truth.not_ofBool, Bool.not_not]

theorem truthOfAny_negateAll (row : Value) : ∀ ps : List Predicate,
    truthOfAny row (negateAll ps) = (truthOfAll row ps).not
  | [] => rfl
  | p :: ps => by
    rw [negateAll, truthOfAny, truthOfAll, truth_negate row p, truthOfAny_negateAll row ps,
      Truth.not_and]

theorem truthOfAll_negateAll (row : Value) : ∀ ps : List Predicate,
    truthOfAll row (negateAll ps) = (truthOfAny row ps).not
  | [] => rfl
  | p :: ps => by
    rw [negateAll, truthOfAll, truthOfAny, truth_negate row p, truthOfAll_negateAll row ps,
      Truth.not_or]

end

theorem truthOfAll_eq_yes {ps : List Predicate} :
    truthOfAll row ps = .yes ↔ ∀ p ∈ ps, p.truth row = .yes := by
  induction ps with
  | nil => simp [truthOfAll]
  | cons p ps ih => rw [truthOfAll, Truth.and_eq_yes, ih, List.forall_mem_cons]

theorem truthOfAny_eq_yes {ps : List Predicate} :
    truthOfAny row ps = .yes ↔ ∃ p ∈ ps, p.truth row = .yes := by
  induction ps with
  | nil => simp [truthOfAny]
  | cons p ps ih => rw [truthOfAny, Truth.or_eq_yes, ih, List.exists_mem_cons_iff]

end Predicate

/-! ### Rows -/

namespace Interval

theorem contains_empty (d : Domain) (probe : Value) : (empty d).contains probe = false := by
  unfold contains
  split <;> rfl

theorem contains_unconstrained (hp : (d.point? row).isSome) :
    (unconstrained d).contains row := by
  obtain ⟨p, hp⟩ := Option.isSome_iff_exists.1 hp
  simp [contains, unconstrained, ofSpan, hp, Span.covers, Span.isAll, Span.all]

theorem contains_null (hp : (d.point? row).isSome) : (null d).contains row = row.isNull := by
  obtain ⟨p, hp⟩ := Option.isSome_iff_exists.1 hp
  have hcontains : (null d).contains row = Span.nullPoint.covers d.compare p := by
    simp [contains, null, hp]
  rcases Domain.point?_eq_some.1 hp with ⟨hn, rfl⟩ | ⟨hn, r, -, rfl⟩
  · rw [hcontains, hn]
    rfl
  · rw [hcontains, hn]
    rfl

end Interval

namespace Predicate

section

variable {ps : List Predicate} {ts : List Tree}
  (hps : ∀ p ∈ ps, ∀ {t}, (p.lower d).run.value = .ok t → (t.selects row ↔ p.truth row = .yes))

include hps

theorem allSelect_of_lowerAll (h : (lowerAll d ps).run.value = .ok ts) :
    Tree.allSelect row ts ↔ truthOfAll row ps = .yes := by
  obtain ⟨hleft, hright⟩ := mem_of_lowerAll h
  rw [Tree.allSelect_eq_all, List.all_eq_true, truthOfAll_eq_yes]
  constructor
  · intro hall p hp
    obtain ⟨t, ht, hpt⟩ := hleft p hp
    exact (hps p hp hpt).1 (hall t ht)
  · intro hall t ht
    obtain ⟨p, hp, hpt⟩ := hright t ht
    exact (hps p hp hpt).2 (hall p hp)

theorem anySelects_of_lowerAll (h : (lowerAll d ps).run.value = .ok ts) :
    Tree.anySelects row ts ↔ truthOfAny row ps = .yes := by
  obtain ⟨hleft, hright⟩ := mem_of_lowerAll h
  rw [Tree.anySelects_eq_any, List.any_eq_true, truthOfAny_eq_yes]
  constructor
  · rintro ⟨t, ht, hselects⟩
    obtain ⟨p, hp, hpt⟩ := hright t ht
    exact ⟨p, hp, (hps p hp hpt).1 hselects⟩
  · rintro ⟨p, hp, htrue⟩
    obtain ⟨t, ht, hpt⟩ := hleft p hp
    exact ⟨t, ht, (hps p hp hpt).2 htrue⟩

end

section

variable (hd : d.Ordered) (hf : d.Faithful) (hp : (d.point? row).isSome)

include hd hf hp

theorem selects_lowerList {vs : List Value} {t : Tree}
    (h : (lowerList d vs).run.value = .ok t) : t.selects row ↔ Truth.ofMember row vs = .yes := by
  obtain ⟨is, his, rfl⟩ := lowerList_eq_ok.1 h
  obtain ⟨hleft, hright⟩ := Attempt.mem_of_mapM his
  have hpoint : ∀ {v i}, v.isNull = false → (Interval.point d v).run.value = .ok i →
      (i.contains row ↔ row.isNull = false ∧ row.compareExact v = .eq) := by
    intro v i hv hi
    have hchange : ((Interval.unconstrained d).edit (CompareOp.eq.change v)).run.value = .ok i := hi
    rw [CompareOp.contains_change hd hf hv hp hchange]
    simp [CompareOp.holds]
  have hselects : (Tree.node d .union (is.map .leaf)).selects row ↔
      ∃ i ∈ is, i.contains row := by
    simp [Tree.selects, Tree.anySelects_eq_any]
  rw [hselects, Truth.ofMember_eq_yes]
  constructor
  · rintro ⟨i, hi, hc⟩
    obtain ⟨v, hv, hvi⟩ := hright i hi
    obtain ⟨hv, hvn⟩ := List.mem_filter.1 hv
    have hvn : v.isNull = false := by simpa using hvn
    obtain ⟨hn, he⟩ := (hpoint hvn hvi).1 hc
    exact ⟨hn, v, hv, hvn, he⟩
  · rintro ⟨hn, v, hv, hvn, he⟩
    obtain ⟨i, hi, hvi⟩ := hleft v (List.mem_filter.2 ⟨hv, by simp [hvn]⟩)
    exact ⟨i, hi, (hpoint hvn hvi).2 ⟨hn, he⟩⟩

theorem selects_lowerOutside {vs : List Value} {t : Tree}
    (h : (lowerOutside d vs).run.value = .ok t) :
    t.selects row ↔ (Truth.ofMember row vs).not = .yes := by
  rw [Truth.not_eq_yes, Truth.ofMember_eq_no]
  rw [lowerOutside_eq_ok] at h
  split at h
  next hnil =>
    subst h
    exact iff_of_true (Interval.contains_unconstrained hp) (.inl (List.isEmpty_iff.1 hnil))
  next hnil =>
    obtain ⟨inside, hinside, rfl⟩ := h
    have hselects := selects_lowerList hd hf hp hinside
    have hvs : vs ≠ [] := fun he => hnil (by simp [he])
    split
    next hnull => simp [Tree.selects, Interval.contains_empty, hvs, hnull]
    next hnull => simp [Tree.selects, Tree.anySelects, hp, hvs, hnull, ← hselects]

/-- The tree of a predicate selects a row exactly if the predicate is true of it. -/
theorem selects_lower {p : Predicate} {t : Tree} (h : (p.lower d).run.value = .ok t) :
    t.selects row ↔ p.truth row = .yes := by
  induction p using lowering_induction generalizing t with
  | always =>
    rw [lower] at h
    cases h
    exact iff_of_true (Interval.contains_unconstrained hp) rfl
  | never =>
    rw [lower] at h
    cases h
    simp [Tree.selects, Interval.contains_empty, truth]
  | and ps ih =>
    obtain ⟨ts, hts, rfl⟩ := lower_and_eq_ok.1 h
    rw [Tree.selects, hp, Bool.true_and, truth]
    exact allSelect_of_lowerAll ih hts
  | or ps ih =>
    obtain ⟨ts, hts, rfl⟩ := lower_or_eq_ok.1 h
    rw [Tree.selects, truth]
    exact anySelects_of_lowerAll ih hts
  | not p ih =>
    rw [lower] at h
    rw [ih h, truth_negate, truth]
  | compare op v =>
    rw [lower] at h
    rw [truth, Truth.ofCompare_eq_yes]
    split at h
    next hv =>
      cases h
      simp [Tree.selects, Interval.contains_empty, hv]
    next hv =>
      have hv : v.isNull = false := by simpa using hv
      rw [CompareOp.selects_lower hd hf hv hp h, and_iff_right hv]
  | isIn vs =>
    rw [lower] at h
    exact selects_lowerList hd hf hp h
  | isNotIn vs =>
    rw [lower] at h
    exact selects_lowerOutside hd hf hp h
  | isNull =>
    rw [lower] at h
    cases h
    rw [Tree.selects, Interval.contains_null hp, truth, Truth.ofBool_eq_yes]
  | isNotNull =>
    rw [lower] at h
    cases h
    rw [truth, Truth.ofBool_eq_yes, Tree.selects, Tree.anySelects, Tree.selects,
      Interval.contains_null hp, hp]
    cases row.isNull <;> simp [Tree.anySelects]

end

/-- Lowering over a scalar domain matches exactly the rows of which the predicate is true. -/
theorem lowering_matches_true_rows {s : Scalar} {p : Predicate} {t : Tree}
    (h : (p.lower s.domain).run.value = .ok t) :
    ∃ r, t.evaluate.run.value = .ok r ∧ ∀ row : Value,
      (row.isNull ∨ ∃ w, s.domain.place row = .ok (.member w)) →
        (r.contains row ↔ p.truth row = .yes) := by
  obtain ⟨hbuilt, hbare⟩ := whole_lower h
  obtain ⟨r, hr, hselects⟩ := Tree.exists_evaluate s.ordered hbuilt hbare
  refine ⟨r, hr, fun row hrow => ?_⟩
  have hp : (s.domain.point? row).isSome := by
    cases hn : row.isNull with
    | true => rw [Domain.point?_eq_some.2 (.inl ⟨hn, rfl⟩)]; rfl
    | false =>
      obtain ⟨w, hw⟩ := hrow.resolve_left (by simp [hn])
      rw [Domain.point?_eq_some.2 (.inr ⟨hn, w, hw, rfl⟩)]
      rfl
  rw [hselects row, selects_lower s.ordered s.faithful hp h]

/-- Neither at least `2.5` nor outside of `4` and null, over the integers. -/
def smallOrFour : Predicate :=
  .not (.and [.compare .gte (.decimal ⟨⟨25, 1, by decide, by decide⟩, false⟩),
    .isNotIn [.int 4, .null]])

theorem lowering_matches_true_rows_smallOrFour :
    let d := Scalar.int.domain
    let t : Tree := .node d .union
      [.leaf (.ofSpan d ⟨.negInfinity, .finite (.int 3) .upper .opened⟩),
        .node d .union [.leaf (.ofSpan d
          ⟨.finite (.int 4) .lower .closed, .finite (.int 4) .upper .closed⟩)]]
    (smallOrFour.lower d).run.value = .ok t ∧
      ∃ r, t.evaluate.run.value = .ok r ∧ ∀ row : Value,
        (row.isNull ∨ ∃ w, d.place row = .ok (.member w)) →
          (r.contains row ↔ smallOrFour.truth row = .yes) := by
  intro d t
  have h : (smallOrFour.lower d).run.value = .ok t := by
    simp only [smallOrFour, lower, negate, negateAll, lowerAll]
    rfl
  exact ⟨h, lowering_matches_true_rows h⟩

end Predicate

end SearchArgument
