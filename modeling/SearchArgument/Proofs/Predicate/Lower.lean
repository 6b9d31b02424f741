import SearchArgument.Predicate.Lower
import SearchArgument.Proofs.Tree.Operands

/-! The trees of lowered predicates. They are built over the domain of the lowering, with a child
below every complement, so each of them evaluates. -/

namespace SearchArgument

variable {d : Domain}

/-- In a list of attempts that succeed, results and arguments belong to each other. -/
theorem Attempt.mem_of_mapM {α β : Type} {f : α → Attempt β} {as : List α} {bs : List β}
    (h : (as.mapM f).run.value = .ok bs) :
    (∀ a ∈ as, ∃ b ∈ bs, (f a).run.value = .ok b) ∧
      ∀ b ∈ bs, ∃ a ∈ as, (f a).run.value = .ok b := by
  induction as generalizing bs with
  | nil =>
    cases h
    exact ⟨by simp, by simp⟩
  | cons a as ih =>
    rw [List.mapM_cons] at h
    obtain ⟨b, hb, h⟩ := Attempt.bind_eq_ok.1 h
    obtain ⟨bs', hbs, h⟩ := Attempt.bind_eq_ok.1 h
    cases h
    obtain ⟨hleft, hright⟩ := ih hbs
    constructor
    · refine List.forall_mem_cons.2 ⟨⟨b, List.mem_cons_self, hb⟩, fun x hx => ?_⟩
      obtain ⟨y, hy, hxy⟩ := hleft x hx
      exact ⟨y, List.mem_cons_of_mem _ hy, hxy⟩
    · refine List.forall_mem_cons.2 ⟨⟨a, List.mem_cons_self, hb⟩, fun y hy => ?_⟩
      obtain ⟨x, hx, hxy⟩ := hright y hy
      exact ⟨x, List.mem_cons_of_mem _ hx, hxy⟩

namespace CompareOp

/-- The edit of the unconstrained term that bounds it by a comparison. -/
def change (literal : Value) : CompareOp → Interval.Edit
  | eq | ne => .setPoint literal
  | lt => .setUpper literal .opened
  | lte => .setUpper literal .closed
  | gt => .setLower literal .opened
  | gte => .setLower literal .closed

theorem lower_eq_ok {op : CompareOp} {v : Value} {t : Tree} :
    (op.lower d v).run.value = .ok t ↔
      ∃ i, ((Interval.unconstrained d).edit (op.change v)).run.value = .ok i ∧
        t = if op = .ne then .node d .complement [.leaf i] else .leaf i := by
  cases op <;>
    simp only [lower, change, Interval.point, Attempt.bind_eq_ok, Attempt.value_pure,
      Except.ok.injEq, eq_comm (b := t), reduceCtorEq, ↓reduceIte]

theorem whole_lower {op : CompareOp} {v : Value} {t : Tree}
    (h : (op.lower d v).run.value = .ok t) : t.Whole d := by
  obtain ⟨i, hi, rfl⟩ := lower_eq_ok.1 h
  have hleaf := Tree.whole_leaf (Interval.built_edit _ (by cases op <;> trivial) hi)
  split
  · exact Tree.whole_node (List.forall_mem_singleton.2 hleaf) fun _ => rfl
  · exact hleaf

end CompareOp

namespace Predicate

/-- Induction along lowering, which goes from a negation to what it negates to. -/
theorem lowering_induction {motive : Predicate → Prop} (always : motive .always)
    (never : motive .never) (and : ∀ ps, (∀ p ∈ ps, motive p) → motive (.and ps))
    (or : ∀ ps, (∀ p ∈ ps, motive p) → motive (.or ps))
    (not : ∀ p : Predicate, motive p.negate → motive p.not)
    (compare : ∀ op v, motive (.compare op v)) (isIn : ∀ vs, motive (.isIn vs))
    (isNotIn : ∀ vs, motive (.isNotIn vs)) (isNull : motive .isNull)
    (isNotNull : motive .isNotNull) (p : Predicate) : motive p := by
  refine lower.induct motive (fun ps => ∀ p ∈ ps, motive p) always never and or not
    (fun op v _ => compare op v) (fun op v _ => compare op v) isIn isNotIn isNull isNotNull
    (by simp) (fun p ps hp hps => List.forall_mem_cons.2 ⟨hp, hps⟩) p

theorem lowerAll_eq_mapM (d : Domain) (ps : List Predicate) :
    lowerAll d ps = ps.mapM (lower d) := by
  induction ps with
  | nil => rw [lowerAll, List.mapM_nil]
  | cons p ps ih => rw [lowerAll, List.mapM_cons, ih]

theorem lower_and_eq_ok {ps : List Predicate} {t : Tree} : ((and ps).lower d).run.value = .ok t ↔
    ∃ ts, (lowerAll d ps).run.value = .ok ts ∧ t = .node d .intersection ts := by
  rw [lower, Attempt.bind_eq_ok]
  simp only [Attempt.value_pure, Except.ok.injEq, eq_comm (b := t)]

theorem lower_or_eq_ok {ps : List Predicate} {t : Tree} : ((or ps).lower d).run.value = .ok t ↔
    ∃ ts, (lowerAll d ps).run.value = .ok ts ∧ t = .node d .union ts := by
  rw [lower, Attempt.bind_eq_ok]
  simp only [Attempt.value_pure, Except.ok.injEq, eq_comm (b := t)]

theorem mem_of_lowerAll {ps : List Predicate} {ts : List Tree}
    (h : (lowerAll d ps).run.value = .ok ts) :
    (∀ p ∈ ps, ∃ t ∈ ts, (p.lower d).run.value = .ok t) ∧
      ∀ t ∈ ts, ∃ p ∈ ps, (p.lower d).run.value = .ok t := by
  rw [lowerAll_eq_mapM] at h
  exact Attempt.mem_of_mapM h

theorem lowerList_eq_ok {vs : List Value} {t : Tree} :
    (lowerList d vs).run.value = .ok t ↔ ∃ is : List Interval,
      ((vs.filter (!·.isNull)).mapM (Interval.point d)).run.value = .ok is ∧
        t = .node d .union (is.map .leaf) := by
  simp only [lowerList, Attempt.bind_eq_ok, Attempt.value_pure, Except.ok.injEq,
    eq_comm (b := t)]

theorem lowerOutside_eq_ok {vs : List Value} {t : Tree} :
    (lowerOutside d vs).run.value = .ok t ↔
      if vs.isEmpty then t = .leaf (.unconstrained d)
      else ∃ inside, (lowerList d vs).run.value = .ok inside ∧
        t = if vs.any (·.isNull) then .leaf (.empty d) else .node d .complement [inside] := by
  unfold lowerOutside
  split
  · simp only [Attempt.value_pure, Except.ok.injEq, eq_comm (b := t)]
  · rw [Attempt.bind_eq_ok]
    refine exists_congr fun inside => and_congr_right fun _ => ?_
    split <;> simp only [Attempt.value_pure, Except.ok.injEq, eq_comm (b := t)]

theorem whole_lowerList {vs : List Value} {t : Tree}
    (h : (lowerList d vs).run.value = .ok t) : t.Whole d := by
  obtain ⟨is, his, rfl⟩ := lowerList_eq_ok.1 h
  refine Tree.whole_node (fun t ht => ?_) nofun
  obtain ⟨i, hi, rfl⟩ := List.mem_map.1 ht
  obtain ⟨v, -, hv⟩ := (Attempt.mem_of_mapM his).2 i hi
  exact Tree.whole_leaf (Interval.built_edit (.setPoint v) trivial hv)

theorem whole_lowerOutside {vs : List Value} {t : Tree}
    (h : (lowerOutside d vs).run.value = .ok t) : t.Whole d := by
  rw [lowerOutside_eq_ok] at h
  split at h
  · subst h
    exact Tree.whole_leaf (Interval.built_unconstrained d)
  · obtain ⟨inside, hinside, rfl⟩ := h
    split
    · exact Tree.whole_leaf (Interval.built_empty d)
    · exact Tree.whole_node (List.forall_mem_singleton.2 (whole_lowerList hinside)) fun _ => rfl

theorem whole_of_lowerAll {ps : List Predicate} {ts : List Tree}
    (hps : ∀ p ∈ ps, ∀ {t}, (p.lower d).run.value = .ok t → t.Whole d)
    (h : (lowerAll d ps).run.value = .ok ts) : ∀ t ∈ ts, t.Whole d := by
  intro t ht
  obtain ⟨p, hp, hpt⟩ := (mem_of_lowerAll h).2 t ht
  exact hps p hp hpt

theorem whole_lower {p : Predicate} {t : Tree} (h : (p.lower d).run.value = .ok t) :
    t.Whole d := by
  induction p using lowering_induction generalizing t with
  | always =>
    rw [lower] at h
    cases h
    exact Tree.whole_leaf (Interval.built_unconstrained d)
  | never =>
    rw [lower] at h
    cases h
    exact Tree.whole_leaf (Interval.built_empty d)
  | and ps ih =>
    obtain ⟨ts, hts, rfl⟩ := lower_and_eq_ok.1 h
    exact Tree.whole_node (whole_of_lowerAll ih hts) (by simp)
  | or ps ih =>
    obtain ⟨ts, hts, rfl⟩ := lower_or_eq_ok.1 h
    exact Tree.whole_node (whole_of_lowerAll ih hts) (by simp)
  | not p ih =>
    rw [lower] at h
    exact ih h
  | compare op v =>
    rw [lower] at h
    split at h
    · cases h
      exact Tree.whole_leaf (Interval.built_empty d)
    · exact CompareOp.whole_lower h
  | isIn vs =>
    rw [lower] at h
    exact whole_lowerList h
  | isNotIn vs =>
    rw [lower] at h
    exact whole_lowerOutside h
  | isNull =>
    rw [lower] at h
    cases h
    exact Tree.whole_leaf (Interval.built_null d)
  | isNotNull =>
    rw [lower] at h
    cases h
    exact Tree.whole_node
      (List.forall_mem_singleton.2 (Tree.whole_leaf (Interval.built_null d))) fun _ => rfl

end Predicate

end SearchArgument
