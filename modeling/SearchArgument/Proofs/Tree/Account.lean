import SearchArgument.Proofs.Span.Merges
import SearchArgument.Proofs.Tree.Lattice

/-! What an evaluation reports is the account of the leaves and nodes that it evaluates, each
taken once. The order of the events is that of the evaluation: a node first says that it is
evaluated, then its children have their say, and only then is it known what it merged and whether
anything is left. -/

namespace SearchArgument

variable {d : Domain} {K : Type} [LinearOrder K] {σ : d.Scale K}

/-- Only unions report merges. -/
theorem SetOp.events_combine {op : SetOp} {operands : List (List Span)} {spans : List Span}
    (ho : ∀ o ∈ operands, σ.Canonical o)
    (h : (op.combine d.compare operands).run.value = .ok spans) :
    (op.combine d.compare operands).run.events =
      if op = .union then Span.merges operands.flatten spans.length else [] := by
  cases op with
  | union =>
    cases h
    have hproper : ∀ s ∈ operands.flatten, s.isInverted d.compare = false :=
      List.forall_mem_flatten.2 fun o hmem => (ho o hmem).not_isInverted
    exact (Attempt.events_lift _).trans (Domain.Scale.events_union hproper)
  | intersection =>
    exact (Attempt.events_lift _).trans (Domain.Scale.events_intersection ho)
  | complement =>
    obtain _ | ⟨o, os⟩ := operands
    · cases h
    · have hasc := (ho o List.mem_cons_self).toAscending
      exact (Attempt.events_lift _).trans (Domain.Scale.events_complement hasc)

theorem Interval.settled?_isNone (i : Interval) :
    i.settled?.isNone = (i.isEmpty || i.bounds.isInverted i.domain.compare) := by
  unfold settled? Span.settled?
  cases i.isEmpty with
  | true => rfl
  | false =>
    cases i.bounds.isInverted i.domain.compare with
    | true => rfl
    | false =>
      simp only [Bool.false_eq_true, if_false]
      split <;> rfl

theorem Interval.events_spans (i : Interval) : i.spans.events = .evaluated .interval ::
    if i.isEmpty || i.bounds.isInverted i.domain.compare then [.emptyResult] else [] := by
  rw [spans, Recorded.events_bind, Recorded.events_bind, events_noteIf, Recorded.events_pure,
    List.append_nil, i.settled?_isNone]
  rfl

namespace Tree

variable {above : Option SetOp} {op : SetOp} {t : Tree} {ts : List Tree} {os : List (List Span)}

/-! ### Flattened unions -/

theorem spans_eq (h : (t.operands none).run.value = .ok os) : t.spans = os.flatten := by
  have hevaluate : t.evaluate.run.value = .ok ⟨t.domain, os.flatten⟩ :=
    evaluate_eq_ok.2 ⟨os, h, rfl⟩
  rw [spans, hevaluate]

/-- A node that is not joined to the one above hands up what it evaluates to. -/
theorem operands_eq_none (h : ¬(above = some op ∧ op ≠ .complement)) :
    operands above (node d op ts) = operands none (node d op ts) := by
  rw [operands, operands, if_neg h, if_neg (by simp)]

mutual

/-- A union joins the spans of the trees that are united in it. -/
theorem flatten_operands : ∀ (t : Tree) {os : List (List Span)},
    (t.operands (some .union)).run.value = .ok os → os.flatten = t.united.flatMap spans
  | leaf i, os, h => by
    rw [united, List.flatMap_singleton]
    exact (spans_eq (t := leaf i) h).symm
  | node e op ts, os, h => by
    rw [united]
    split
    next hop =>
      subst hop
      obtain ⟨os', hos', hup⟩ := operands_node_eq_ok.1 h
      rw [if_pos (by simp)] at hup
      exact hup ▸ flatten_allOperands ts hos'
    next hop =>
      rw [operands_eq_none fun hflat => hop (Option.some.inj hflat.1).symm] at h
      rw [List.flatMap_singleton, spans_eq h]

theorem flatten_allOperands : ∀ (ts : List Tree) {os : List (List Span)},
    (allOperands (some .union) ts).run.value = .ok os →
      os.flatten = (allUnited ts).flatMap spans
  | [], os, h => by
    cases h
    rfl
  | t :: ts, os, h => by
    obtain ⟨o, os', ho, hos', rfl⟩ := allOperands_cons_eq_ok.1 h
    rw [allUnited, List.flatMap_append, List.flatten_append, flatten_operands t ho,
      flatten_allOperands ts hos']

end

/-! ### Events -/

theorem events_leaf (i : Interval) : ((leaf i).operands above).run.events = account (leaf i) := by
  rw [operands, Attempt.events_bind_of_ok rfl, Attempt.events_lift, Attempt.events_pure,
    List.append_nil, i.events_spans, account]

/-- The account of a node with the result that it was evaluated to. -/
theorem account_node {spans : List Span} (hos : (allOperands (some op) ts).run.value = .ok os)
    (h : (op.combine d.compare os).run.value = .ok spans) :
    account (node d op ts) = .evaluated op.evaluation ::
      (if op = .union then Span.merges os.flatten spans.length else []) ++
        if spans.isEmpty then [.emptyResult] else [] := by
  have hup : ((node d op ts).operands none).run.value = .ok [spans] := by
    refine operands_node_eq_ok.2 ⟨os, hos, ?_⟩
    rw [if_neg (by simp)]
    exact ⟨spans, h, rfl⟩
  have hresult : (node d op ts).spans = spans := (spans_eq hup).trans List.flatten_singleton
  rw [account, hresult]
  by_cases hop : op = .union
  · subst hop
    rw [flatten_allOperands ts hos]
  · rw [if_neg hop, if_neg hop]

/-- A node that is not joined to the one above says that it is evaluated before its children do, and
the rest of its account behind them. -/
theorem events_node {spans : List Span} (hflat : ¬(above = some op ∧ op ≠ .complement))
    (hos : (allOperands (some op) ts).run.value = .ok os)
    (h : (op.combine d.compare os).run.value = .ok spans) :
    (operands above (node d op ts)).run.events = .evaluated op.evaluation ::
      ((allOperands (some op) ts).run.events ++ ((op.combine d.compare os).run.events ++
        if spans.isEmpty then [.emptyResult] else [])) := by
  rw [operands, if_neg hflat, Attempt.events_bind_of_ok rfl, Attempt.events_bind_of_ok hos,
    Attempt.events_bind_of_ok h, Attempt.events_bind_of_ok rfl, Attempt.events_lift,
    Attempt.events_lift, events_noteIf, Attempt.events_pure, List.append_nil]
  rfl

mutual

/-- Operands are brought up with the account of all that is evaluated for them. -/
theorem Sound.events_operands (σ : d.Scale K) (above : Option SetOp) : ∀ (t : Tree), t.Sound d →
    ∀ {os : List (List Span)}, (t.operands above).run.value = .ok os →
      (t.operands above).run.events.Perm ((t.evaluated above).flatMap account)
  | leaf i, _, os, _ => by
    rw [events_leaf, evaluated, List.flatMap_singleton]
  | node e op ts, ht, os, hos => by
    obtain _ | ⟨-, hchildren⟩ := ht
    obtain ⟨os', hos', hup⟩ := operands_node_eq_ok.1 hos
    have hbelow := events_allOperands σ (some op) ts hchildren hos'
    rw [evaluated]
    split at hup
    next hflat =>
      rw [operands, if_pos hflat, if_pos hflat]
      exact hbelow
    next hflat =>
      obtain ⟨spans, hspans, rfl⟩ := hup
      have hcans := (allOperands_form (σ := σ) op hos' fun t ht _ ho =>
        (hchildren t ht).operands_form op (by simp) ho).1
      rw [events_node hflat hos' hspans, SetOp.events_combine hcans hspans, if_neg hflat,
        List.flatMap_cons, account_node hos' hspans]
      exact ((hbelow.append_right _).trans List.perm_append_comm).cons _

theorem events_allOperands (σ : d.Scale K) (above : Option SetOp) : ∀ (ts : List Tree),
    (∀ t ∈ ts, t.Sound d) → ∀ {os : List (List Span)}, (allOperands above ts).run.value = .ok os →
      (allOperands above ts).run.events.Perm ((allEvaluated above ts).flatMap account)
  | [], _, os, _ => .refl _
  | t :: ts, h, os, hos => by
    obtain ⟨ht, hts⟩ := List.forall_mem_cons.1 h
    obtain ⟨o, os', ho, hos', -⟩ := allOperands_cons_eq_ok.1 hos
    rw [allOperands, Attempt.events_bind_of_ok ho, Attempt.events_bind_of_ok hos',
      Attempt.events_pure, List.append_nil, allEvaluated, List.flatMap_append]
    exact (Sound.events_operands σ above t ht ho).append (events_allOperands σ above ts hts hos')

end

variable {s : RangeSet}

/-- Over an ordered domain an evaluation reports the account of every leaf and node that it
evaluates by itself, and nothing else. -/
theorem evaluation_reports_account (hd : d.Ordered) (ht : t.Built (· = d))
    (h : t.evaluate.run.value = .ok s) :
    t.evaluate.run.events.Perm ((t.evaluated none).flatMap account) := by
  obtain ⟨K, _, ⟨σ⟩⟩ := hd.exists_scale
  obtain ⟨os, hos, -⟩ := evaluate_eq_ok.1 h
  rw [evaluate, Attempt.events_bind_of_ok hos, Attempt.events_pure, List.append_nil]
  exact ht.sound.events_operands σ none t hos

/-- The integers below five or from three on, grouped below a second union, and an intersection of
which nothing is left. -/
def overlapping : Tree :=
  node Scalar.int.domain .union [belowFive, node Scalar.int.domain .union [fromThree],
    node Scalar.int.domain .intersection [belowThree, fromThree]]

theorem whole_overlapping : overlapping.Whole Scalar.int.domain := by
  have hunion : (node Scalar.int.domain .union [fromThree]).Whole Scalar.int.domain :=
    whole_node (List.forall_mem_singleton.2 whole_fromThree) nofun
  have hinter := whole_belowThree.intersection whole_fromThree
  exact whole_node (by simp [whole_belowFive, hunion, hinter]) nofun

theorem evaluation_reports_account_overlapping :
    overlapping.evaluate.run.events.Perm ((overlapping.evaluated none).flatMap account) ∧
      (overlapping.evaluated none).flatMap account =
        [.evaluated .union, .merged 1, .evaluated .interval, .evaluated .interval,
          .evaluated .intersection, .emptyResult, .evaluated .complement, .evaluated .interval,
          .evaluated .interval] :=
  ⟨evaluation_reports_account (s := ⟨Scalar.int.domain, [.nonNull]⟩) Scalar.int.ordered
    whole_overlapping.built rfl, rfl⟩

end Tree

end SearchArgument
