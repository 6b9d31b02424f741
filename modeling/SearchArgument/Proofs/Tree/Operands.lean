import SearchArgument.Proofs.Span.Complement
import SearchArgument.Proofs.Span.Intersection
import SearchArgument.Proofs.Tree.Form

/-! What a tree hands to the node above it. Its operands are canonical, and their forms come
together, under the operator above, to the form of the tree. A subtree under its own operator
hands up several operands, any other just one. Nothing fails but a complement without a child. -/

namespace SearchArgument

variable {d : Domain} {K : Type} [LinearOrder K] {σ : d.Scale K}

/-! ### One operator -/

theorem SetOp.combine_spec {op : SetOp} {operands : List (List Span)} {spans : List Span}
    (ho : ∀ o ∈ operands, σ.Canonical o) (hone : op = .complement → operands.length ≤ 1)
    (h : (op.combine d.compare operands).run.value = .ok spans) :
    σ.Canonical spans ∧ σ.form spans = op.form (operands.map σ.form) := by
  cases op with
  | union =>
    cases h
    have hb : ∀ s ∈ operands.flatten, d.Bounds s := by
      intro s hs
      obtain ⟨o, hmem, hso⟩ := List.mem_flatten.1 hs
      exact (ho o hmem).bounds s hso
    exact ⟨(Domain.Scale.union_spec hb).1,
      (Domain.Scale.form_union hb).trans (Domain.Scale.form_flatten operands)⟩
  | intersection =>
    cases h
    exact Domain.Scale.intersection_spec ho
  | complement =>
    obtain _ | ⟨o, os⟩ := operands
    · cases h
    · obtain rfl : os = [] := by simpa using hone rfl
      cases h
      obtain ⟨hcan, hform⟩ := Domain.Scale.complement_spec (ho o List.mem_cons_self)
      refine ⟨hcan, hform.trans ?_⟩
      exact congrArg Form.complement (SetOp.collect_singleton .complement (σ.form o)).symm

/-- Combining fails only where a complement has no operand. -/
theorem SetOp.combine_eq_ok {op : SetOp} (cmp : Value → Value → Ordering)
    {operands : List (List Span)} (h : op = .complement → operands ≠ []) :
    ∃ spans, (op.combine cmp operands).run.value = .ok spans := by
  cases op with
  | union => exact ⟨_, rfl⟩
  | intersection => exact ⟨_, rfl⟩
  | complement =>
    obtain _ | ⟨o, os⟩ := operands
    · exact absurd rfl (h rfl)
    · exact ⟨_, rfl⟩

namespace Tree

/-! ### All operators -/

variable {above : Option SetOp} {os : List (List Span)}

theorem allOperands_cons_eq_ok {t : Tree} {ts : List Tree} :
    (allOperands above (t :: ts)).run.value = .ok os ↔
      ∃ o os', (t.operands above).run.value = .ok o ∧
        (allOperands above ts).run.value = .ok os' ∧ os = o ++ os' := by
  simp only [allOperands, Attempt.bind_eq_ok, Attempt.value_pure, Except.ok.injEq,
    eq_comm (b := os)]
  constructor
  · rintro ⟨o, ho, os', hos, he⟩
    exact ⟨o, os', ho, hos, he⟩
  · rintro ⟨o, os', ho, hos, he⟩
    exact ⟨o, ho, os', hos, he⟩

theorem operands_node_eq_ok {op : SetOp} {children : List Tree} :
    (operands above (.node d op children)).run.value = .ok os ↔
      ∃ os', (allOperands (some op) children).run.value = .ok os' ∧
        if above = some op ∧ op ≠ .complement then os = os'
        else ∃ spans, (op.combine d.compare os').run.value = .ok spans ∧ os = [spans] := by
  simp only [operands]
  split
  · simp
  · simp only [Attempt.bind_eq_ok, Attempt.value_lift, Attempt.value_pure, Except.ok.injEq,
      eq_comm (b := os)]
    constructor
    · rintro ⟨_, -, os', hos, spans, hspans, _, -, he⟩
      exact ⟨os', hos, spans, hspans, he⟩
    · rintro ⟨os', hos, spans, hspans, he⟩
      exact ⟨(), trivial, os', hos, spans, hspans, (), trivial, he⟩

/-- Only a union or an intersection takes more than one operand from a subtree. -/
theorem length_operands {t : Tree} (hu : above ≠ some .union) (hi : above ≠ some .intersection)
    (h : (t.operands above).run.value = .ok os) : os.length = 1 := by
  cases t with
  | leaf i =>
    cases h
    rfl
  | node e op children =>
    obtain ⟨os', -, h⟩ := operands_node_eq_ok.1 h
    rw [if_neg (by cases op <;> simp_all)] at h
    obtain ⟨spans, -, rfl⟩ := h
    rfl

theorem length_allOperands {ts : List Tree}
    (h : (allOperands (some .complement) ts).run.value = .ok os) : os.length = ts.length := by
  induction ts generalizing os with
  | nil =>
    cases h
    rfl
  | cons t ts ih =>
    obtain ⟨o, os', ho, hos, rfl⟩ := allOperands_cons_eq_ok.1 h
    rw [List.length_append, ih hos, length_operands (by simp) (by simp) ho, List.length_cons,
      Nat.add_comm]

/-- The operands that the children hand up come together to what the children's forms do. -/
theorem allOperands_form (op : SetOp) {ts : List Tree}
    (h : (allOperands above ts).run.value = .ok os)
    (ih : ∀ t ∈ ts, ∀ {o}, (t.operands above).run.value = .ok o →
      (∀ spans ∈ o, σ.Canonical spans) ∧ op.collect (o.map σ.form) = t.form σ) :
    (∀ spans ∈ os, σ.Canonical spans) ∧
      op.collect (os.map σ.form) = op.collect (ts.map (form σ)) := by
  induction ts generalizing os with
  | nil =>
    cases h
    exact ⟨by simp, rfl⟩
  | cons t ts ihts =>
    obtain ⟨o, os', ho, hos, rfl⟩ := allOperands_cons_eq_ok.1 h
    obtain ⟨hcan, hform⟩ := ih t List.mem_cons_self ho
    obtain ⟨hcans, hforms⟩ := ihts hos fun u hu => ih u (List.mem_cons_of_mem _ hu)
    refine ⟨List.forall_mem_append.2 ⟨hcan, hcans⟩, ?_⟩
    rw [List.map_append, List.map_cons, ← List.singleton_append]
    exact SetOp.collect_append (hform.trans (SetOp.collect_singleton op _).symm) hforms

/-- The operands of a tree are canonical, and under the operator above they come to its form. -/
theorem Sound.operands_form {t : Tree} (ht : t.Sound d) (op : SetOp)
    (hop : ∀ o ∈ above, o = op) (h : (t.operands above).run.value = .ok os) :
    (∀ spans ∈ os, σ.Canonical spans) ∧ op.collect (os.map σ.form) = t.form σ := by
  induction ht generalizing above os op with
  | @leaf i hi =>
    cases h
    refine ⟨by simpa using (hi.spans_spec (σ := σ)).1, ?_⟩
    rw [List.map_singleton, SetOp.collect_singleton]
    exact hi.form_spans (σ := σ)
  | @node op' children hone hchildren ih =>
    obtain ⟨os', hos, hup⟩ := operands_node_eq_ok.1 h
    obtain ⟨hcans, hforms⟩ := allOperands_form (σ := σ) op' hos
      fun t ht _ ho => ih t ht op' (by simp) ho
    split at hup
    next hflat =>
      obtain ⟨habove, hne⟩ := hflat
      obtain rfl : op' = op := hop op' habove
      subst hup
      exact ⟨hcans, by rw [hforms, form_node, SetOp.form_of_ne hne]⟩
    next =>
      obtain ⟨spans, hspans, rfl⟩ := hup
      have hlen : op' = .complement → os'.length ≤ 1 := by
        rintro rfl
        exact (length_allOperands hos).trans_le (hone rfl)
      obtain ⟨hcan, hform⟩ := SetOp.combine_spec hcans hlen hspans
      refine ⟨by simpa using hcan, ?_⟩
      rw [List.map_singleton, SetOp.collect_singleton, hform, form_node]
      exact SetOp.form_congr hforms

/-! ### Failure -/

mutual

/-- Where every complement has its child, nothing fails. -/
theorem exists_operands (above : Option SetOp) : ∀ t : Tree, t.hasBareComplement = false →
    ∃ os, (t.operands above).run.value = .ok os
  | .leaf _, _ => ⟨_, rfl⟩
  | .node d op children, h => by
    obtain ⟨hbare, hany⟩ := Bool.or_eq_false_iff.1 (hasBareComplement.eq_2 d op children ▸ h)
    obtain ⟨os, hos⟩ := exists_allOperands (some op) children hany
    by_cases hflat : above = some op ∧ op ≠ .complement
    · exact ⟨os, operands_node_eq_ok.2 ⟨os, hos, by rw [if_pos hflat]⟩⟩
    · have hne : op = .complement → os ≠ [] := by
        rintro rfl rfl
        have hlen := length_allOperands hos
        cases children <;> simp_all
      obtain ⟨spans, hspans⟩ := SetOp.combine_eq_ok d.compare hne
      refine ⟨[spans], operands_node_eq_ok.2 ⟨os, hos, ?_⟩⟩
      rw [if_neg hflat]
      exact ⟨spans, hspans, rfl⟩

theorem exists_allOperands (above : Option SetOp) : ∀ ts : List Tree, anyBare ts = false →
    ∃ os, (allOperands above ts).run.value = .ok os
  | [], _ => ⟨_, rfl⟩
  | t :: ts, h => by
    obtain ⟨ht, hts⟩ := Bool.or_eq_false_iff.1 (anyBare.eq_2 t ts ▸ h)
    obtain ⟨o, ho⟩ := exists_operands above t ht
    obtain ⟨os, hos⟩ := exists_allOperands above ts hts
    exact ⟨_, allOperands_cons_eq_ok.2 ⟨o, os, ho, hos, rfl⟩⟩

end

mutual

/-- No sibling hides a complement without its child. -/
theorem operands_eq_error (above : Option SetOp) : ∀ t : Tree, t.hasBareComplement →
    (t.operands above).run.value = .error .childlessComplement
  | .leaf _, h => by cases h
  | .node d op children, h => by
    simp only [operands]
    cases hany : anyBare children with
    | true =>
      have hchildren := allOperands_eq_error (some op) children hany
      split
      · exact hchildren
      · simp only [Attempt.value_bind, Attempt.value_lift, hchildren]
        rfl
    | false =>
      obtain ⟨rfl, rfl⟩ : op = .complement ∧ children = [] := by
        simpa [hasBareComplement, hany] using h
      rw [if_neg (by simp)]
      rfl

theorem allOperands_eq_error (above : Option SetOp) : ∀ ts : List Tree, anyBare ts →
    (allOperands above ts).run.value = .error .childlessComplement
  | [], h => by cases h
  | t :: ts, h => by
    simp only [allOperands, Attempt.value_bind]
    cases ht : t.hasBareComplement with
    | true =>
      rw [operands_eq_error above t ht]
      rfl
    | false =>
      have hts : anyBare ts := by simpa [anyBare, ht] using h
      obtain ⟨o, ho⟩ := exists_operands above t ht
      rw [ho, allOperands_eq_error above ts hts]
      rfl

end

end Tree

end SearchArgument
