import SearchArgument.Proofs.Span.Cuts
import SearchArgument.Proofs.Tree.Agreement

/-! The size of a result. Cuts are drawn from the leaves through every operator. The two cuts of a
leaf lie on two seams at most, and only three seams lie outside the values, so the result of a tree
has one span more than the tree has leaves at most, however its operators are nested. -/

namespace SearchArgument

variable {given : List Cut} {d : Domain} {K : Type} [LinearOrder K] {s r : RangeSet}

namespace Span

theorem AllDrawn.settled? {s : Span} {cmp : Value → Value → Ordering} (hl : Drawn given s.lower)
    (hu : Drawn given s.upper) : AllDrawn given (s.settled? cmp).toList := by
  unfold Span.settled?
  split
  · exact .nil
  · split
    · exact allDrawn_all
    · refine List.forall_mem_singleton.2 ⟨?_, hu⟩
      dsimp only
      split
      · exact drawn_of_not_isFinite rfl
      · exact hl

/-- No operator makes up a cut. -/
theorem AllDrawn.combine {op : SetOp} {cmp : Value → Value → Ordering} {operands : List (List Span)}
    {spans : List Span} (ho : ∀ o ∈ operands, AllDrawn given o)
    (h : (op.combine cmp operands).run.value = .ok spans) : AllDrawn given spans := by
  cases op with
  | union =>
    cases h
    exact AllDrawn.union (List.forall_mem_flatten.2 ho)
  | intersection =>
    cases h
    exact AllDrawn.intersection ho
  | complement =>
    obtain _ | ⟨o, os⟩ := operands
    · cases h
    · cases h
      exact (ho o List.mem_cons_self).complement

end Span

/-- The intersection of two canonical sequences has fewer terms than both of them together. -/
theorem RangeSet.Canonical.length_intersection_lt (σ : d.Scale K) (hs : s.Canonical)
    (hr : r.Canonical) (hds : s.domain = d) (hdr : r.domain = d)
    (hbs : ∀ a ∈ s.spans, d.Bounds a) (hbr : ∀ a ∈ r.spans, d.Bounds a) (hs₁ : 1 ≤ s.size)
    (hr₁ : 1 ≤ r.size) :
    (Span.intersection d.compare [s.spans, r.spans]).value.length < s.size + r.size := by
  have hcans := hs.canonical (σ := σ) hds hbs
  have hcanr := hr.canonical (σ := σ) hdr hbr
  obtain ⟨hcan, hform⟩ := Domain.Scale.intersection_spec
    (List.forall_mem_cons.2 ⟨hcans, List.forall_mem_singleton.2 hcanr⟩)
  have hinter : σ.extents (Span.intersection d.compare [s.spans, r.spans]).value =
      σ.extents s.spans ∩ σ.extents r.spans := by
    rw [← Domain.Scale.form_seams, hform]
    simp
  exact Domain.Scale.length_lt_of_inter hcan.toAscending hcans.toAscending hcanr.toAscending hinter
    (List.ne_nil_of_length_pos hs₁) (List.ne_nil_of_length_pos hr₁)

namespace Tree

open SearchArgument.Span (AllDrawn cuts mem_cuts)

mutual

theorem allDrawn_operands (above : Option SetOp) : ∀ t : Tree,
    AllDrawn given (t.leaves.map (·.bounds)) →
      ∀ {os}, (t.operands above).run.value = .ok os → ∀ o ∈ os, AllDrawn given o
  | leaf i, h, os, hos => by
    cases hos
    obtain ⟨hl, hu⟩ := h _ List.mem_cons_self
    refine List.forall_mem_singleton.2 ?_
    show AllDrawn given i.settled?.toList
    unfold Interval.settled?
    split
    · exact .nil
    · exact AllDrawn.settled? hl hu
  | node d op children, h, os, hos => by
    obtain ⟨os', hos', hup⟩ := operands_node_eq_ok.1 hos
    have hdrawn := allDrawn_allOperands (some op) children h hos'
    split at hup
    · exact hup ▸ hdrawn
    · obtain ⟨spans, hspans, rfl⟩ := hup
      exact List.forall_mem_singleton.2 (.combine hdrawn hspans)

theorem allDrawn_allOperands (above : Option SetOp) : ∀ ts : List Tree,
    AllDrawn given ((allLeaves ts).map (·.bounds)) →
      ∀ {os}, (allOperands above ts).run.value = .ok os → ∀ o ∈ os, AllDrawn given o
  | [], _, os, hos => by
    cases hos
    exact List.forall_mem_nil _
  | t :: ts, h, os, hos => by
    obtain ⟨o, os', ho, hos', rfl⟩ := allOperands_cons_eq_ok.1 hos
    rw [allLeaves, List.map_append] at h
    obtain ⟨ht, hts⟩ := List.forall_mem_append.1 h
    exact List.forall_mem_append.2
      ⟨allDrawn_operands above t ht ho, allDrawn_allOperands above ts hts hos'⟩

end

variable {t u : Tree}

/-- What a tree evaluates to draws its cuts from the leaves. -/
theorem allDrawn_evaluate (h : t.evaluate.run.value = .ok s) :
    AllDrawn (cuts (t.leaves.map (·.bounds))) s.spans := by
  obtain ⟨os, hos, rfl⟩ := evaluate_eq_ok.1 h
  refine List.forall_mem_flatten.2 (allDrawn_operands none t (fun b hb => ?_) hos)
  exact ⟨fun _ => .inl (mem_cuts.2 ⟨b, hb, .inl rfl⟩), fun _ => .inl (mem_cuts.2 ⟨b, hb, .inr rfl⟩)⟩

theorem Sound.size_le (σ : d.Scale K) (ht : t.Sound d) (h : t.evaluate.run.value = .ok s) :
    s.size ≤ t.leaves.length + 1 := by
  have hasc := (ht.evaluate_canonical (σ := σ) h).2.toAscending
  have hlength := hasc.length_le (allDrawn_evaluate h)
  rw [Span.length_cuts, List.length_map] at hlength
  unfold RangeSet.size
  omega

theorem exists_leaf_of_mem_cuts (h : t.evaluate.run.value = .ok s) {c : Cut}
    (hc : c ∈ cuts s.spans) {v : Value} (hv : c.coordinate = .finite v) :
    ∃ c' ∈ cuts (t.leaves.map (·.bounds)), c'.coordinate = .finite v := by
  have hfin : c.coordinate.isFinite := by rw [hv]; rfl
  rcases (allDrawn_evaluate h).of_mem_cuts hc hfin with hmem | hmem
  · exact ⟨c, hmem, hv⟩
  · exact ⟨c.opposite, hmem, (Cut.coordinate_opposite c).trans hv⟩

/-- An intersection has fewer terms than its two trees together, whatever these are made of. -/
theorem Whole.exists_intersection (σ : d.Scale K) (ht : t.Whole d) (hu : u.Whole d)
    (hs : t.evaluate.run.value = .ok s) (hr : u.evaluate.run.value = .ok r) (hs₁ : 1 ≤ s.size)
    (hr₁ : 1 ≤ r.size) :
    ∃ w, (node d .intersection [t, u]).evaluate.run.value = .ok w ∧
      w.size < s.size + r.size := by
  obtain ⟨w, hw, -, hcanw, hformw⟩ := (ht.intersection hu).exists_evaluate σ
  obtain ⟨-, hcans, hforms⟩ := ht.sound.evaluate_spec (σ := σ) hs
  obtain ⟨-, hcanr, hformr⟩ := hu.sound.evaluate_spec (σ := σ) hr
  rw [form_intersection, ← hforms, ← hformr] at hformw
  exact ⟨w, hw, Domain.Scale.length_lt_of_inter hcanw.toAscending hcans.toAscending
    hcanr.toAscending (congrArg Form.seams hformw) (List.ne_nil_of_length_pos hs₁)
    (List.ne_nil_of_length_pos hr₁)⟩

/-- The result of a tree has one term more than the tree has leaves at most, and is bounded by
values that the leaves are bounded by. Two canonical sequences of `n` and `m` terms intersect in
`n + m - 1` terms at most. -/
theorem evaluation_bounded (k : Scalar) :
    (∀ {t : Tree} {s : RangeSet}, t.Built (· = k.domain) → t.evaluate.run.value = .ok s →
      s.size ≤ t.leaves.length + 1 ∧
      ∀ c ∈ cuts s.spans, ∀ v, c.coordinate = .finite v →
        ∃ c' ∈ cuts (t.leaves.map (·.bounds)), c'.coordinate = .finite v) ∧
    (∀ {t u : Tree} {s r : RangeSet}, t.Built (· = k.domain) → u.Built (· = k.domain) →
      t.evaluate.run.value = .ok s → u.evaluate.run.value = .ok r → 1 ≤ s.size → 1 ≤ r.size →
      ∃ w, (node k.domain .intersection [t, u]).evaluate.run.value = .ok w ∧
        w.size ≤ s.size + r.size - 1) ∧
    ∀ {s r : RangeSet}, s.Canonical → r.Canonical → s.domain = k.domain → r.domain = k.domain →
      (∀ a ∈ s.spans, k.domain.Bounds a) → (∀ a ∈ r.spans, k.domain.Bounds a) →
      1 ≤ s.size → 1 ≤ r.size →
      (Span.intersection k.domain.compare [s.spans, r.spans]).value.length ≤
        s.size + r.size - 1 := by
  obtain ⟨K, _, σ, -⟩ := k.exists_exact
  refine ⟨fun ht h => ⟨ht.sound.size_le σ h, ?_⟩, ?_, ?_⟩
  · intro c hc v hv
    exact exists_leaf_of_mem_cuts h hc hv
  · intro t u s r ht hu hs hr hs₁ hr₁
    have ht : t.Whole k.domain := whole_iff.2 ⟨ht, s, hs⟩
    have hu : u.Whole k.domain := whole_iff.2 ⟨hu, r, hr⟩
    obtain ⟨w, hw, hlt⟩ := ht.exists_intersection σ hu hs hr hs₁ hr₁
    exact ⟨w, hw, Nat.le_sub_one_of_lt hlt⟩
  · intro s r hs hr hds hdr hbs hbr hs₁ hr₁
    exact Nat.le_sub_one_of_lt (hs.length_intersection_lt σ hr hds hdr hbs hbr hs₁ hr₁)

/-- The integers but one. -/
def allBut (n : Int64) : Tree :=
  node Scalar.int.domain .complement [leaf (.ofSpan Scalar.int.domain
    ⟨.finite (.int n) .lower .closed, .finite (.int n) .upper .closed⟩)]

theorem built_allBut (n : Int64) : (allBut n).Built (· = Scalar.int.domain) :=
  built_node _ .complement _ (List.forall_mem_singleton.2
    (.leaf (Interval.built_edit (.setPoint (.int n)) trivial rfl))) fun _ => le_rfl

/-- The integers but three and five take three terms, as many as the bounds allow. -/
theorem evaluation_bounded_allBut :
    let s : RangeSet := ⟨Scalar.int.domain, [⟨.negInfinity, .finite (.int 3) .upper .opened⟩,
      ⟨.finite (.int 3) .lower .opened, .posInfinity⟩]⟩
    let r : RangeSet := ⟨Scalar.int.domain, [⟨.negInfinity, .finite (.int 5) .upper .opened⟩,
      ⟨.finite (.int 5) .lower .opened, .posInfinity⟩]⟩
    let w : RangeSet := ⟨Scalar.int.domain, [⟨.negInfinity, .finite (.int 3) .upper .opened⟩,
      ⟨.finite (.int 3) .lower .opened, .finite (.int 5) .upper .opened⟩,
      ⟨.finite (.int 5) .lower .opened, .posInfinity⟩]⟩
    (allBut 3).evaluate.run.value = .ok s ∧ (allBut 5).evaluate.run.value = .ok r ∧
      (node Scalar.int.domain .intersection [allBut 3, allBut 5]).evaluate.run.value = .ok w ∧
      w.size ≤ s.size + r.size - 1 ∧
      (s.size ≤ (allBut 3).leaves.length + 1 ∧
        ∀ c ∈ cuts s.spans, ∀ v, c.coordinate = .finite v →
          ∃ c' ∈ cuts ((allBut 3).leaves.map (·.bounds)), c'.coordinate = .finite v) ∧
      (Span.intersection Scalar.int.domain.compare [s.spans, r.spans]).value.length ≤
        s.size + r.size - 1 := by
  intro s r w
  have hs : (allBut 3).evaluate.run.value = .ok s := rfl
  have hr : (allBut 5).evaluate.run.value = .ok r := rfl
  have hw : (node Scalar.int.domain .intersection [allBut 3, allBut 5]).evaluate.run.value =
    .ok w := rfl
  have hs₁ : 1 ≤ s.size := Nat.le_succ 1
  have hr₁ : 1 ≤ r.size := Nat.le_succ 1
  obtain ⟨hresult, htrees, hsequences⟩ := evaluation_bounded .int
  obtain ⟨w', hw', hle⟩ := htrees (built_allBut 3) (built_allBut 5) hs hr hs₁ hr₁
  obtain rfl : w' = w := Except.ok.inj (hw'.symm.trans hw)
  obtain ⟨K, _, σ, -⟩ := Scalar.int.exists_exact
  have hcans := ((built_allBut 3).sound.evaluate_canonical (σ := σ) hs).2
  have hcanr := ((built_allBut 5).sound.evaluate_canonical (σ := σ) hr).2
  refine ⟨hs, hr, hw, hle, hresult (built_allBut 3) hs, ?_⟩
  exact hsequences (RangeSet.canonical_of_scale rfl hcans) (RangeSet.canonical_of_scale rfl hcanr)
    rfl rfl hcans.bounds hcanr.bounds hs₁ hr₁

end Tree

end SearchArgument
