import SearchArgument.Proofs.Span.Text
import SearchArgument.Proofs.Tree.Evaluation

/-! The text of a range set. It is that of its tree, and over a scalar domain it is read in one
way only: a union is told from a single term by its first letter, the empty term by its length,
and between the terms of a union the brackets stand apart from the one that closes it. So results
that are written alike are equal. -/

namespace SearchArgument

variable {k : Scalar}

namespace Span

/-- The texts of spans in a union, each behind a space. -/
theorem beq_of_written_union {xs ys : List Span} (hx : ∀ a ∈ xs, k.domain.Bounds a)
    (hy : ∀ b ∈ ys, k.domain.Bounds b)
    (h : (xs.flatMap fun a => ' ' :: a.written k.domain.compare) ++ [' ', ')'] =
      (ys.flatMap fun b => ' ' :: b.written k.domain.compare) ++ [' ', ')']) : xs == ys := by
  -- no span begins with the bracket that closes the union
  have hend : ∀ (a : Span) (rest : List Char),
      [' ', ')'] ≠ ' ' :: (a.written k.domain.compare ++ rest) := by
    intro a rest h
    obtain ⟨-, h⟩ := List.cons.inj h
    have hhead := congrArg List.head? h
    rw [List.head?_append] at hhead
    rcases head?_written k.domain.compare a with ha | ha <;> rw [ha] at hhead <;> cases hhead
  induction xs generalizing ys with
  | nil =>
    cases ys with
    | nil => rfl
    | cons b bs =>
      rw [List.flatMap_cons, List.append_assoc, List.cons_append] at h
      exact absurd h (hend b _)
  | cons a as ih =>
    obtain ⟨ha, has⟩ := List.forall_mem_cons.1 hx
    rw [List.flatMap_cons, List.append_assoc, List.cons_append] at h
    cases ys with
    | nil => exact absurd h.symm (hend a _)
    | cons b bs =>
      obtain ⟨hb, hbs⟩ := List.forall_mem_cons.1 hy
      rw [List.flatMap_cons, List.append_assoc, List.cons_append] at h
      obtain ⟨hab, hrest⟩ := written_append_inj ha hb (List.cons.inj h).2
      rw [List.cons_beq_cons, hab, ih has hbs hrest]
      rfl

end Span

namespace RangeSet

/-- The text of a range set is that of its tree. -/
theorem written_toTree (s : RangeSet) : s.toTree.written = s.written := by
  have hall : ∀ is : List Interval, Tree.writtenAll (is.map .leaf) = is.map (·.written) := by
    intro is
    induction is with
    | nil => rfl
    | cons i is ih => rw [List.map_cons, Tree.writtenAll, ih, List.map_cons, Tree.written]
  unfold toTree written
  split
  · rfl
  · rfl
  · rw [Tree.written, hall]

theorem written_ofSpan (d : Domain) (a : Span) :
    (Interval.ofSpan d a).written = a.written d.compare := List.append_nil _

theorem written_singleton (d : Domain) (a : Span) :
    (mk d [a]).written = a.written d.compare := written_ofSpan d a

theorem written_union (d : Domain) (a b : Span) (rest : List Span) :
    (mk d (a :: b :: rest)).written = SetOp.union.written ++ '(' ::
      (((a :: b :: rest).flatMap fun s => ' ' :: s.written d.compare) ++ [' ', ')']) := by
  show SetOp.union.writtenBefore
    (((a :: b :: rest).map (Interval.ofSpan d)).map (·.written)) = _
  simp only [SetOp.writtenBefore, List.map_map, List.flatMap_map, Function.comp_def, written_ofSpan,
    List.append_assoc, List.cons_append]

/-- Only the empty term is written by brackets alone. -/
theorem written_eq_brackets_iff {s : RangeSet} : s.written = ['(', ')'] ↔ s.spans = [] := by
  obtain ⟨d, _ | ⟨a, _ | ⟨b, rest⟩⟩⟩ := s
  · simp [written, intervals]
  · rw [written_singleton]
    refine iff_of_false (fun h => ?_) (by simp)
    unfold Span.written at h
    split at h
    · cases h
    · have hlength := congrArg List.length h
      simp at hlength
      omega
  · rw [written_union]
    refine iff_of_false (fun h => ?_) (by simp)
    cases congrArg List.head? h

/-- Only unions begin with a letter. -/
theorem head?_written_iff {s : RangeSet} : s.written.head? = some 'U' ↔ 1 < s.size := by
  obtain ⟨d, _ | ⟨a, _ | ⟨b, rest⟩⟩⟩ := s
  · simp [written, intervals, size]
  · rw [written_singleton]
    rcases a.head?_written d.compare with h | h <;> simp [h, size]
  · rw [written_union]
    exact iff_of_true rfl (by simp [size])

/-- Range sets of a scalar domain that are written alike are equal. -/
theorem beq_of_written_eq {s t : RangeSet} (hs : s.domain = k.domain) (ht : t.domain = k.domain)
    (hbs : ∀ a ∈ s.spans, k.domain.Bounds a) (hbt : ∀ b ∈ t.spans, k.domain.Bounds b)
    (h : s.written = t.written) : s == t := by
  have hnone : s.spans = [] ↔ t.spans = [] := by
    rw [← written_eq_brackets_iff, h, written_eq_brackets_iff]
  have hmany : 1 < s.size ↔ 1 < t.size := by rw [← head?_written_iff, h, head?_written_iff]
  rw [beq_iff hs ht]
  obtain ⟨d, xs⟩ := s
  obtain ⟨e, ys⟩ := t
  obtain rfl : d = k.domain := hs
  obtain rfl : e = k.domain := ht
  match xs, ys with
  | [], [] => rfl
  | [a], [b] =>
    rw [written_singleton, written_singleton] at h
    obtain ⟨hab, -⟩ := Span.written_append_inj (hbs a List.mem_cons_self)
      (hbt b List.mem_cons_self) (congrArg (· ++ []) h)
    rw [List.cons_beq_cons, hab]
    rfl
  | a :: a' :: as, b :: b' :: bs =>
    rw [written_union, written_union] at h
    exact Span.beq_of_written_union hbs hbt (List.cons.inj (List.append_cancel_left h)).2
  | [], b :: bs => cases hnone.1 rfl
  | a :: as, [] => cases hnone.2 rfl
  | [a], b :: b' :: bs => simp [size] at hmany
  | a :: a' :: as, [b] => simp [size] at hmany

end RangeSet

/-! ### Results -/

namespace Tree

/-- What comes of a tree is over its domain, and so are its cuts. -/
theorem Yields.bounds {d : Domain} {t : Tree} {s : RangeSet} (h : t.Yields s) (hd : d.Ordered)
    (ht : t.Built (· = d)) : s.domain = d ∧ ∀ a ∈ s.spans, d.Bounds a := by
  obtain ⟨K, _, ⟨σ⟩⟩ := hd.exists_scale
  obtain ⟨hs, hcan⟩ := h.canonical σ ht
  exact ⟨hs, hcan.bounds⟩

/-- Over a scalar domain, results of evaluation and of complementation whose trees are written alike
have equal trees, whatever texts they bound. Every range set is written as its tree. -/
theorem results_told_by_text :
    (∀ (k : Scalar) {t t' : Tree} {s s' : RangeSet}, t.Built (· = k.domain) →
      t'.Built (· = k.domain) → t.Yields s → t'.Yields s' → s.toTree.render = s'.toTree.render →
        s.toTree == s'.toTree) ∧
    ∀ s : RangeSet, s.render = s.toTree.render := by
  constructor
  · intro k t t' s s' ht ht' hs hs' h
    obtain ⟨hd, hb⟩ := hs.bounds k.ordered ht
    obtain ⟨hd', hb'⟩ := hs'.bounds k.ordered ht'
    have hwritten : s.toTree.written = s'.toTree.written := String.ofList_injective h
    rw [RangeSet.written_toTree, RangeSet.written_toTree] at hwritten
    exact RangeSet.toTree_beq_iff.2 (RangeSet.beq_of_written_eq hd hd' hb hb' hwritten)
  · intro s
    rw [render, RangeSet.render, RangeSet.written_toTree]

/-- One, with one place. -/
def tenths : Decimal := (Decimal.ofScaled? 10 1).getD .zero

/-- One, with two places. -/
def hundredths : Decimal := (Decimal.ofScaled? 100 2).getD .zero

/-- The term from one to a decimal. -/
def fromOne (d : Decimal) : Interval :=
  .ofSpan Scalar.decimal.domain
    ⟨.finite (.decimal tenths) .lower .closed, .finite (.decimal d) .upper .closed⟩

theorem built_fromOne (d : Decimal) : (leaf (fromOne d)).Built (· = Scalar.decimal.domain) := by
  have hupper : (Interval.Edit.setUpper (.decimal d) .closed).Built (· = Scalar.decimal.domain) :=
    trivial
  have hlower := Interval.built_edit (d := Scalar.decimal.domain)
    (.setLower (.decimal tenths) .closed) trivial rfl
  exact .leaf (.edited hlower hupper rfl)

theorem results_told_by_text_fromOne :
    let s : RangeSet := ⟨Scalar.decimal.domain, [(fromOne tenths).bounds]⟩
    let s' : RangeSet := ⟨Scalar.decimal.domain, [(fromOne hundredths).bounds]⟩
    (leaf (fromOne tenths)).Yields s ∧ (leaf (fromOne hundredths)).Yields s' ∧
      s.toTree.render = "[1.0]" ∧ s'.toTree.render = "[1.0]" ∧ s.toTree == s'.toTree ∧
      s'.render = s'.toTree.render := by
  intro s s'
  have hs : (leaf (fromOne tenths)).Yields s := .inl rfl
  have hs' : (leaf (fromOne hundredths)).Yields s' := .inl rfl
  obtain ⟨htold, htree⟩ := results_told_by_text
  exact ⟨hs, hs', rfl, rfl,
    htold .decimal (built_fromOne tenths) (built_fromOne hundredths) hs hs' rfl, htree s'⟩

/-- A text that holds the end of a term and the start of another remains one term. -/
example : (RangeSet.mk Scalar.text.domain [⟨.finite (.text "'] ['") .lower .closed,
    .finite (.text "'] ['") .upper .closed⟩]).render = "['''] [''']" := rfl

end Tree

end SearchArgument
