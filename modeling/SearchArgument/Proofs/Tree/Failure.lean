import SearchArgument.Proofs.Tree.Evaluation

/-! How evaluation fails. Adding children, accepted or not, keeps every complement at one child at
most and all domains of a tree at one name. So the one thing that can go wrong later is a complement
that never got its child, wherever it stands. -/

namespace SearchArgument

variable {given : Domain → Prop}

/-! ### Adding children -/

namespace Node

variable {n n' : Node} {child : Tree} {f : Fault}

theorem offer_of_error (h : (n.offer child).1 = .error f) : (n.offer child).2 = n := by
  unfold offer at h ⊢
  cases hadd : n.add child with
  | error g => rfl
  | ok n' =>
    rw [hadd] at h
    cases h

theorem built_offer (hn : n.toTree.Built given) (hc : child.Built given) :
    (n.offer child).2.toTree.Built given := by
  unfold offer
  cases hadd : n.add child with
  | error f => exact hn
  | ok n' => exact .added hn hc hadd

theorem built_offerAll {children : List Tree} (hn : n.toTree.Built given)
    (hc : ∀ c ∈ children, c.Built given) : (n.offerAll children).toTree.Built given := by
  induction children generalizing n with
  | nil => exact hn
  | cons c cs ih =>
    obtain ⟨hhead, htail⟩ := List.forall_mem_cons.1 hc
    exact ih (built_offer hn hhead) htail

end Node

namespace Tree

/-! ### Subtrees -/

mutual

/-- What passes from nodes to their children holds of all subtrees. -/
theorem forall_subtrees {P : Tree → Prop}
    (hdown : ∀ e op ts, P (node e op ts) → ∀ t ∈ ts, P t) : ∀ t, P t → ∀ u ∈ t.subtrees, P u
  | leaf _, h => List.forall_mem_singleton.2 h
  | node e op ts, h => List.forall_mem_cons.2 ⟨h, forall_allSubtrees hdown ts (hdown e op ts h)⟩

theorem forall_allSubtrees {P : Tree → Prop}
    (hdown : ∀ e op ts, P (node e op ts) → ∀ t ∈ ts, P t) :
    ∀ ts, (∀ t ∈ ts, P t) → ∀ u ∈ allSubtrees ts, P u
  | [], _ => nofun
  | t :: ts, h => by
    obtain ⟨ht, hts⟩ := List.forall_mem_cons.1 h
    exact List.forall_mem_append.2 ⟨forall_subtrees hdown t ht, forall_allSubtrees hdown ts hts⟩

end

mutual

theorem hasBareComplement_iff : ∀ t : Tree,
    t.hasBareComplement ↔ ∃ e, node e .complement [] ∈ t.subtrees
  | leaf i => by simp [hasBareComplement, subtrees]
  | node d op ts => by
    have hroot : (op = .complement ∧ ts = []) ↔ ∃ e, node e .complement [] = node d op ts := by
      simp only [node.injEq, eq_comm]
      simp
    simp only [hasBareComplement, Bool.or_eq_true, Bool.and_eq_true, decide_eq_true_eq,
      List.isEmpty_iff, subtrees, List.mem_cons, exists_or, hroot, anyBare_iff ts]

theorem anyBare_iff : ∀ ts : List Tree,
    anyBare ts ↔ ∃ e, node e .complement [] ∈ allSubtrees ts
  | [] => by simp [anyBare, allSubtrees]
  | t :: ts => by
    rw [anyBare, Bool.or_eq_true, hasBareComplement_iff t, anyBare_iff ts]
    simp only [allSubtrees, List.mem_append, exists_or]

end

/-! ### What building keeps -/

theorem built_ofChildren {d : Domain} {op : SetOp} {children : List Tree} {n : Node} (hd : given d)
    (hc : ∀ c ∈ children, c.Built given) (h : Node.ofChildren d op children = .ok n) :
    n.toTree.Built given := by
  have hfresh : (Node.fresh d op).toTree.Built given := .fresh op hd
  unfold Node.ofChildren at h
  generalize Node.fresh d op = m at h hfresh
  induction children generalizing m with
  | nil =>
    cases h
    exact hfresh
  | cons c cs ih =>
    obtain ⟨hhead, htail⟩ := List.forall_mem_cons.1 hc
    rw [List.foldlM_cons] at h
    cases hadd : m.add c with
    | error f =>
      rw [hadd] at h
      cases h
    | ok m' =>
      rw [hadd] at h
      exact ih htail m' h (.added hfresh hhead hadd)

/-- The node at the root of a built tree, and its children. -/
theorem Built.root {e : Domain} {op : SetOp} {ts : List Tree} (h : (node e op ts).Built given) :
    (op = .complement → ts.length ≤ 1) ∧ ∀ t ∈ ts, t.domain.name = e.name := by
  generalize hroot : node e op ts = root at h
  induction h generalizing ts with
  | leaf => cases hroot
  | fresh =>
    cases hroot
    exact ⟨fun _ => Nat.zero_le 1, nofun⟩
  | @added n n' child _ _ hadd ih _ =>
    obtain ⟨hname, hfull, rfl⟩ := Node.add_eq_ok.1 hadd
    cases hroot
    obtain ⟨-, hnames⟩ := ih rfl
    refine ⟨fun hop => ?_, List.forall_mem_append.2 ⟨hnames, List.forall_mem_singleton.2 hname⟩⟩
    rw [hfull hop]
    exact le_rfl

theorem Built.of_mem_subtrees {t : Tree} (h : t.Built given) :
    ∀ u ∈ t.subtrees, u.Built given :=
  forall_subtrees (fun _ _ _ h => h.of_mem_children) t h

theorem Built.name_of_mem_subtrees {t : Tree} (h : t.Built given) :
    ∀ u ∈ t.subtrees, u.domain.name = t.domain.name := by
  intro u hu
  refine (forall_subtrees (P := fun u => u.Built given ∧ u.domain.name = t.domain.name) ?_ t
    ⟨h, rfl⟩ u hu).2
  rintro e op ts ⟨hbuilt, hname⟩ v hv
  exact ⟨hbuilt.of_mem_children v hv, (hbuilt.root.2 v hv).trans hname⟩

/-! ### Failure -/

variable {t : Tree} {f : Fault}

theorem evaluate_eq_error_iff : t.evaluate.run.value = .error f ↔
    (∃ e, node e .complement [] ∈ t.subtrees) ∧ f = .childlessComplement := by
  rw [← hasBareComplement_iff]
  cases hbare : t.hasBareComplement with
  | true => simp [evaluate_eq_error hbare, eq_comm]
  | false =>
    obtain ⟨s, hs⟩ := evaluates_iff.2 hbare
    simp [hs]

theorem evaluateComplemented_eq_error_iff :
    t.evaluateComplemented.run.value = .error f ↔ t.evaluate.run.value = .error f := by
  cases h : t.evaluate.run.value with
  | ok s => simp [value_evaluateComplemented h]
  | error g =>
    rw [evaluateComplemented, Attempt.value_bind, h]
    rfl

/-- Whatever children are added, accepted or not, a tree keeps every complement at one child at most
and all its domains at one name. Evaluated in whatever way, it fails exactly if a complement in it
has no child, and always says so. -/
theorem evaluation_fails_only_bare :
    (∀ {d : Domain} {op : SetOp} {children : List Tree} {n : Node}, given d →
      (∀ c ∈ children, c.Built given) → Node.ofChildren d op children = .ok n →
      n.toTree.Built given) ∧
    (∀ {n : Node} {children : List Tree}, n.toTree.Built given →
      (∀ c ∈ children, c.Built given) → (n.offerAll children).toTree.Built given) ∧
    (∀ {n : Node} {child : Tree} {f : Fault}, (n.offer child).1 = .error f →
      (n.offer child).2 = n) ∧
    ∀ {t : Tree}, t.Built given →
      (∀ e ts, node e .complement ts ∈ t.subtrees → ts.length ≤ 1) ∧
      (∀ u ∈ t.subtrees, u.domain.name = t.domain.name) ∧
      let bare := ∃ e, node e .complement [] ∈ t.subtrees
      ∀ f, (t.evaluate.run.value = .error f ↔ bare ∧ f = .childlessComplement) ∧
        ((RangeSet.toTree <$> t.evaluate).run.value = .error f ↔
          bare ∧ f = .childlessComplement) ∧
        ((RangeSet.toTree <$> t.evaluateComplemented).run.value = .error f ↔
          bare ∧ f = .childlessComplement) ∧
        (f = .childlessComplement → f.label = "set_expr:invariant_violation") := by
  refine ⟨built_ofChildren, Node.built_offerAll, Node.offer_of_error, fun {t} ht => ?_⟩
  refine ⟨fun e ts hmem => (ht.of_mem_subtrees _ hmem).root.1 rfl, ht.name_of_mem_subtrees, ?_⟩
  intro bare f
  refine ⟨evaluate_eq_error_iff, ?_, ?_, ?_⟩
  · rw [Attempt.map_eq_error, evaluate_eq_error_iff]
  · rw [Attempt.map_eq_error, evaluateComplemented_eq_error_iff, evaluate_eq_error_iff]
  · rintro rfl
    rfl

/-- Below a union with everything and nothing, a complement over the integers that was offered a
term of texts only. -/
theorem evaluation_fails_only_bare_unfilled :
    let d := Scalar.int.domain
    let n := Node.fresh d .complement
    let foreign : Tree := leaf (.null Scalar.text.domain)
    let everything : Tree := leaf (.unconstrained d)
    let nothing : Tree := leaf (.empty d)
    let t : Tree := node d .union [everything, (n.offerAll [foreign]).toTree, nothing]
    (n.offer foreign).2 = n ∧
      (n.offerAll [foreign, nothing, everything]).toTree = node d .complement [nothing] ∧
      (node d .complement [nothing]).Built (fun _ => True) ∧ t.Built (fun _ => True) ∧
      (∀ u ∈ t.subtrees, u.domain.name = "int") ∧
      t.evaluate.run.value = .error .childlessComplement ∧
      (RangeSet.toTree <$> t.evaluateComplemented).run.value = .error .childlessComplement := by
  intro d n foreign everything nothing t
  obtain ⟨hnew, hmore, hsame, hbuilt⟩ :=
    @evaluation_fails_only_bare fun _ => True
  have hnull : Interval.Edit.Built (fun _ => True) .setNull := trivial
  have hempty : Interval.Edit.Built (fun _ => True) .setEmpty := trivial
  have hforeign : foreign.Built fun _ => True := .leaf (.edited (.unconstrained trivial) hnull rfl)
  have heverything : everything.Built fun _ => True := .leaf (.unconstrained trivial)
  have hnothing : nothing.Built fun _ => True := .leaf (.edited (.unconstrained trivial) hempty rfl)
  have hn : n.toTree.Built fun _ => True := .fresh .complement trivial
  have hoffered := hmore hn (List.forall_mem_singleton.2 hforeign)
  have hmade : Node.ofChildren d .union [everything, (n.offerAll [foreign]).toTree, nothing] =
      .ok ⟨d, .union, [everything, (n.offerAll [foreign]).toTree, nothing]⟩ := rfl
  have ht : t.Built fun _ => True := hnew trivial (by simp [heverything, hoffered, hnothing]) hmade
  obtain ⟨-, hnames, hfails⟩ := hbuilt ht
  obtain ⟨hsequence, -, hcomplemented, -⟩ := hfails .childlessComplement
  have hbare : ∃ e, node e .complement [] ∈ t.subtrees := (hasBareComplement_iff t).1 rfl
  refine ⟨hsame rfl, rfl, ?_, ht, hnames, hsequence.2 ⟨hbare, rfl⟩,
    hcomplemented.2 ⟨hbare, rfl⟩⟩
  have hall : ∀ c ∈ [foreign, nothing, everything], c.Built fun _ => True := by
    simp [hforeign, heverything, hnothing]
  exact hmore hn hall

end Tree

end SearchArgument
