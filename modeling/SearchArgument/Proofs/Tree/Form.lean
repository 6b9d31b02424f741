import Mathlib.Data.List.Induction
import SearchArgument.Proofs.Interval
import SearchArgument.Proofs.Span.Form
import SearchArgument.Tree.Evaluate

/-! Trees over one domain, and their forms. Whatever is built over a domain has its cuts at the
leaves, and below a complement at most one child. The form of such a tree is computed from its
leaves without any ranges: the settled form of a term at a leaf, the join, meet or complement of
the children's forms at a node. A tree selects a probe exactly if its form takes up the seam below
the probe. -/

namespace SearchArgument

/-- A child is taken on if it has the node's domain name and a complement has none so far. -/
theorem Node.add_eq_ok {n n' : Node} {child : Tree} : n.add child = .ok n' ↔
    child.domain.name = n.domain.name ∧ (n.op = .complement → n.children = []) ∧
      n' = { n with children := n.children ++ [child] } := by
  have hname : (child.domain != n.domain) = false ↔ child.domain.name = n.domain.name := by
    simp [bne, BEq.beq]
  rw [← hname, add]
  split
  next hd => simp [hd]
  next hd =>
    split
    next hfull => simp_all
    next hfree =>
      simp only [Except.ok.injEq, eq_comm (b := n')]
      simp_all

namespace Tree

variable {d : Domain}

/-- Trees over one domain: its cuts at the leaves, and at most one child below a complement. -/
inductive Sound (d : Domain) : Tree → Prop
  | leaf {i : Interval} : i.Sound d → Sound d (.leaf i)
  | node {op : SetOp} {children : List Tree} : (op = .complement → children.length ≤ 1) →
    (∀ t ∈ children, Sound d t) → Sound d (.node d op children)

theorem Sound.domain_eq {t : Tree} (h : t.Sound d) : t.domain = d := by
  cases h with
  | leaf hi => exact hi.domain_eq
  | node => rfl

theorem Built.sound {t : Tree} (h : t.Built (· = d)) : t.Sound d := by
  induction h with
  | leaf hi => exact .leaf hi.sound
  | fresh op hd => exact hd ▸ .node (fun _ => Nat.zero_le 1) (by simp [Node.fresh])
  | @added n n' child _ _ hadd hn hchild =>
    obtain ⟨-, hfull, rfl⟩ := Node.add_eq_ok.1 hadd
    obtain ⟨e, op, children⟩ := n
    rcases hn with _ | ⟨-, hchildren⟩
    refine .node (fun hop => ?_) (List.forall_mem_append.2 ⟨hchildren, by simpa using hchild⟩)
    have hnil : children = [] := hfull hop
    rw [hnil]
    exact le_rfl

/-- A node over one domain is built from its children, a complement from one at most. -/
theorem built_node (d : Domain) (op : SetOp) (children : List Tree)
    (hc : ∀ t ∈ children, t.Built (· = d)) (hone : op = .complement → children.length ≤ 1) :
    (Tree.node d op children).Built (· = d) := by
  induction children using List.reverseRecOn with
  | nil => exact .fresh op rfl
  | append_singleton ts t ih =>
    obtain ⟨hts, ht⟩ := List.forall_mem_append.1 hc
    have ht := ht t (List.mem_singleton_self t)
    have hfull : op = .complement → ts = [] := by simpa using hone
    show (Node.toTree ⟨d, op, ts ++ [t]⟩).Built _
    exact .added (n := ⟨d, op, ts⟩) (ih hts fun hop => by simp [hfull hop]) ht
      (Node.add_eq_ok.2 ⟨congrArg Domain.name ht.sound.domain_eq, hfull, rfl⟩)

/-- Built over one domain, with a child below every complement. -/
structure Whole (d : Domain) (t : Tree) : Prop where
  built : t.Built (· = d)
  no_bare : t.hasBareComplement = false

theorem anyBare_eq_any (ts : List Tree) : anyBare ts = ts.any (·.hasBareComplement) := by
  induction ts with
  | nil => rfl
  | cons t ts ih => rw [anyBare, List.any_cons, ih]

theorem Built.of_mem_children {given : Domain → Prop} {e : Domain} {op : SetOp} {ts : List Tree}
    (h : (node e op ts).Built given) : ∀ t ∈ ts, t.Built given := by
  generalize hroot : node e op ts = root at h
  induction h generalizing ts with
  | leaf hi => cases hroot
  | fresh =>
    cases hroot
    exact nofun
  | @added n n' child _ hchild hadd ih _ =>
    obtain ⟨-, -, rfl⟩ := Node.add_eq_ok.1 hadd
    cases hroot
    exact List.forall_mem_append.2 ⟨ih rfl, List.forall_mem_singleton.2 hchild⟩

theorem whole_leaf {i : Interval} (h : i.Built (· = d)) : (leaf i).Whole d := ⟨.leaf h, rfl⟩

theorem Whole.sound {t : Tree} (h : t.Whole d) : t.Sound d := h.built.sound

theorem whole_node {op : SetOp} {ts : List Tree} (h : ∀ t ∈ ts, t.Whole d)
    (hone : op = .complement → ts.length = 1) : (node d op ts).Whole d := by
  refine ⟨built_node d op ts (fun t ht => (h t ht).built) fun hop => (hone hop).le, ?_⟩
  rw [hasBareComplement, anyBare_eq_any]
  have hbare : (decide (op = .complement) && ts.isEmpty) = false := by
    by_cases hop : op = .complement
    · cases ts with
      | nil => cases hone hop
      | cons => simp
    · simp [hop]
  simpa [hbare] using fun t ht => (h t ht).no_bare

theorem whole_node_iff {op : SetOp} {ts : List Tree} (hop : op ≠ .complement) :
    (node d op ts).Whole d ↔ ∀ t ∈ ts, t.Whole d := by
  refine ⟨fun h t ht => ⟨h.built.of_mem_children t ht, ?_⟩, fun h => whole_node h (absurd · hop)⟩
  have hany := (Bool.or_eq_false_iff.1 (hasBareComplement.eq_2 d op ts ▸ h.no_bare)).2
  rw [anyBare_eq_any, List.any_eq_false] at hany
  simpa using hany t ht

namespace Whole

variable {t u : Tree}

theorem union (ht : t.Whole d) (hu : u.Whole d) : (node d .union [t, u]).Whole d :=
  whole_node (List.forall_mem_cons.2 ⟨ht, List.forall_mem_singleton.2 hu⟩) nofun

theorem intersection (ht : t.Whole d) (hu : u.Whole d) : (node d .intersection [t, u]).Whole d :=
  whole_node (List.forall_mem_cons.2 ⟨ht, List.forall_mem_singleton.2 hu⟩) nofun

theorem complement (ht : t.Whole d) : (node d .complement [t]).Whole d :=
  whole_node (List.forall_mem_singleton.2 ht) fun _ => rfl

end Whole

end Tree

/-! ### Forms -/

variable {d : Domain} {K : Type} [LinearOrder K] (σ : d.Scale K)

namespace Interval

theorem top_notMem_extent (i : Interval) : .top ∉ i.extent σ := by
  unfold extent
  split
  · exact Set.notMem_empty _
  · intro h
    exact lt_irrefl _ (Domain.Scale.lt_top_of_mem_extent h)

/-- The form of a term; settling leaves no other spelling. -/
def form (i : Interval) : Form K := ⟨i.extent σ, False, i.top_notMem_extent σ, False.elim⟩

theorem settled_spans (i : Interval) : Span.Settled i.spans.value := by
  show Span.Settled i.settled?.toList
  unfold Interval.settled?
  split
  · simp [Span.Settled]
  · exact Span.settled_settled? _ _

theorem Sound.form_spans {i : Interval} (hi : i.Sound d) : σ.form i.spans.value = i.form σ := by
  obtain ⟨hcan, hsame⟩ := hi.spans_spec (σ := σ)
  apply Form.ext hsame
  exact eq_false (hcan.settled_iff.1 i.settled_spans)

/-- A term whose lower bound is not null takes null up only with everything else. -/
theorem Sound.nullFree {i : Interval} (hi : i.Sound d) (h : i.bounds.lower.isNull = false) :
    (i.form σ).NullFree := by
  intro hmem
  change .belowNull ∈ i.extent σ at hmem
  change i.extent σ = Set.Iio .top
  cases he : i.isEmpty with
  | true => simp [extent, he] at hmem
  | false =>
    have hextent : i.extent σ = σ.extent i.bounds := by simp [extent, he]
    rw [hextent] at hmem ⊢
    by_cases hall : i.bounds.isAll
    · rw [Span.isAll_iff.1 hall]
      exact Set.ext fun x => σ.mem_extent_all
    · have hle := hmem.1
      rw [σ.start_of_not_isAll (by simpa using hall)] at hle
      have hnull := σ.eq_null_of_seam hi.bounds.lower (hle.antisymm (Seam.belowNull_le _))
      rw [hnull] at h
      cases h

end Interval

namespace Tree

mutual

def form : Tree → Form K
  | leaf i => i.form σ
  | node _ op children => op.form (forms children)

def forms : List Tree → List (Form K)
  | [] => []
  | t :: ts => form t :: forms ts

end

theorem forms_eq_map (ts : List Tree) : forms σ ts = ts.map (form σ) := by
  induction ts with
  | nil => rfl
  | cons t ts ih => rw [forms, ih, List.map_cons]

theorem anyNullBound_eq_any (ts : List Tree) : anyNullBound ts = ts.any (·.hasNullBound) := by
  induction ts with
  | nil => rfl
  | cons t ts ih => rw [anyNullBound, List.any_cons, ih]

variable {σ}

theorem form_node (e : Domain) (op : SetOp) (ts : List Tree) :
    (node e op ts).form σ = op.form (ts.map (form σ)) := by
  rw [form, forms_eq_map]

@[simp] theorem form_union (e : Domain) (t u : Tree) :
    (node e .union [t, u]).form σ = t.form σ ⊔ u.form σ := by
  simp [form_node]

@[simp] theorem form_intersection (e : Domain) (t u : Tree) :
    (node e .intersection [t, u]).form σ = t.form σ ⊓ u.form σ := by
  simp [form_node]

@[simp] theorem form_complement (e : Domain) (t : Tree) :
    (node e .complement [t]).form σ = (t.form σ).complement := by
  simp [form_node]

@[simp] theorem form_empty (e : Domain) : (leaf (.empty e)).form σ = ⊥ := rfl

@[simp] theorem form_unconstrained (e : Domain) : (leaf (.unconstrained e)).form σ = ⊤ := by
  refine Form.ext (Set.ext fun x => ?_) rfl
  exact σ.mem_extent_all

/-- Where no leaf names the null marker, only everything takes it up. -/
theorem Sound.nullFree {t : Tree} (ht : t.Sound d) (h : t.hasNullBound = false) :
    (t.form σ).NullFree := by
  induction ht with
  | @leaf i hi =>
    exact hi.nullFree σ (Bool.or_eq_false_iff.1 h).1
  | @node op children _ _ ih =>
    rw [hasNullBound, anyNullBound_eq_any, List.any_eq_false] at h
    rw [form_node]
    apply SetOp.nullFree_form
    intro f hf
    obtain ⟨t, ht, rfl⟩ := List.mem_map.1 hf
    exact ih t ht (by simpa using h t ht)

/-- A tree selects what its form takes up. -/
theorem Sound.selects_iff {t : Tree} (ht : t.Sound d) {probe : Value} {p : Coordinate}
    (hp : d.point? probe = some p) : t.selects probe ↔ σ.floor p ∈ (t.form σ).seams := by
  have hpoint := Domain.point_of_point? hp
  induction ht with
  | @leaf i hi =>
    rw [selects, hi.contains_iff (σ := σ), hp]
    simp [form, Interval.form]
  | @node op children _ _ ih =>
    have hany : anySelects probe children ↔ ∃ f ∈ children.map (form σ), σ.floor p ∈ f.seams := by
      rw [anySelects_eq_any, List.any_eq_true]
      simpa using exists_congr fun t => and_congr_right fun ht => ih t ht
    have hall : allSelect probe children ↔ ∀ f ∈ children.map (form σ), σ.floor p ∈ f.seams := by
      rw [allSelect_eq_all, List.all_eq_true]
      simpa using forall_congr' fun t => imp_congr_right fun ht => ih t ht
    rw [form_node]
    generalize children.map (form σ) = fs at hany hall ⊢
    have htop := σ.floor_lt_top hpoint
    cases op with
    | union =>
      rw [selects, hany]
      exact Form.mem_sup_seams.symm
    | intersection =>
      have hmem : σ.floor p ∈ (SetOp.intersection.form fs).seams ↔
          σ.floor p < .top ∧ ∀ f ∈ fs, σ.floor p ∈ f.seams := Form.mem_inf_seams
      rw [hmem, selects, Bool.and_eq_true, hall]
      simp [hp, htop]
    | complement =>
      have hmem : σ.floor p ∈ (SetOp.complement.form fs).seams ↔
          (.aboveNull ≤ σ.floor p ∧ σ.floor p < .top) ∧ ¬∃ f ∈ fs, σ.floor p ∈ f.seams := by
        rw [← Form.mem_sup_seams]
        rfl
      rw [hmem, ← hany, σ.aboveNull_le_floor_iff hp, selects]
      simp [hp, htop]

end Tree

end SearchArgument
