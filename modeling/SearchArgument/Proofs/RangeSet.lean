import Mathlib.Data.List.Forall2
import SearchArgument.Proofs.Interval
import SearchArgument.Proofs.Value
import SearchArgument.RangeSet

/-! Range sets by the seams that they take up. Membership is read off the seams, access off the
shape of the spans, and spans that ascend along the seams are canonical as cuts too: they are apart
and out of touch. -/

namespace SearchArgument

namespace RangeSet

variable {d : Domain} {K : Type} [LinearOrder K] {σ : d.Scale K}

theorem contains_iff {s : RangeSet} (hd : s.domain = d) (hb : ∀ a ∈ s.spans, d.Bounds a)
    (probe : Value) :
    s.contains probe ↔ ∃ p, d.point? probe = some p ∧ σ.floor p ∈ σ.extents s.spans := by
  have hterm : ∀ a ∈ s.spans, (Interval.ofSpan s.domain a).contains probe ↔
      ∃ p, d.point? probe = some p ∧ σ.floor p ∈ σ.extent a := fun a ha =>
    Interval.Sound.contains_iff ⟨hd, hb a ha⟩ probe
  simp only [contains, intervals, List.any_eq_true, List.mem_map, exists_exists_and_eq_and]
  constructor
  · rintro ⟨a, ha, hc⟩
    obtain ⟨p, hp, hx⟩ := (hterm a ha).1 hc
    exact ⟨p, hp, a, ha, hx⟩
  · rintro ⟨p, hp, a, ha, hx⟩
    exact ⟨a, ha, (hterm a ha).2 ⟨p, hp, hx⟩⟩

theorem contains_iff_of_point {s : RangeSet} (hd : s.domain = d) (hb : ∀ a ∈ s.spans, d.Bounds a)
    {probe : Value} {p : Coordinate} (hp : d.point? probe = some p) :
    s.contains probe ↔ σ.floor p ∈ σ.extents s.spans := by
  rw [contains_iff (σ := σ) hd hb]
  simp only [hp, Option.some.injEq, exists_eq_left']

theorem contains_null_iff {s : RangeSet} (hd : s.domain = d) (hb : ∀ a ∈ s.spans, d.Bounds a) :
    s.contains .null ↔ .belowNull ∈ σ.extents s.spans :=
  contains_iff_of_point (σ := σ) (p := .null) hd hb rfl

/-- A probe that is no point of the domain is nowhere. -/
theorem contains_eq_false {s : RangeSet} {probe : Value}
    (h : s.domain.point? probe = none) : s.contains probe = false := by
  simp [contains, intervals, Interval.contains, Interval.ofSpan, h]

/-- Access by the number of terms. -/
theorem access_mk (spans : List Span) : (mk d spans).access =
    match spans with
    | [] => .empty
    | [a] => if a.isAll then .fullScan else if a.isPoint d.compare then .point else .range
    | _ => if spans.all (·.isPoint d.compare) then .multiPoint else .mergeRange := by
  rcases spans with _ | ⟨a, _ | ⟨b, rest⟩⟩
  · rfl
  · simp [access, isEmpty, isUnconstrained, isPoint, isSingle, isOnly, intervals, size,
      Interval.isUnconstrained, Interval.isPoint, Interval.ofSpan]
  · simp [access, isEmpty, isUnconstrained, isPoint, isSingle, isMultiPoint, isOnly, intervals,
      size, Interval.isPoint, Interval.ofSpan, Function.comp_def]

/-- Access depends only on which spans are points or hold every point. -/
theorem access_congr {xs ys : List Span}
    (h : List.Forall₂ (fun a b => a.isAll = b.isAll ∧
      a.isPoint d.compare = b.isPoint d.compare) xs ys) : (mk d xs).access = (mk d ys).access := by
  have hpoints : (xs.all fun a => a.isPoint d.compare) = ys.all fun b => b.isPoint d.compare := by
    induction h with
    | nil => rfl
    | cons hab _ ih => rw [List.all_cons, List.all_cons, hab.2, ih]
  rw [access_mk, access_mk]
  cases h with
  | nil => rfl
  | cons hab hrest =>
    cases hrest with
    | nil => simp only [hab.1, hab.2]
    | cons _ _ => simp only [hpoints]

/-! ### Canonicity -/

theorem interval_canonical {a : Span} (hb : d.Bounds a)
    (hp : σ.seam a.lower < σ.seam a.upper) (hn : a.isFromNull = false) :
    (Interval.ofSpan d a).Canonical where
  not_empty := rfl
  not_inverted := (Domain.Scale.not_isInverted_iff hb).2 hp
  nulls_eq := rfl
  lower_side := hb.lower.side_eq
  lower_ne := hb.lower.ne_posInfinity
  upper_side := hb.upper.side_eq
  upper_ne := hb.upper.ne_negInfinity
  not_fromNull := hn

theorem before_of_seam_lt {a b : Span} (ha : d.Bounds a) (hb : d.Bounds b)
    (hp : σ.seam a.lower < σ.seam a.upper) (h : σ.seam a.upper < σ.seam b.lower) :
    a.Before d.compare b := by
  obtain ⟨hlt, htouch⟩ := Domain.Scale.compare_eq_lt_of_seam_lt ha.upper hb.lower
    (Domain.Scale.seam_upper_ne_belowNull hp) h
  refine ⟨hlt, htouch, fun hnull => ⟨?_, ?_⟩⟩
  · rintro he
    rw [hnull, he] at h
    exact lt_irrefl _ h
  · rintro he
    rw [hnull, he] at h
    exact lt_irrefl _ h

theorem canonical_of_scale {s : RangeSet} (hd : s.domain = d) (h : σ.Canonical s.spans) :
    s.Canonical := by
  obtain ⟨e, spans⟩ := s
  obtain rfl : e = d := hd
  have happart : ∀ (j k : ℕ) (a b : Span), j < k → spans[j]? = some a → spans[k]? = some b →
      σ.seam a.upper < σ.seam b.lower := by
    intro j k a b hjk ha hb
    obtain ⟨hj, rfl⟩ := List.getElem?_eq_some_iff.1 ha
    obtain ⟨hk, rfl⟩ := List.getElem?_eq_some_iff.1 hb
    exact List.pairwise_iff_getElem.1 h.apart j k hj hk hjk
  constructor
  case terms =>
    intro i hi
    obtain ⟨a, ha, rfl⟩ := List.mem_map.1 hi
    exact interval_canonical (h.bounds a ha) (h.proper a ha) (h.not_fromNull a ha)
  case before =>
    intro k a b ha hb
    have hma := List.mem_of_getElem? ha
    exact before_of_seam_lt (h.bounds a hma) (h.bounds b (List.mem_of_getElem? hb))
      (h.proper a hma) (happart k (k + 1) a b k.lt_succ_self ha hb)
  case alone =>
    intro i hi hall
    obtain ⟨a, ha, rfl⟩ := List.mem_map.1 hi
    obtain rfl := Span.isAll_iff.1 (by simpa [Interval.isUnconstrained, Interval.ofSpan] using hall)
    exact congrArg List.length (h.eq_all_of_mem ha)
  case first =>
    intro k b hb hnull
    by_contra hk
    have hlt : 0 < spans.length :=
      (Nat.pos_of_ne_zero hk).trans (List.getElem?_eq_some_iff.1 hb).1
    have hgap := happart 0 k spans[0] b (Nat.pos_of_ne_zero hk) (List.getElem?_eq_getElem hlt) hb
    have hne := Domain.Scale.seam_upper_ne_belowNull
      (h.proper spans[0] (List.getElem_mem hlt))
    exact not_lt.2 (Seam.aboveNull_le_of_ne hne) (hgap.trans_le
      (σ.seam_le_aboveNull (h.bounds b (List.mem_of_getElem? hb)).lower hnull))
  case last =>
    intro k a ha hinf
    obtain ⟨hk, rfl⟩ := List.getElem?_eq_some_iff.1 ha
    by_contra hlast
    have hlt : k + 1 < spans.length := lt_of_le_of_ne hk hlast
    have hgap := happart k (k + 1) _ spans[k + 1] k.lt_succ_self ha (List.getElem?_eq_getElem hlt)
    rw [hinf] at hgap
    exact not_lt.2 (Seam.le_top _) hgap

/-- Terms over a domain that are canonical as cuts ascend along its seams. -/
theorem Canonical.canonical {s : RangeSet} (h : s.Canonical) (hd : s.domain = d)
    (hb : ∀ a ∈ s.spans, d.Bounds a) : σ.Canonical s.spans := by
  obtain ⟨e, spans⟩ := s
  obtain rfl : e = d := hd
  have hterm : ∀ a ∈ spans, (Interval.ofSpan e a).Canonical := fun a ha =>
    h.terms _ (List.mem_map_of_mem ha)
  have hproper : ∀ a ∈ spans, σ.seam a.lower < σ.seam a.upper := fun a ha =>
    (Domain.Scale.not_isInverted_iff (hb a ha)).1 (hterm a ha).not_inverted
  have hnext : ∀ k a b, spans[k]? = some a → spans[k + 1]? = some b →
      σ.seam a.upper < σ.seam b.lower := by
    intro k a b ha hb'
    obtain ⟨hlt, htouch, hnull⟩ := h.before k a b ha hb'
    have hma := List.mem_of_getElem? ha
    exact Domain.Scale.seam_lt_of_compare_eq_lt (hb a hma).upper
      (hb b (List.mem_of_getElem? hb')).lower
      (Domain.Scale.seam_upper_ne_belowNull (hproper a hma)) hlt htouch hnull
  refine ⟨⟨hb, hproper, List.pairwise_iff_getElem.2 fun j k hj hk hjk => ?_⟩, fun a ha =>
    (hterm a ha).not_fromNull⟩
  induction k, hjk using Nat.le_induction with
  | base => exact hnext j _ _ (List.getElem?_eq_getElem hj) (List.getElem?_eq_getElem hk)
  | succ k hjk ih =>
    have hk' : k < spans.length := Nat.lt_of_succ_lt hk
    have hlast := hnext k _ _ (List.getElem?_eq_getElem hk') (List.getElem?_eq_getElem hk)
    exact (ih hk').trans ((hproper _ (List.getElem_mem hk')).trans hlast)

end RangeSet

/-! ### Equality

Range sets are equal if their domains have one name and their spans, one by one, equal values. They
are equal exactly if their trees are. -/

instance : EquivBEq Coordinate where
  rfl {a} := by
    cases a with
    | finite v => exact beq_self_eq_true v
    | null | negInfinity | posInfinity => rfl
  symm {a b} h := by
    cases a <;> cases b <;> first | rfl | cases h | exact PartialEquivBEq.symm (α := Value) h
  trans {a b c} h h' := by
    cases a <;> cases b <;> try first | exact h' | cases h
    cases c <;> first | cases h' | exact PartialEquivBEq.trans (α := Value) h h'

instance : ReflBEq Cut where
  rfl {c} := by
    show (c.coordinate == c.coordinate && decide (c.side = c.side) &&
      decide (c.strictness = c.strictness)) = true
    simp

instance : ReflBEq Span where
  rfl {s} := by
    show (s.lower == s.lower && s.upper == s.upper) = true
    simp

theorem Interval.ofSpan_beq_iff {d e : Domain} {a b : Span} :
    Interval.ofSpan d a == Interval.ofSpan e b ↔ d == e ∧ a == b := by
  show (d == e && a == b && true && true) = true ↔ _
  simp

/-- Trees of terms are equal exactly if the terms are. -/
theorem Tree.beqAll_terms_iff {d e : Domain} {xs ys : List Span} (hd : d == e) :
    Tree.beqAll (xs.map fun a => .leaf (.ofSpan d a)) (ys.map fun b => .leaf (.ofSpan e b)) ↔
      xs == ys := by
  induction xs generalizing ys with
  | nil => cases ys <;> simp [Tree.beqAll]
  | cons a as ih =>
    cases ys with
    | nil => simp [Tree.beqAll]
    | cons b bs =>
      show (Interval.ofSpan d a == Interval.ofSpan e b && Tree.beqAll _ _) = true ↔ _
      rw [Bool.and_eq_true, Interval.ofSpan_beq_iff, ih, List.cons_beq_cons, Bool.and_eq_true,
        and_iff_right hd]

namespace RangeSet

variable {s t : RangeSet}

theorem toTree_union (d : Domain) (a b : Span) (rest : List Span) :
    (mk d (a :: b :: rest)).toTree =
      .node d .union ((a :: b :: rest).map fun s => .leaf (.ofSpan d s)) := by
  simp [toTree, intervals]

/-- Range sets of one domain are equal if their spans are. -/
theorem beq_iff {d : Domain} (hs : s.domain = d) (ht : t.domain = d) :
    s == t ↔ s.spans == t.spans := by
  have hname : (s.domain == t.domain) = true := by
    rw [hs, ht]
    exact beq_self_eq_true d.name
  show (s.domain == t.domain && s.spans == t.spans) = true ↔ _
  rw [hname, Bool.true_and]

theorem toTree_node_beq_iff {d e : Domain} {xs ys : List Span} :
    Tree.node d .union (xs.map fun a => .leaf (.ofSpan d a)) ==
        Tree.node e .union (ys.map fun b => .leaf (.ofSpan e b)) ↔ mk d xs == mk e ys := by
  show (d == e && true && Tree.beqAll _ _) = true ↔ (d == e && xs == ys) = true
  rw [Bool.and_true, Bool.and_eq_true, Bool.and_eq_true]
  exact and_congr_right Tree.beqAll_terms_iff

/-- Range sets are equal exactly if their trees are. -/
theorem toTree_beq_iff : s.toTree == t.toTree ↔ s == t := by
  obtain ⟨d, xs⟩ := s
  obtain ⟨e, ys⟩ := t
  match xs, ys with
  | [], [] =>
    show (d == e && Span.all == Span.all && true && true) = true ↔ (d == e && true) = true
    simp
  | [], [b] =>
    show (d == e && Span.all == b && false && true) = true ↔ (d == e && false) = true
    simp
  | [a], [] =>
    show (d == e && a == Span.all && false && true) = true ↔ (d == e && false) = true
    simp
  | [a], [b] =>
    show (d == e && a == b && true && true) = true ↔ (d == e && (a == b && true)) = true
    simp
  | [], b :: c :: bs =>
    show false = true ↔ (d == e && false) = true
    simp
  | [a], b :: c :: bs =>
    show false = true ↔ (d == e && (a == b && false)) = true
    simp
  | a :: c :: as, [] =>
    show false = true ↔ (d == e && false) = true
    simp
  | a :: c :: as, [b] =>
    show false = true ↔ (d == e && (a == b && false)) = true
    simp
  | a :: c :: as, b :: c' :: bs =>
    rw [toTree_union, toTree_union]
    exact toTree_node_beq_iff

end RangeSet

end SearchArgument
