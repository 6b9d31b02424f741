import SearchArgument.Proofs.Span.Union

/-! Settled spelling. A span that was settled begins at negative infinity only if it holds every
point. A union takes its lower bounds from what it is given, so it introduces no other such
span, and canonical spans it leaves as they are: settling them one by one opens no contact between
neighbours, since negative infinity and `> null` lie on one seam. -/

namespace SearchArgument

namespace Span

/-- No span but `all` begins at negative infinity. -/
def Settled (spans : List Span) : Prop := ∀ s ∈ spans, s.lower = .negInfinity → s = .all

theorem settled_settled? (cmp : Value → Value → Ordering) (s : Span) :
    Settled (s.settled? cmp).toList := by
  unfold Span.settled?
  intro t ht hinf
  split at ht
  · simp at ht
  · split at ht
    · simpa using ht
    · simp only [Option.toList_some, List.mem_singleton] at ht
      subst ht
      dsimp only at hinf
      split at hinf
      next => cases hinf
      next hfin => exact absurd (by rw [hinf]; rfl) hfin

/-! ### Settling -/

theorem settle_eq_self {s : Span} (h : s.lower = .negInfinity → s = .all) : s.settle = s := by
  by_cases hinf : s.lower = .negInfinity
  · rw [h hinf]
    rfl
  · unfold settle
    rw [if_neg hinf]
    exact ite_self s

theorem Settled.map_settle {spans : List Span} (h : Settled spans) : spans.map settle = spans := by
  conv_rhs => rw [← List.map_id spans]
  exact List.map_congr_left fun s hs => settle_eq_self (h s hs)

theorem settled_settle (spans : List Span) : Settled (spans.map settle) := by
  refine List.forall_mem_map.2 fun s _ hinf => ?_
  unfold settle at hinf ⊢
  split at hinf
  next hall =>
    rw [if_pos hall]
    exact isAll_iff.1 hall
  next hall =>
    dsimp only at hinf
    split at hinf
    next => cases hinf
    next hne => exact absurd hinf hne

/-- Settling a span that has its place in a canonical list only changes its lower cut. -/
theorem settled?_eq_settle {d : Domain} {s : Span} (hs : d.Bounds s)
    (hproper : s.isInverted d.compare = false) (hnull : s.isFromNull = false) :
    s.settled? d.compare = some s.settle := by
  unfold settled? settle
  rw [if_neg (by simp [hproper]), hnull, Bool.or_false]
  split
  next hall => rw [isAll_iff.1 hall]
  next => simp only [hs.lower.isInfinite_iff]

/-! ### Unions of canonical spans -/

variable {cmp : Value → Value → Ordering}

/-- Whatever holds of the lower cuts of the swept spans holds of those behind the sweep, and so it
is with the upper cuts. -/
theorem forall_sweep {P Q : Cut → Prop} {s : Span} {ts : List Span}
    (h : ∀ t ∈ s :: ts, P t.lower ∧ Q t.upper) :
    ∀ u ∈ sweep cmp s ts, P u.lower ∧ Q u.upper := by
  induction ts generalizing s with
  | nil => exact h
  | cons t ts ih =>
    obtain ⟨hs, hrest⟩ := List.forall_mem_cons.1 h
    obtain ⟨ht, hts⟩ := List.forall_mem_cons.1 hrest
    rw [sweep]
    split
    · refine ih (List.forall_mem_cons.2 ⟨?_, hts⟩)
      unfold extendTo
      split
      · exact ⟨hs.1, ht.2⟩
      · exact hs
    · exact List.forall_mem_cons.2 ⟨hs, ih hrest⟩

theorem forall_gather {P Q : Cut → Prop} {spans : List Span}
    (h : ∀ s ∈ spans, P s.lower ∧ Q s.upper) :
    ∀ u ∈ gather cmp spans, P u.lower ∧ Q u.upper := by
  have hsort : ∀ s ∈ sort cmp spans, P s.lower ∧ Q s.upper := fun s hs =>
    h s ((Domain.Scale.sort_perm cmp spans).mem_iff.1 hs)
  unfold gather
  split
  next => exact List.forall_mem_nil _
  next s ts hcons => exact forall_sweep (hcons ▸ hsort)

theorem lower_of_mem_gather {spans : List Span} {u : Span} (hu : u ∈ gather cmp spans) :
    ∃ s ∈ spans, u.lower = s.lower :=
  (forall_gather (P := fun c => ∃ s ∈ spans, c = s.lower) (Q := fun _ => True)
    (fun s hs => ⟨⟨s, hs, rfl⟩, trivial⟩) u hu).1

theorem sort_eq_self {spans : List Span}
    (h : spans.Pairwise fun s t => (s.compare cmp t).isLE) : sort cmp spans = spans := by
  induction spans with
  | nil => rfl
  | cons s ts ih =>
    obtain ⟨hhead, htail⟩ := List.pairwise_cons.1 h
    show insert cmp s (sort cmp ts) = s :: ts
    rw [ih htail]
    cases ts with
    | nil => rfl
    | cons t ts => rw [insert, if_pos (hhead t List.mem_cons_self)]

theorem filter_isInverted {spans : List Span} (h : ∀ s ∈ spans, s.isInverted cmp = false) :
    (spans.filter fun s => !s.isInverted cmp) = spans := by
  refine List.filter_eq_self.2 fun s hs => ?_
  rw [h s hs, Bool.not_false]

/-- Closing changes nothing where nothing is spelled anew. -/
theorem close_eq_self {spans : List Span} (hall : ∀ s ∈ spans, s.isAll = false)
    (hnull : ∀ s ∈ spans, s.isFromNull = false) : close spans = spans := by
  have hsame : (spans.map fun s => if s.isAll then nonNull else s) = spans := by
    conv_rhs => rw [← List.map_id spans]
    apply List.map_congr_left
    intro s hs
    simp [hall s hs]
  unfold close
  rw [hsame]
  split
  next s => simp [hnull s List.mem_cons_self]
  next => rfl

end Span

namespace Domain.Scale

variable {d : Domain} {K : Type} [LinearOrder K] {σ : d.Scale K}

theorem Ascending.sweep_eq_self {s : Span} {ts : List Span} (h : σ.Ascending (s :: ts)) :
    Span.sweep d.compare s ts = s :: ts := by
  induction ts generalizing s with
  | nil => rfl
  | cons t ts ih =>
    have hs := List.mem_cons_self (a := s) (l := t :: ts)
    have ht := List.mem_cons_of_mem s (List.mem_cons_self (a := t) (l := ts))
    have hgap := (List.pairwise_cons.1 h.apart).1 t List.mem_cons_self
    have hjoins := joins_iff (σ := σ) (h.bounds s hs).upper (h.bounds t ht).lower
      (seam_upper_ne_belowNull (h.proper s hs))
    rw [Span.sweep, if_neg (mt hjoins.1 (not_le.2 hgap)), ih h.tail]

theorem Ascending.gather_eq_self {spans : List Span} (h : σ.Ascending spans) :
    Span.gather d.compare spans = spans := by
  have hsort : Span.sort d.compare spans = spans := by
    apply Span.sort_eq_self
    refine h.apart.imp_of_mem fun {s t} hs ht hlt => ?_
    have hlower : s.lower.compare d.compare t.lower = .lt := by
      by_contra hn
      have hle := seam_le_of_compare_ne_lt (σ := σ) (h.bounds s hs).lower (h.bounds t ht).lower hn
      exact absurd ((h.proper s hs).trans hlt) (not_lt.2 hle)
    rw [Span.compare, hlower]
    rfl
  unfold Span.gather
  rw [hsort]
  cases spans with
  | nil => rfl
  | cons s ts => exact h.sweep_eq_self

theorem Ascending.not_isInverted {spans : List Span} (h : σ.Ascending spans) :
    ∀ s ∈ spans, s.isInverted d.compare = false := fun s hs =>
  (not_isInverted_iff (h.bounds s hs)).2 (h.proper s hs)

/-- The union of canonical spans is the spans themselves. -/
theorem Canonical.union_eq_self {spans : List Span} (h : σ.Canonical spans) :
    (Span.union d.compare spans).value = spans := by
  rw [value_union, Span.filter_isInverted h.not_isInverted]
  dsimp only
  split
  next hany =>
    obtain ⟨s, hs, hall⟩ := List.any_eq_true.1 hany
    exact (h.eq_all_of_mem (Span.isAll_iff.1 hall ▸ hs)).symm
  next hany =>
    rw [h.gather_eq_self]
    exact Span.close_eq_self (by simpa using hany) h.not_fromNull

theorem settle_spec {s : Span} (hs : d.Bounds s) :
    d.Bounds s.settle ∧ σ.seam s.settle.lower = σ.seam s.lower ∧ s.settle.upper = s.upper ∧
      s.settle.isFromNull = s.isFromNull := by
  unfold Span.settle
  split
  · exact ⟨hs, rfl, rfl, rfl⟩
  · dsimp only
    split
    next hinf =>
      have hnull : s.isFromNull = false := by
        rw [Span.isFromNull, hinf]
        rfl
      exact ⟨⟨.null _, hs.upper⟩, by rw [hinf]; rfl, rfl, hnull.symm⟩
    next => exact ⟨hs, rfl, rfl, rfl⟩

theorem extent_settle (s : Span) : σ.extent s.settle = σ.extent s := by
  unfold Span.settle
  split
  · rfl
  next hall =>
    split
    next hinf =>
      have hrespelled : (⟨.null .lower .opened, s.upper⟩ : Span).isAll = false := rfl
      rw [σ.extent_of_not_isAll hrespelled, σ.extent_of_not_isAll (by simpa using hall), between,
        between, hinf]
      rfl
    next => rfl

theorem extents_settle (spans : List Span) :
    σ.extents (spans.map Span.settle) = σ.extents spans := by
  ext x
  simp only [mem_extents, List.mem_map, exists_exists_and_eq_and, extent_settle]

/-- Canonical spans stay canonical when they are settled. -/
theorem Canonical.settle {spans : List Span} (h : σ.Canonical spans) :
    σ.Canonical (spans.map Span.settle) := by
  have hspec := fun s hs => settle_spec (σ := σ) (h.bounds s hs)
  refine ⟨⟨?_, ?_, ?_⟩, ?_⟩
  · exact List.forall_mem_map.2 fun s hs => (hspec s hs).1
  · refine List.forall_mem_map.2 fun s hs => ?_
    obtain ⟨-, hl, hu, -⟩ := hspec s hs
    rw [hl, hu]
    exact h.proper s hs
  · refine List.pairwise_map.2 (h.apart.imp_of_mem fun {s t} hs ht hlt => ?_)
    rw [(hspec s hs).2.2.1, (hspec t ht).2.1]
    exact hlt
  · refine List.forall_mem_map.2 fun s hs => ?_
    rw [(hspec s hs).2.2.2]
    exact h.not_fromNull s hs

end Domain.Scale

end SearchArgument
