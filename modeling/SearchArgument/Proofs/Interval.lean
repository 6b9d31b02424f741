import SearchArgument.Proofs.Span.Union
import SearchArgument.Tree

/-! Terms of a domain. Every cut that the setters and edits bring about bounds ranges of the
domain from its own side, at a value that the domain holds. A term matches a probe exactly
if its bounds take up the seam below it, and settling a term changes only its spelling. -/

namespace SearchArgument

variable {d : Domain}

/-! ### Bounds -/

/-- The cut of a literal, apart from what is reported. -/
theorem Domain.value_cut (d : Domain) (side : Side) (t : Strictness) (literal : Value) :
    (d.cut side t literal).run.value =
      if literal.isNull then .ok (.null side t)
      else match d.place literal with
        | .error f => .error f
        | .ok (.member v) => .ok (.finite v side t)
        | .ok (.ceiling v) =>
          if d.discrete then
            .ok (.finite v side (match side with | .lower => .closed | .upper => .opened))
          else .error (.roundedByContinuous literal d.name) := by
  unfold Domain.cut
  split
  · rfl
  · rw [Attempt.value_bind, Attempt.value_liftExcept]
    cases d.place literal with
    | error f => rfl
    | ok p =>
      cases p with
      | member v => rfl
      | ceiling v =>
        dsimp only
        cases d.discrete <;> rfl

theorem Domain.cut_eq {side : Side} {t : Strictness} {literal : Value} {c : Cut}
    (h : (d.cut side t literal).run.value = .ok c) :
    c = .null side t ∨ ∃ v u, d.Holds v ∧ c = .finite v side u := by
  rw [value_cut] at h
  split at h
  · cases h
    exact .inl rfl
  next hn =>
    have hn : literal.isNull = false := by simpa using hn
    right
    split at h
    next => cases h
    next v hp =>
      cases h
      exact ⟨v, t, ⟨literal, hn, .inl hp⟩, rfl⟩
    next v hp =>
      split at h
      · cases h
        exact ⟨v, _, ⟨literal, hn, .inr hp⟩, rfl⟩
      · cases h

/-- The cut at a member needs no rounding. -/
theorem Domain.Member.cut_eq {v : Value} (h : d.Member v) (side : Side) (t : Strictness) :
    d.cut side t v = pure (.finite v side t) := by
  unfold Domain.cut
  rw [if_neg (by simp [h.1]), h.2]
  rfl

theorem Domain.lower_cut {t : Strictness} {literal : Value} {c : Cut}
    (h : (d.cut .lower t literal).run.value = .ok c) : d.Lower c := by
  rcases cut_eq h with rfl | ⟨v, u, hv, rfl⟩
  · exact .null t
  · exact .finite u hv

theorem Domain.upper_cut {t : Strictness} {literal : Value} {c : Cut}
    (h : (d.cut .upper t literal).run.value = .ok c) : d.Upper c := by
  rcases cut_eq h with rfl | ⟨v, u, hv, rfl⟩
  · exact .null t
  · exact .finite u hv

theorem Endpoint.Built.sound {e : Endpoint} (h : e.Built (· = d)) :
    e.domain = d ∧ (d.Lower e.cut ∨ d.Upper e.cut) := by
  induction h with
  | fresh hd => exact ⟨hd, .inl .negInfinity⟩
  | negInfinity _ ih => exact ⟨ih.1, .inl .negInfinity⟩
  | posInfinity _ ih => exact ⟨ih.1, .inr .posInfinity⟩
  | @finite e e' side t literal _ hset ih =>
    obtain ⟨rfl, -⟩ := ih
    obtain ⟨c, hc, he⟩ := Attempt.bind_eq_ok.1 hset
    cases he
    refine ⟨rfl, ?_⟩
    cases side with
    | lower => exact .inl (Domain.lower_cut hc)
    | upper => exact .inr (Domain.upper_cut hc)

namespace Interval

/-- A term of the domain, with a cut of the domain on either side. -/
structure Sound (d : Domain) (i : Interval) : Prop where
  domain_eq : i.domain = d
  bounds : d.Bounds i.bounds

theorem sound_unconstrained (d : Domain) : (unconstrained d).Sound d :=
  ⟨rfl, .negInfinity, .posInfinity⟩

theorem sound_null (d : Domain) : (null d).Sound d := ⟨rfl, .null _, .null _⟩

/-- An edit keeps the domain and the sides of the cuts. -/
theorem Sound.edit {i i' : Interval} {change : Edit} (hi : i.Sound d) (hc : change.Built (· = d))
    (h : (i.edit change).run.value = .ok i') : i'.Sound d := by
  obtain ⟨rfl, hl, hu⟩ := hi
  cases change with
  | setPoint v =>
    simp only [Interval.edit] at h
    split at h
    · cases h
      exact sound_null _
    · obtain ⟨a, ha, h⟩ := Attempt.bind_eq_ok.1 h
      obtain ⟨b, hb, h⟩ := Attempt.bind_eq_ok.1 h
      cases h
      exact ⟨rfl, Domain.lower_cut ha, Domain.upper_cut hb⟩
  | setLower v t =>
    obtain ⟨a, ha, h⟩ := Attempt.bind_eq_ok.1 h
    cases h
    exact ⟨rfl, Domain.lower_cut ha, hu⟩
  | setUpper v t =>
    obtain ⟨b, hb, h⟩ := Attempt.bind_eq_ok.1 h
    cases h
    exact ⟨rfl, hl, Domain.upper_cut hb⟩
  | setLowerEndpoint e =>
    obtain ⟨-, hside⟩ := Endpoint.Built.sound hc
    obtain ⟨_, -, h⟩ := Attempt.bind_eq_ok.1 h
    rcases hside with he | he
    · rw [he.side_eq] at h
      cases h
      exact ⟨rfl, he, hu⟩
    · rw [he.side_eq] at h
      cases h
  | setUpperEndpoint e =>
    obtain ⟨-, hside⟩ := Endpoint.Built.sound hc
    obtain ⟨_, -, h⟩ := Attempt.bind_eq_ok.1 h
    rcases hside with he | he
    · rw [he.side_eq] at h
      cases h
    · rw [he.side_eq] at h
      cases h
      exact ⟨rfl, hl, he⟩
  | unsetLower =>
    cases h
    exact ⟨rfl, .negInfinity, hu⟩
  | unsetUpper =>
    cases h
    exact ⟨rfl, hl, .posInfinity⟩
  | setNull =>
    cases h
    exact sound_null _
  | setEmpty =>
    cases h
    exact ⟨rfl, hl, hu⟩
  | setUnconstrained =>
    cases h
    exact sound_unconstrained _

theorem Built.sound {i : Interval} (h : i.Built (· = d)) : i.Sound d := by
  induction h with
  | unconstrained hd => exact hd ▸ sound_unconstrained _
  | edited _ hc he ih => exact ih.edit hc he

theorem built_unconstrained (d : Domain) : (unconstrained d).Built (· = d) := .unconstrained rfl

theorem built_edit (change : Edit) {i : Interval} (hc : change.Built (· = d))
    (h : ((unconstrained d).edit change).run.value = .ok i) : i.Built (· = d) :=
  .edited (built_unconstrained d) hc h

theorem built_null (d : Domain) : (null d).Built (· = d) :=
  built_edit .setNull trivial rfl

theorem built_empty (d : Domain) : (empty d).Built (· = d) :=
  built_edit .setEmpty trivial rfl

/-! ### Membership and settling -/

variable {K : Type} [LinearOrder K] {σ : d.Scale K}

def extent (σ : d.Scale K) (i : Interval) : Set (Seam K) :=
  if i.isEmpty then ∅ else σ.extent i.bounds

theorem Sound.contains_iff {i : Interval} (hi : i.Sound d) (probe : Value) :
    i.contains probe ↔ ∃ p, d.point? probe = some p ∧ σ.floor p ∈ i.extent σ := by
  obtain ⟨rfl, hb⟩ := hi
  unfold contains extent
  cases hp : i.domain.point? probe with
  | none => simp
  | some p =>
    cases he : i.isEmpty with
    | true => simp
    | false =>
      simpa using Domain.Scale.covers_iff (σ := σ) hb (Domain.point_of_point? hp)

/-- The settled span of a term is spelled canonically and takes up what the term does. -/
theorem settled?_spec {s : Span} (hs : d.Bounds s) :
    σ.Canonical (s.settled? d.compare).toList ∧
      σ.extents (s.settled? d.compare).toList = σ.extent s := by
  unfold Span.settled?
  split
  next hinv =>
    refine ⟨.nil, ?_⟩
    rw [Domain.Scale.extent_of_isInverted hs hinv]
    exact σ.extents_nil
  next hinv =>
    have hp := (Domain.Scale.not_isInverted_iff (σ := σ) hs).1 (by simpa using hinv)
    split
    next hfull =>
      refine ⟨Domain.Scale.canonical_all, Set.ext fun x => ?_⟩
      rw [Option.toList_some, σ.extents_singleton, σ.mem_extent_all]
      rcases Bool.or_eq_true_iff.1 hfull with hall | hnull
      · rw [Span.isAll_iff.1 hall, σ.mem_extent_all]
      · rw [(Domain.Scale.isFromNull_iff hs).1 hnull]
        simp [Domain.Scale.start, Span.isAll, Domain.Scale.seam]
    next hfull =>
      obtain ⟨hall, hnull⟩ : s.isAll = false ∧ s.isFromNull = false := by simpa using hfull
      obtain ⟨a, b⟩ := s
      have ha := hs.lower
      cases ha with
      | negInfinity =>
        refine ⟨.singleton ⟨.null _, hs.upper⟩ hp rfl, ?_⟩
        rw [Option.toList_some, σ.extents_singleton, σ.extent_of_not_isAll hall]
        exact σ.extent_of_not_isAll rfl
      | null t => exact ⟨.singleton hs hp hnull, σ.extents_singleton _⟩
      | finite t hv => exact ⟨.singleton hs hp hnull, σ.extents_singleton _⟩

theorem Sound.spans_spec {i : Interval} (hi : i.Sound d) :
    σ.Canonical i.spans.value ∧ σ.extents i.spans.value = i.extent σ := by
  obtain ⟨rfl, hb⟩ := hi
  show σ.Canonical i.settled?.toList ∧ σ.extents i.settled?.toList = i.extent σ
  unfold Interval.settled? extent
  split
  · exact ⟨.nil, σ.extents_nil⟩
  · exact settled?_spec hb

end Interval

end SearchArgument
