import SearchArgument.Domain.Scalar
import SearchArgument.Proofs.Interval.Effect

/-! What a series of calls leaves of a term. Every call that succeeds keeps each cut on its own side
and says by itself whether the term is empty or annotated, whatever it was before; every other call
leaves the term as it is. So the last call that succeeded decides, while the bounds may be older. -/

namespace SearchArgument

variable {d : Domain}

theorem Domain.side_cut {side : Side} {t : Strictness} {literal : Value} {c : Cut}
    (h : (d.cut side t literal).run.value = .ok c) : c.side = side := by
  obtain rfl | ⟨v, u, -, rfl⟩ := cut_eq h <;> rfl

theorem Side.eq_lower_of_ne {side : Side} (h : side ≠ .upper) : side = .lower := by
  cases side with
  | lower => rfl
  | upper => exact absurd rfl h

theorem Side.eq_upper_of_ne {side : Side} (h : side ≠ .lower) : side = .upper := by
  cases side with
  | lower => exact absurd rfl h
  | upper => rfl

namespace Interval

variable {i i' : Interval} {change : Edit} {changes : List Edit} {last : Option Edit}

/-! ### One edit -/

theorem edit_setLowerEndpoint_eq_ok {e : Endpoint}
    (h : (i.edit (.setLowerEndpoint e)).run.value = .ok i') :
    e.domain == i.domain ∧ e.cut.side = .lower ∧
      i' = ofSpan i.domain { i.bounds with lower := e.cut } := by
  simp only [edit, checkDomain] at h
  split at h
  next hname =>
    split at h
    next => cases h
    next hside =>
      cases h
      exact ⟨hname, Side.eq_lower_of_ne hside, rfl⟩
  next => cases h

theorem edit_setUpperEndpoint_eq_ok {e : Endpoint}
    (h : (i.edit (.setUpperEndpoint e)).run.value = .ok i') :
    e.domain == i.domain ∧ e.cut.side = .upper ∧
      i' = ofSpan i.domain { i.bounds with upper := e.cut } := by
  simp only [edit, checkDomain] at h
  split at h
  next hname =>
    split at h
    next => cases h
    next hside =>
      cases h
      exact ⟨hname, Side.eq_upper_of_ne hside, rfl⟩
  next => cases h

/-- A term of the domain behind calls of which `last` is the last that succeeded. -/
structure Behind (d : Domain) (last : Option Edit) (i : Interval) : Prop where
  domain_eq : i.domain = d
  lower_side : i.bounds.lower.side = .lower
  upper_side : i.bounds.upper.side = .upper
  isEmpty_iff : i.isEmpty ↔ last = some .setEmpty
  annotated_iff : i.nulls = .matchesNull ↔ last = some .setNull ∨ last = some (.setPoint .null)
  eq_null : i.nulls = .matchesNull → i = null d

theorem behind_unconstrained (d : Domain) : (unconstrained d).Behind d none :=
  ⟨rfl, rfl, rfl, ⟨nofun, nofun⟩, ⟨nofun, nofun⟩, nofun⟩

/-- A term without annotation, behind a call that neither empties it nor sets it to null. -/
theorem behind_ofSpan {s : Span} (hl : s.lower.side = .lower) (hu : s.upper.side = .upper)
    (h : change ≠ .setEmpty ∧ change ≠ .setNull ∧ change ≠ .setPoint .null) :
    (ofSpan d s).Behind d (some change) where
  domain_eq := rfl
  lower_side := hl
  upper_side := hu
  isEmpty_iff := by simp [ofSpan, h]
  annotated_iff := by simp [ofSpan, h]
  eq_null := nofun

theorem behind_null (d : Domain) (h : change = .setNull ∨ change = .setPoint .null) :
    (null d).Behind d (some change) where
  domain_eq := rfl
  lower_side := rfl
  upper_side := rfl
  isEmpty_iff := by obtain rfl | rfl := h <;> simp [null]
  annotated_iff := by simpa [null] using h
  eq_null _ := rfl

/-- An edit that succeeds keeps the sides of the cuts and alone decides the rest. -/
theorem Behind.edit (hi : i.Behind d last) (h : (i.edit change).run.value = .ok i') :
    i'.Behind d (some change) := by
  obtain ⟨rfl, hl, hu, -, -, -⟩ := hi
  cases change with
  | setPoint v =>
    simp only [Interval.edit] at h
    split at h
    next hv =>
      cases h
      cases v with
      | null => exact behind_null _ (.inr rfl)
      | bool | decimal | int | text | uint => cases hv
    next hv =>
      obtain ⟨a, ha, h⟩ := Attempt.bind_eq_ok.1 h
      obtain ⟨b, hb, h⟩ := Attempt.bind_eq_ok.1 h
      cases h
      have hne : v ≠ .null := by
        rintro rfl
        exact hv rfl
      exact behind_ofSpan (Domain.side_cut ha) (Domain.side_cut hb) (by simpa using hne)
  | setLower v t =>
    obtain ⟨a, ha, h⟩ := Attempt.bind_eq_ok.1 h
    cases h
    exact behind_ofSpan (Domain.side_cut ha) hu (by simp)
  | setUpper v t =>
    obtain ⟨b, hb, h⟩ := Attempt.bind_eq_ok.1 h
    cases h
    exact behind_ofSpan hl (Domain.side_cut hb) (by simp)
  | setLowerEndpoint e =>
    obtain ⟨-, he, rfl⟩ := edit_setLowerEndpoint_eq_ok h
    exact behind_ofSpan he hu (by simp)
  | setUpperEndpoint e =>
    obtain ⟨-, he, rfl⟩ := edit_setUpperEndpoint_eq_ok h
    exact behind_ofSpan hl he (by simp)
  | unsetLower =>
    cases h
    exact behind_ofSpan rfl hu (by simp)
  | unsetUpper =>
    cases h
    exact behind_ofSpan hl rfl (by simp)
  | setNull =>
    cases h
    exact behind_null _ (.inl rfl)
  | setEmpty =>
    cases h
    exact ⟨rfl, hl, hu, by simp, by simp, by simp⟩
  | setUnconstrained =>
    cases h
    exact behind_ofSpan rfl rfl (by simp)

/-! ### A series of calls -/

theorem value_offer (i : Interval) (change : Edit) :
    (i.offer change).value =
      match (i.edit change).run.value with
      | .ok i' => (.ok (), i')
      | .error f => (.error f, i) := by
  rw [offer, Recorded.value_bind]
  cases (i.edit change).run.value <;> rfl

theorem events_offer (i : Interval) (change : Edit) :
    (i.offer change).events = (i.edit change).run.events := by
  rw [offer, Recorded.events_bind]
  cases (i.edit change).run.value <;> exact List.append_nil _

theorem offerAll_cons (i : Interval) (change : Edit) (changes : List Edit) :
    i.offerAll (change :: changes) = (i.offer change).value.2.offerAll changes := rfl

/-- The last of the calls that succeed decides what is behind them. -/
theorem Behind.offerAll (hi : i.Behind d last) (changes : List Edit) :
    (i.offerAll changes).Behind d ((i.applied changes).getLast?.or last) := by
  induction changes generalizing i last with
  | nil => exact hi
  | cons change changes ih =>
    rw [offerAll_cons, applied, value_offer]
    cases h : (i.edit change).run.value with
    | ok i' =>
      have hnext := ih (hi.edit h)
      dsimp only
      rw [List.getLast?_cons]
      cases hlast : (i'.applied changes).getLast? with
      | none => rwa [hlast] at hnext
      | some c => rwa [hlast] at hnext
    | error f => exact ih hi

/-- Endpoints from outside are taken only if they have the name of the domain. -/
theorem Behind.name_of_applied (hi : i.Behind d last) {e : Endpoint}
    (h : .setLowerEndpoint e ∈ i.applied changes ∨ .setUpperEndpoint e ∈ i.applied changes) :
    e.domain == d := by
  induction changes generalizing i last with
  | nil => exact absurd h (by simp [applied])
  | cons change changes ih =>
    rw [applied, value_offer] at h
    cases hc : (i.edit change).run.value with
    | error f =>
      rw [hc] at h
      exact ih hi h
    | ok i' =>
      rw [hc] at h
      simp only [List.mem_cons] at h
      obtain (rfl | h) | (rfl | h) := h
      · exact hi.domain_eq ▸ (edit_setLowerEndpoint_eq_ok hc).1
      · exact ih (hi.edit hc) (.inl h)
      · exact hi.domain_eq ▸ (edit_setUpperEndpoint_eq_ok hc).1
      · exact ih (hi.edit hc) (.inr h)

/-- Whatever is called on a fresh term, its cuts stay on their own sides and in its domain, the
last call that succeeded alone decides whether it is empty or annotated, only the null point is
annotated, and a call that fails neither changes the term nor reports anything. -/
theorem calls_keep_representation (d : Domain) (changes : List Edit) :
    let i := (unconstrained d).offerAll changes
    let calls := (unconstrained d).applied changes
    (i.lower.cut.side = .lower ∧ i.lower.cut ≠ .posInfinity) ∧
    (i.upper.cut.side = .upper ∧ i.upper.cut ≠ .negInfinity) ∧
    (i.lower.domain = d ∧ i.upper.domain = d ∧ ∀ e,
      .setLowerEndpoint e ∈ calls ∨ .setUpperEndpoint e ∈ calls → e.domain == d) ∧
    (i.isEmpty ↔ calls.getLast? = some .setEmpty) ∧
    (i.nulls = .matchesNull ↔
      calls.getLast? = some .setNull ∨ calls.getLast? = some (.setPoint .null)) ∧
    (i.nulls = .matchesNull → i = null d ∧ i.isNull ∧ i.contains .null) ∧
    ∀ change f, (i.offer change).value.1 = .error f →
      (i.offer change).value.2 = i ∧ (i.offer change).events = [] := by
  intro i calls
  have hfresh := behind_unconstrained d
  obtain ⟨hd, hl, hu, hempty, hannotated, hnull⟩ := hfresh.offerAll changes
  rw [Option.or_none] at hempty hannotated
  refine ⟨⟨hl, ?_⟩, ⟨hu, ?_⟩, ⟨hd, hd, fun e he => hfresh.name_of_applied he⟩, hempty, hannotated,
    fun h => ⟨hnull h, ?_⟩, fun change f hf => ?_⟩
  · intro he
    cases hl.symm.trans (congrArg Cut.side he)
  · intro he
    cases hu.symm.trans (congrArg Cut.side he)
  · have hi : i = null d := hnull h
    rw [hi]
    exact ⟨rfl, rfl⟩
  · rw [events_offer]
    rw [value_offer] at hf ⊢
    cases hc : (i.edit change).run.value with
    | ok i' =>
      rw [hc] at hf
      cases hf
    | error f' => exact ⟨rfl, events_edit_of_error hc⟩

/-- The bounds of an emptied term come back with the next one, here `8.5`, until it is emptied
again. A text and an endpoint of another domain are refused in between. -/
def emptiedTwice : List Edit :=
  [.setLower (.int 3) .closed, .setEmpty, .setLower (.text "x") .opened,
    .setUpper (.decimal ((Decimal.ofScaled? 85 1).getD .zero)) .closed, .setEmpty,
    .setUpperEndpoint (.fresh Scalar.text.domain)]

theorem calls_keep_representation_emptiedTwice :
    let i := (unconstrained Scalar.int.domain).offerAll emptiedTwice
    i.bounds = ⟨.finite (.int 3) .lower .closed, .finite (.int 9) .upper .opened⟩ ∧ i.isEmpty ∧
      (i.offer (.setPoint (.text "x"))).value.1 = .error (.foreignLiteral (.text "x") "int") ∧
      (i.offer (.setPoint (.text "x"))).value.2 = i ∧
      (i.offer (.setPoint (.text "x"))).events = [] := by
  intro i
  obtain ⟨-, -, -, hempty, -, -, hfails⟩ := calls_keep_representation Scalar.int.domain emptiedTwice
  obtain ⟨hsame, hsilent⟩ := hfails (.setPoint (.text "x")) _ rfl
  exact ⟨rfl, hempty.2 rfl, rfl, hsame, hsilent⟩

end Interval

end SearchArgument
