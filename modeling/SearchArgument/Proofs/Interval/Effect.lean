import SearchArgument.Proofs.Interval

/-! What edits do apart from the term that comes of them. Cutting the line at a literal is
checking it: neither the side of the cut nor its strictness changes whether the literal is refused
or reported as rounded. A literal that is refused is not reported, so an edit that fails reports
nothing. -/

namespace SearchArgument

variable {d : Domain}

/-! ### Literals -/

namespace Domain

/-- What cutting the line at a literal does, apart from the cut. -/
def check (d : Domain) (literal : Value) : Attempt Unit := (d.cut .lower .closed literal).effect

theorem effect_cut (d : Domain) (side : Side) (t : Strictness) (literal : Value) :
    (d.cut side t literal).effect = d.check literal := by
  unfold check cut
  split
  · simp
  · cases d.place literal with
    | error f => rfl
    | ok p =>
      cases p with
      | member v => rfl
      | ceiling v =>
        dsimp only
        cases d.discrete <;> rfl

/-- Null is no literal to check. -/
theorem check_of_isNull {v : Value} (hv : v.isNull) : d.check v = pure () := by
  rw [check, cut, if_pos hv, Attempt.effect_pure]

theorem value_check (d : Domain) (literal : Value) :
    (d.check literal).run.value =
      match d.refusal? literal with
      | some f => .error f
      | none => .ok () := by
  rw [check, Attempt.value_effect, value_cut, refusal?]
  split
  · rfl
  · cases d.place literal with
    | error f => rfl
    | ok p =>
      cases p with
      | member v => rfl
      | ceiling v =>
        dsimp only
        cases d.discrete <;> rfl

theorem events_check (d : Domain) (literal : Value) :
    ∀ e ∈ (d.check literal).run.events, e = .discretized := by
  unfold check cut
  rw [Attempt.events_effect]
  split
  · exact nofun
  · cases d.place literal with
    | error f => exact nofun
    | ok p =>
      cases p with
      | member v => exact nofun
      | ceiling v =>
        dsimp only
        cases d.discrete with
        | true => exact List.forall_mem_singleton.2 rfl
        | false => exact nofun

/-- A literal that is refused is not reported. -/
theorem events_check_of_error {literal : Value} {f : Fault}
    (h : (d.check literal).run.value = .error f) : (d.check literal).run.events = [] := by
  unfold check cut at h ⊢
  rw [Attempt.effect_eq_error] at h
  rw [Attempt.events_effect]
  revert h
  split
  · exact nofun
  · cases d.place literal with
    | error f => exact fun _ => rfl
    | ok p =>
      cases p with
      | member v => exact nofun
      | ceiling v =>
        dsimp only
        cases d.discrete with
        | true => exact nofun
        | false => exact fun _ => rfl

/-- A literal is refused that the domain rejects, or rounds without being discrete. -/
theorem refusal?_isSome_iff {v : Value} : (d.refusal? v).isSome ↔ v.isNull = false ∧
    ((∃ f, d.place v = .error f) ∨ d.discrete = false ∧ ∃ w, d.place v = .ok (.ceiling w)) := by
  unfold refusal?
  cases v.isNull with
  | true => simp
  | false =>
    cases d.place v with
    | error f => simp
    | ok p =>
      cases p with
      | member w => simp
      | ceiling w => cases d.discrete <;> simp

end Domain

/-! ### Edits -/

namespace Interval

theorem effect_setPoint (i : Interval) (v : Value) :
    (i.edit (.setPoint v)).effect = forM [v, v] i.domain.check := by
  simp only [edit]
  split
  next hv => simp [Domain.check_of_isNull hv]
  next =>
    rw [Attempt.effect_bind_of_eq (k := i.domain.check v), Domain.effect_cut]
    · simp
    · intro lower
      rw [Attempt.effect_bind_pure, Domain.effect_cut]

theorem effect_setLower (i : Interval) (t : Strictness) (v : Value) :
    (i.edit (.setLower v t)).effect = i.domain.check v := by
  rw [edit, Attempt.effect_bind_pure, Domain.effect_cut]

theorem effect_setUpper (i : Interval) (t : Strictness) (v : Value) :
    (i.edit (.setUpper v t)).effect = i.domain.check v := by
  rw [edit, Attempt.effect_bind_pure, Domain.effect_cut]

theorem events_setLowerEndpoint (i : Interval) (e : Endpoint) :
    (i.edit (.setLowerEndpoint e)).run.events = [] := by
  simp only [edit, checkDomain]
  split
  · split <;> rfl
  · rfl

theorem events_setUpperEndpoint (i : Interval) (e : Endpoint) :
    (i.edit (.setUpperEndpoint e)).run.events = [] := by
  simp only [edit, checkDomain]
  split
  · split <;> rfl
  · rfl

/-- An edit that fails reports nothing. A point is cut from both sides, but its literal is refused
at the first cut if it is refused at all. -/
theorem events_edit_of_error {i : Interval} {change : Edit} {f : Fault}
    (h : (i.edit change).run.value = .error f) : (i.edit change).run.events = [] := by
  cases change with
  | setPoint v =>
    rw [← Attempt.effect_eq_error, effect_setPoint] at h
    rw [← Attempt.events_effect, effect_setPoint]
    rw [List.forM_cons] at h ⊢
    cases hv : (i.domain.check v).run.value with
    | error f' => rw [Attempt.events_bind_of_error hv, Domain.events_check_of_error hv]
    | ok =>
      -- the second cut finds nothing to refuse either
      simp only [List.forM_cons, List.forM_nil, Attempt.value_bind, hv, Attempt.value_pure] at h
      cases h
  | setLower v t =>
    rw [← Attempt.effect_eq_error, effect_setLower] at h
    rw [← Attempt.events_effect, effect_setLower, Domain.events_check_of_error h]
  | setUpper v t =>
    rw [← Attempt.effect_eq_error, effect_setUpper] at h
    rw [← Attempt.events_effect, effect_setUpper, Domain.events_check_of_error h]
  | setLowerEndpoint e => exact i.events_setLowerEndpoint e
  | setUpperEndpoint e => exact i.events_setUpperEndpoint e
  | unsetLower | unsetUpper | setNull | setEmpty | setUnconstrained => cases h

end Interval

end SearchArgument
