import SearchArgument.Proofs.Interval.Effect
import SearchArgument.Proofs.Predicate.Lower
import SearchArgument.Proofs.Tree.Evaluation

/-! What lowering does to its literals. Apart from the tree that comes of it, lowering a predicate
is checking its literals one after the other, those of a point twice. Neither the side of a cut nor
its strictness changes the check, and a negation moves no literal, so a predicate and its negation
fail and report alike: at the first literal that the domain refuses, if there is one. -/

namespace SearchArgument

variable {d : Domain}

/-! ### Lists of literals -/

theorem Domain.value_forM_check (d : Domain) (vs : List Value) :
    (forM vs d.check).run.value =
      match vs.findSome? d.refusal? with
      | some f => .error f
      | none => .ok () := by
  induction vs with
  | nil => rfl
  | cons v vs ih =>
    rw [List.forM_cons, Attempt.value_bind, value_check, List.findSome?_cons]
    cases d.refusal? v with
    | some f => rfl
    | none => exact ih

theorem Domain.events_forM_check (d : Domain) (vs : List Value) :
    ∀ e ∈ (forM vs d.check).run.events, e = .discretized := by
  induction vs with
  | nil => exact nofun
  | cons v vs ih =>
    rw [List.forM_cons]
    cases hv : (d.check v).run.value with
    | error f =>
      rw [Attempt.events_bind_of_error hv]
      exact d.events_check v
    | ok =>
      rw [Attempt.events_bind_of_ok hv]
      exact List.forall_mem_append.2 ⟨d.events_check v, ih⟩

/-! ### The literals of a predicate -/

/-- The literal of a comparison as often as the line is cut at it: twice for a point. -/
def CompareOp.placed (literal : Value) : CompareOp → List Value
  | eq | ne => [literal, literal]
  | lt | lte | gt | gte => [literal]

namespace Predicate

/-- The literals of a list, each for both ends of a point. -/
def points (literals : List Value) : List Value := literals.flatMap fun v => [v, v]

mutual

/-- All literals from left to right, each as often as lowering cuts the line at it. -/
def placed : Predicate → List Value
  | and ps | or ps => placedAll ps
  | not p => p.placed
  | compare op v => op.placed v
  | isIn vs | isNotIn vs => points vs
  | _ => []

def placedAll : List Predicate → List Value
  | [] => []
  | p :: ps => p.placed ++ placedAll ps

end

mutual

/-- Negation leaves every literal in its place. -/
theorem placed_negate : ∀ p : Predicate, p.negate.placed = p.placed
  | always | never | isNull | isNotNull | isIn _ | isNotIn _ | not _ => rfl
  | and ps | or ps => placedAll_negateAll ps
  | compare op v => by cases op <;> rfl

theorem placedAll_negateAll : ∀ ps : List Predicate, placedAll (negateAll ps) = placedAll ps
  | [] => rfl
  | p :: ps => by rw [negateAll, placedAll, placedAll, placed_negate p, placedAll_negateAll ps]

end

theorem findSome?_points {β : Type} (g : Value → Option β) (vs : List Value) :
    (points vs).findSome? g = vs.findSome? g := by
  induction vs with
  | nil => rfl
  | cons v vs ih =>
    have hsplit : points (v :: vs) = v :: v :: points vs := rfl
    rw [hsplit, List.findSome?_cons, List.findSome?_cons, List.findSome?_cons, ih]
    cases g v <;> rfl

mutual

/-- That a literal is placed twice makes no difference to which comes first. -/
theorem findSome?_placed {β : Type} (g : Value → Option β) :
    ∀ p : Predicate, p.placed.findSome? g = p.literals.findSome? g
  | always | never | isNull | isNotNull => rfl
  | and ps | or ps => findSome?_placedAll g ps
  | not p => findSome?_placed g p
  | compare op v => by
    cases op with
    | eq | ne => exact findSome?_points g [v]
    | lt | lte | gt | gte => rfl
  | isIn vs | isNotIn vs => findSome?_points g vs

theorem findSome?_placedAll {β : Type} (g : Value → Option β) :
    ∀ ps : List Predicate, (placedAll ps).findSome? g = (literalsAll ps).findSome? g
  | [] => rfl
  | p :: ps => by
    rw [placedAll, literalsAll, List.findSome?_append, List.findSome?_append,
      findSome?_placed g p, findSome?_placedAll g ps]

end

end Predicate

/-! ### Lowering -/

theorem CompareOp.effect_lower (op : CompareOp) (v : Value) :
    (op.lower d v).effect = forM (op.placed v) d.check := by
  have hone : forM [v] d.check = d.check v := by simp
  cases op with
  | eq | ne => rw [lower, Attempt.effect_bind_pure, Interval.point, Interval.effect_setPoint]; rfl
  | lt | lte => rw [lower, Attempt.effect_bind_pure, Interval.effect_setUpper, placed, hone]; rfl
  | gt | gte => rw [lower, Attempt.effect_bind_pure, Interval.effect_setLower, placed, hone]; rfl

namespace Predicate

/-- A null that is passed over would not have been checked either. -/
theorem effect_lowerList (vs : List Value) :
    (lowerList d vs).effect = forM (points vs) d.check := by
  rw [lowerList, Attempt.effect_bind_pure]
  induction vs with
  | nil => rfl
  | cons v vs ih =>
    have hsplit : points (v :: vs) = [v, v] ++ points vs := rfl
    rw [hsplit, List.forM_append, List.filter_cons]
    split
    next hv =>
      rw [List.mapM_cons, Attempt.effect_bind_of_eq (k := forM (points vs) d.check),
        Interval.point, Interval.effect_setPoint]
      · rfl
      · intro i
        rw [Attempt.effect_bind_pure, ih]
    next hv =>
      have hv : v.isNull := by simpa using hv
      simp [ih, Domain.check_of_isNull hv]

theorem effect_lowerOutside (vs : List Value) :
    (lowerOutside d vs).effect = forM (points vs) d.check := by
  unfold lowerOutside
  split
  next hnil =>
    obtain rfl := List.isEmpty_iff.1 hnil
    rfl
  next =>
    rw [Attempt.effect_bind_of_eq (k := pure ()), effect_lowerList]
    · simp
    · intro inside
      split <;> rfl

theorem effect_lowerAll {ps : List Predicate}
    (h : ∀ p ∈ ps, (p.lower d).effect = forM p.placed d.check) :
    (lowerAll d ps).effect = forM (placedAll ps) d.check := by
  induction ps with
  | nil =>
    rw [lowerAll]
    rfl
  | cons p ps ih =>
    obtain ⟨hp, hps⟩ := List.forall_mem_cons.1 h
    rw [lowerAll, placedAll, List.forM_append,
      Attempt.effect_bind_of_eq (k := forM (placedAll ps) d.check), hp]
    intro t
    rw [Attempt.effect_bind_pure, ih hps]

/-- Apart from its tree, lowering is checking the literals as they are placed. -/
theorem effect_lower (p : Predicate) : (p.lower d).effect = forM p.placed d.check := by
  induction p using lowering_induction with
  | always | never | isNull | isNotNull =>
    rw [lower]
    rfl
  | and ps ih | or ps ih =>
    rw [lower, Attempt.effect_bind_pure, effect_lowerAll ih]
    rfl
  | not p ih =>
    rw [lower, ih, placed_negate]
    rfl
  | compare op v =>
    rw [lower]
    split
    next hv => cases op <;> simp [placed, CompareOp.placed, Domain.check_of_isNull hv]
    next => exact op.effect_lower v
  | isIn vs =>
    rw [lower, effect_lowerList]
    rfl
  | isNotIn vs =>
    rw [lower, effect_lowerOutside]
    rfl

theorem effect_lower_negate (d : Domain) (p : Predicate) :
    (p.negate.lower d).effect = (p.lower d).effect := by
  rw [effect_lower, effect_lower, placed_negate]

theorem lower_eq_error_iff {p : Predicate} {f : Fault} :
    (p.lower d).run.value = .error f ↔ p.literals.findSome? d.refusal? = some f := by
  rw [← Attempt.effect_eq_error, effect_lower, Domain.value_forM_check, findSome?_placed]
  cases p.literals.findSome? d.refusal? <;> simp

/-- Lowering fails exactly if the domain refuses a literal, with the fault of the first one. The
negation fails with the same fault or not at all, and both report as many rounded bounds and nothing
else. What lowering returns evaluates. -/
theorem lowering_fails_on_first_refusal (d : Domain) (p : Predicate) :
    ((∃ f, (p.lower d).run.value = .error f) ↔ ∃ v ∈ p.literals, v.isNull = false ∧
      ((∃ f, d.place v = .error f) ∨ d.discrete = false ∧ ∃ w, d.place v = .ok (.ceiling w))) ∧
    (∀ f, (p.lower d).run.value = .error f ↔ p.literals.findSome? d.refusal? = some f) ∧
    (∀ f, (p.negate.lower d).run.value = .error f ↔ (p.lower d).run.value = .error f) ∧
    (∃ n, (p.lower d).run.events = List.replicate n .discretized ∧
      (p.negate.lower d).run.events = List.replicate n .discretized) ∧
    ∀ t, (p.lower d).run.value = .ok t → t.Evaluates := by
  have hevents : (p.negate.lower d).run.events = (p.lower d).run.events := by
    rw [← Attempt.events_effect, effect_lower_negate, Attempt.events_effect]
  have hrounded : (p.lower d).run.events =
      List.replicate (p.lower d).run.events.length .discretized := by
    apply List.eq_replicate_of_mem
    rw [← Attempt.events_effect, effect_lower]
    exact d.events_forM_check _
  refine ⟨?_, fun f => lower_eq_error_iff, fun f => ?_, ⟨_, hrounded, hevents.trans hrounded⟩,
    fun t ht => Tree.evaluates_iff.2 (whole_lower ht).no_bare⟩
  · simp only [lower_eq_error_iff, ← Option.isSome_iff_exists, List.findSome?_isSome_iff,
      Domain.refusal?_isSome_iff]
  · rw [← Attempt.effect_eq_error, effect_lower_negate, Attempt.effect_eq_error]

/-- Neither outside a list of null and `2.625` nor at least the literal. -/
def listedBelow (literal : Value) : Predicate :=
  .not (.or [.isNotIn [.null, .decimal ⟨⟨2625, 3, by decide, by decide⟩, false⟩],
    .compare .gte literal])

/-- Over the integers a text is refused, and `2.625` is rounded. -/
theorem lowering_fails_on_first_refusal_listedBelow :
    let d := Scalar.int.domain
    let three (side : Side) (t : Strictness) : Cut := .finite (.int 3) side t
    let point : Tree := .leaf (.ofSpan d ⟨three .lower .closed, three .upper .opened⟩)
    let below : Tree := .leaf (.ofSpan d ⟨.negInfinity, .finite (.int 7) .upper .opened⟩)
    let t : Tree := .node d .intersection [.node d .union [point], below]
    ((listedBelow (.text "x")).lower d).run.value = .error (.foreignLiteral (.text "x") "int") ∧
      ((listedBelow (.text "x")).negate.lower d).run.value =
        .error (.foreignLiteral (.text "x") "int") ∧
      ((listedBelow (.int 7)).lower d).run.value = .ok t ∧ t.Evaluates := by
  intro d three point below t
  obtain ⟨-, hfirst, hnegate, -, -⟩ := lowering_fails_on_first_refusal d (listedBelow (.text "x"))
  obtain ⟨-, -, -, -, hevaluates⟩ := lowering_fails_on_first_refusal d (listedBelow (.int 7))
  have hfails := (hfirst (.foreignLiteral (.text "x") "int")).2 rfl
  have hlowers : ((listedBelow (.int 7)).lower d).run.value = .ok t := by
    simp only [listedBelow, lower, negate, negateAll, lowerAll]
    rfl
  exact ⟨hfails, (hnegate _).2 hfails, hlowers, hevaluates t hlowers⟩

end Predicate

end SearchArgument
