import SearchArgument.Domain.Scalar
import SearchArgument.Proofs.Predicate.Lower

/-! The calls of lowering. A call for a negation goes on with a new predicate, which is no part of
the old one, but it has no more nodes than what stood below the negation. So calls nest no deeper
than there are nodes. How many there are does not depend on what they return: one for each node,
less the negations that cancel against others. -/

namespace SearchArgument.Predicate

variable {d : Domain}

/-! ### Counting -/

namespace Metered

variable {α β : Type}

/-- Counts `n` calls at once. -/
def count (n : ℕ) : Metered Unit := modify (· + n)

theorem count_add (m n : ℕ) : count (m + n) = (do count m; count n) := by
  ext c
  simp only [count, Nat.add_assoc, StateT.run_modify, StateT.run_bind, pure_bind]

/-- What is attempted neither reads nor changes the count. -/
theorem lift_count (m : Attempt α) (n : ℕ) (f : α → Metered β) :
    (do let a ← liftM m; count n; f a) = (do count n; let a ← liftM m; f a) := by
  ext c
  simp [count]

end Metered

/-! ### Calls -/

open Metered

/-- Lowering runs its own body. -/
theorem lower_eq_lowerCall (d : Domain) (p : Predicate) : p.lower d = lowerCall d (lower d) p := by
  cases p with
  | and ps | or ps =>
    rw [lower, lowerAll_eq_mapM]
    rfl
  | _ =>
    rw [lower]
    rfl

mutual

/-- The calls for a predicate, or for what it negates to. A negation takes one of its own unless it
cancels against another. -/
def calls (negated : Bool) : Predicate → ℕ
  | and ps | or ps => callsAll negated ps + 1
  | not p => p.calls (!negated) + if negated then 0 else 1
  | _ => 1

def callsAll (negated : Bool) : List Predicate → ℕ
  | [] => 0
  | p :: ps => p.calls negated + callsAll negated ps

end

mutual

theorem calls_le_size (negated : Bool) : ∀ p : Predicate, p.calls negated ≤ p.size
  | always | never | compare _ _ | isIn _ | isNotIn _ | isNull | isNotNull => le_refl 1
  | and ps | or ps => Nat.succ_le_succ (callsAll_le_sizes negated ps)
  | not p => Nat.add_le_add (calls_le_size _ p) (by split <;> decide)

theorem callsAll_le_sizes (negated : Bool) : ∀ ps : List Predicate,
    callsAll negated ps ≤ sizes ps
  | [] => le_refl 0
  | p :: ps => Nat.add_le_add (calls_le_size negated p) (callsAll_le_sizes negated ps)

end

mutual

theorem calls_negate : ∀ p : Predicate, p.negate.calls false = p.calls true
  | always | never | compare _ _ | isIn _ | isNotIn _ | isNull | isNotNull | not _ => rfl
  | and ps | or ps => congrArg (· + 1) (callsAll_negateAll ps)

theorem callsAll_negateAll : ∀ ps : List Predicate,
    callsAll false (negateAll ps) = callsAll true ps
  | [] => rfl
  | p :: ps => congrArg₂ (· + ·) (calls_negate p) (callsAll_negateAll ps)

end

theorem size_le_sizes {p : Predicate} {ps : List Predicate} (h : p ∈ ps) : p.size ≤ sizes ps := by
  induction h with
  | head => exact Nat.le_add_right _ _
  | tail _ _ ih => exact ih.trans (Nat.le_add_left _ _)

variable {next : Predicate → Metered Tree} {ps : List Predicate}

/-- Where every call counts and then lowers, a list of calls counts them all and then lowers. -/
theorem mapM_count (h : ∀ p ∈ ps, next p = (do count (p.calls false); liftM (p.lower d))) :
    ps.mapM next = (do count (callsAll false ps); liftM (ps.mapM (lower d))) := by
  induction ps with
  | nil => rfl
  | cons p ps ih =>
    obtain ⟨hp, hps⟩ := List.forall_mem_cons.1 h
    calc (p :: ps).mapM next
      _ = (do
          count (p.calls false)
          let t ← liftM (p.lower d)
          count (callsAll false ps)
          let ts ← liftM (ps.mapM (lower d))
          return t :: ts) := by
        rw [List.mapM_cons, hp, ih hps]
        simp only [bind_assoc]
      _ = (do
          count (p.calls false)
          count (callsAll false ps)
          let t ← liftM (p.lower d)
          let ts ← liftM (ps.mapM (lower d))
          return t :: ts) := by
        rw [lift_count]
      _ = (do count (callsAll false (p :: ps)); liftM ((p :: ps).mapM (lower d))) := by
        rw [callsAll, count_add, List.mapM_cons, bind_assoc, liftM_bind]
        simp only [liftM_bind, liftM_pure]

theorem node_count (h : ∀ p ∈ ps, next p = (do count (p.calls false); liftM (p.lower d)))
    (f : List Tree → Tree) :
    (do return f (← ps.mapM next) : Metered Tree) =
      (do count (callsAll false ps)
          liftM (do return f (← ps.mapM (lower d)) : Attempt Tree)) := by
  rw [mapM_count h, bind_assoc, liftM_bind]
  rfl

/-- Where calls may nest as deeply as there are nodes, metered lowering is to count all calls at
once and then to lower. -/
theorem lowerMetered_eq {depth : ℕ} {p : Predicate} (h : p.size ≤ depth) :
    lowerMetered d depth p = (do count (p.calls false); liftM (p.lower d)) := by
  induction depth generalizing p with
  | zero => exact absurd h (Nat.not_le.2 p.size_pos)
  | succ depth ih =>
    rw [lower_eq_lowerCall]
    show (do count 1; lowerCall d (lowerMetered d depth) p) = _
    cases p with
    | and ps | or ps =>
      have hps : ∀ p ∈ ps, p.size ≤ depth := fun p hp =>
        (size_le_sizes hp).trans (Nat.le_of_succ_le_succ h)
      rw [lowerCall, node_count fun p hp => ih (hps p hp), ← bind_assoc, ← count_add,
        Nat.add_comm]
      rfl
    | not p =>
      have hp : p.negate.size ≤ depth := p.size_negate_le.trans (Nat.le_of_succ_le_succ h)
      rw [lowerCall, ih hp, ← bind_assoc, ← count_add, calls_negate, Nat.add_comm]
      rfl
    | compare op v =>
      rw [lowerCall, lowerCall]
      split <;> rfl
    | _ => rfl

/-- Pushing a negation inwards takes away as many nodes as it meets negations. So lowering, which
goes on with what a negation pushes inwards, comes to an end for every predicate: it nests no more
calls than there are nodes, and if it succeeds it has made no more of them either. -/
theorem lowering_calls_bounded (d : Domain) (p : Predicate) :
    p.negate.size + p.outerNots = p.size ∧ p.negate.size ≤ p.size ∧
      ∃ calls ≤ p.size, ∀ depth, p.size ≤ depth →
        ((lowerMetered d depth p).run 0).run = (do return some (← p.lower d, calls)) := by
  refine ⟨p.size_negate, p.size_negate_le, p.calls false, p.calls_le_size false, ?_⟩
  intro depth hdepth
  rw [lowerMetered_eq hdepth]
  simp [count]

/-- Four negations, of which the second stands below the first and cancels against it. -/
def alternating : Predicate :=
  .not (.and [.isNull, .not (.or [.not (.compare .lt (.int 3)), .not .isNull])])

theorem lowering_calls_bounded_alternating :
    let d := Scalar.int.domain
    let three : Tree := .leaf (.ofSpan d ⟨.finite (.int 3) .lower .closed, .posInfinity⟩)
    let nonNull : Tree := .node d .complement [.leaf (.null d)]
    let t : Tree := .node d .union [nonNull, .node d .union [three, nonNull]]
    alternating.size = 9 ∧ alternating.negate.size = 8 ∧ ∃ calls ≤ 9,
      (alternating.lower d).run.value = .ok t ∧
        ((lowerMetered d 9 alternating).run 0).run.run.value = .ok (some (t, calls)) := by
  intro d three nonNull t
  have hsize : alternating.size = 9 := rfl
  have houter : alternating.outerNots = 1 := rfl
  have ht : (alternating.lower d).run.value = .ok t := by
    simp only [alternating, lower, negate, negateAll, lowerAll]
    rfl
  obtain ⟨hnegate, -, calls, hcalls, hmetered⟩ := lowering_calls_bounded d alternating
  refine ⟨hsize, by omega, calls, hsize ▸ hcalls, ht, ?_⟩
  rw [hmetered 9 hsize.le, Attempt.value_bind, ht]
  rfl

end SearchArgument.Predicate
