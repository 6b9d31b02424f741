import Mathlib.Data.Prod.Lex
import Mathlib.Data.String.Basic
import SearchArgument.Proofs.Decimal
import SearchArgument.Proofs.Domain.Scale

/-! The order of literals, by keys. A key puts the rank of a kind before its number or text, and
keys are ordered lexicographically as literals are. Between numbers of one kind this is the
order of exact values. -/

namespace SearchArgument

namespace Value

/-- The number of a literal, with its truth as the number of a boolean. -/
def numeral : Value → ℚ
  | bool b => b.toNat
  | v => v.number?.getD 0

def letters : Value → String
  | text s => s
  | _ => ""

def key (v : Value) : ℕ ×ₗ ℚ ×ₗ String := toLex (v.rank, toLex (v.numeral, v.letters))

theorem compare_key (v w : Value) : Ord.compare v.key w.key =
    (Ord.compare v.rank w.rank).then
      ((Ord.compare v.numeral w.numeral).then (Ord.compare v.letters w.letters)) := by
  simp [key, Prod.Lex.compare_def, compareLex, compareOn]

theorem compare_of_rank_ne {v w : Value} (h : v.rank ≠ w.rank) :
    v.compare w = Ord.compare v.rank w.rank := by
  cases v <;> cases w <;> first | rfl | exact absurd rfl h

theorem compare_intCast (m n : ℤ) : Ord.compare (m : ℚ) n = Ord.compare m n :=
  compare_of_strictMono Int.cast_strictMono m n

theorem compare_natCast (m n : ℕ) :
    Ord.compare (((m : ℤ) : ℚ)) ((n : ℤ) : ℚ) = Ord.compare m n := by
  rw [compare_intCast]
  exact compare_of_strictMono Int.natCast_strictMono m n

/-- The order of literals is the order of their keys. -/
theorem compare_eq_key (v w : Value) : v.compare w = Ord.compare v.key w.key := by
  rw [compare_key]
  by_cases h : v.rank = w.rank
  · rw [compare_eq_iff_eq.2 h, Ordering.eq_then]
    cases v <;> cases w <;> cases h
    case null.null.refl => rfl
    case bool.bool.refl a b => cases a <;> cases b <;> rfl
    case decimal.decimal.refl a b => exact (Decimal.compare_eq a b).trans Ordering.then_eq.symm
    case int.int.refl a b =>
      exact (compare_intCast a.toInt b.toInt).symm.trans Ordering.then_eq.symm
    case text.text.refl a b => rfl
    case uint.uint.refl a b =>
      exact (compare_natCast a.toNat b.toNat).symm.trans Ordering.then_eq.symm
  · rw [compare_of_rank_ne h]
    cases hc : Ord.compare v.rank w.rank with
    | lt => rfl
    | eq => exact absurd (compare_eq_iff_eq.1 hc) h
    | gt => rfl

/-- Literals are equal exactly if the order does not tell them apart. -/
theorem beq_iff_compare (v w : Value) : v == w ↔ v.compare w = .eq := by
  by_cases h : v.rank = w.rank
  · cases v <;> cases w <;> cases h
    case null.null.refl => exact ⟨fun _ => rfl, fun _ => rfl⟩
    case decimal.decimal.refl a b =>
      show (a.compare b == .eq) = true ↔ a.compare b = .eq
      exact beq_iff_eq
    case bool.bool.refl a b => cases a <;> cases b <;> decide
    case int.int.refl a b =>
      show decide (int a = int b) = true ↔ Ord.compare a.toInt b.toInt = .eq
      rw [decide_eq_true_iff, int.injEq, compare_eq_iff_eq, Int64.toInt_inj]
    case text.text.refl a b =>
      show decide (text a = text b) = true ↔ Ord.compare a b = .eq
      rw [decide_eq_true_iff, text.injEq, compare_eq_iff_eq]
    case uint.uint.refl a b =>
      show decide (uint a = uint b) = true ↔ Ord.compare a.toNat b.toNat = .eq
      rw [decide_eq_true_iff, uint.injEq, compare_eq_iff_eq, UInt64.toNat_inj]
  · rw [compare_of_rank_ne h, compare_eq_iff_eq]
    refine iff_of_false (fun he => h ?_) h
    cases v <;> cases w <;> first | rfl | cases (of_decide_eq_true he)

theorem key_eq_iff (v w : Value) : v.key = w.key ↔ v == w := by
  rw [beq_iff_compare, compare_eq_key, compare_eq_iff_eq]

instance : EquivBEq Value where
  rfl {v} := (key_eq_iff v v).1 rfl
  symm {v w} h := (key_eq_iff w v).1 ((key_eq_iff v w).2 h).symm
  trans {u v w} h h' := (key_eq_iff u w).1 (((key_eq_iff u v).2 h).trans ((key_eq_iff v w).2 h'))

/-! ### Exact comparison -/

theorem compareExact_of_number {v w : Value} {p q : ℚ} (hv : v.number? = some p)
    (hw : w.number? = some q) : v.compareExact w = Ord.compare p q := by
  have hlt : ∀ a b : ℚ, a.blt b = true ↔ a < b := fun _ _ => Iff.rfl
  simp only [compareExact, hv, hw, hlt]
  split
  next h => exact (compare_lt_iff_lt.2 h).symm
  next h =>
    split
    next h' => exact (compare_gt_iff_gt.2 h').symm
    next h' => exact (compare_eq_iff_eq.2 (le_antisymm (not_lt.1 h') (not_lt.1 h))).symm

theorem compareExact_of_not_number {v w : Value} (hv : v.number? = none) :
    v.compareExact w = v.compare w := by
  simp [compareExact, hv]

/-- Whether a literal is a number depends on its kind alone. -/
theorem isSome_number? (v : Value) :
    v.number?.isSome = (v.rank == 2 || v.rank == 3 || v.rank == 5) := by
  cases v <;> rfl

/-- Within one kind the order is that of exact values. -/
theorem compareExact_eq {v w : Value} (h : v.rank = w.rank) : v.compareExact w = v.compare w := by
  have hsome : v.number?.isSome = w.number?.isSome := by rw [isSome_number?, isSome_number?, h]
  cases hv : v.number? with
  | none => exact compareExact_of_not_number hv
  | some p =>
    rw [hv] at hsome
    obtain ⟨q, hw⟩ := Option.isSome_iff_exists.1 hsome.symm
    have hnum : ∀ {u : Value} {r}, u.number? = some r → u.numeral = r ∧ u.letters = "" := by
      intro u r hu
      cases u <;> simp_all [number?, numeral, letters]
    rw [compareExact_of_number hv hw, compare_eq_key, compare_key, compare_eq_iff_eq.2 h,
      (hnum hv).1, (hnum hv).2, (hnum hw).1, (hnum hw).2]
    exact Ordering.then_eq.symm

end Value

end SearchArgument
