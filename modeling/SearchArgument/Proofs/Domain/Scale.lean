import Mathlib.Order.Antisymmetrization
import Mathlib.Order.WithBot
import SearchArgument.Domain

/-! Scales of a domain: linear orders on which the values that it holds have marks, so that
two values compare as their marks do. An ordered domain always has a scale, the classes of
values that compare as equal; a domain with an order of its own may bring a better one. -/

namespace SearchArgument

theorem compare_of_strictMono {α β : Type} [LinearOrder α] [LinearOrder β] {f : α → β}
    (hf : StrictMono f) (a b : α) : Ord.compare (f a) (f b) = Ord.compare a b := by
  rw [← cmp_eq_compare, ← cmp_eq_compare]
  exact hf.cmp_map_eq a b

namespace Domain

structure Scale (d : Domain) (K : Type) [LinearOrder K] where
  mark : Value → K
  compare_eq {v w : Value} : d.Holds v → d.Holds w →
    d.compare v w = Ord.compare (mark v) (mark w)

variable {d : Domain}

/-- Held values have one mark exactly if they are equal. -/
def Scale.Exact {K : Type} [LinearOrder K] (σ : d.Scale K) : Prop :=
  ∀ v w, d.Holds v → d.Holds w → (σ.mark v = σ.mark w ↔ v == w)

/-- Values with marks on a linear order are ordered. -/
theorem Scale.ordered {K : Type} [LinearOrder K] (σ : d.Scale K) : d.Ordered where
  swap v w hv hw := by
    rw [σ.compare_eq hv hw, σ.compare_eq hw hv]
    exact Std.OrientedCmp.eq_swap.symm
  trans u v w hu hv hw := by
    rw [σ.compare_eq hu hv, σ.compare_eq hv hw, σ.compare_eq hu hw]
    exact Std.TransCmp.isLE_trans

namespace Scale

variable {K : Type} [LinearOrder K] {σ : d.Scale K} {v w : Value}

theorem compare_eq_lt_iff (hv : d.Holds v) (hw : d.Holds w) :
    d.compare v w = .lt ↔ σ.mark v < σ.mark w := by
  rw [σ.compare_eq hv hw, compare_lt_iff_lt]

theorem compare_eq_eq_iff (hv : d.Holds v) (hw : d.Holds w) :
    d.compare v w = .eq ↔ σ.mark v = σ.mark w := by
  rw [σ.compare_eq hv hw, compare_eq_iff_eq]

theorem compare_ne_gt_iff (hv : d.Holds v) (hw : d.Holds w) :
    d.compare v w ≠ .gt ↔ σ.mark v ≤ σ.mark w := by
  rw [σ.compare_eq hv hw, ne_eq, compare_gt_iff_gt, not_lt]

end Scale

namespace Ordered

theorem compare_self (h : d.Ordered) {v : Value} (hv : d.Holds v) : d.compare v v = .eq := by
  have hs := h.swap v v hv hv
  cases hc : d.compare v v with
  | lt => rw [hc] at hs; cases hs
  | eq => rfl
  | gt => rw [hc] at hs; cases hs

/-- The held values, before those that compare as equal are identified. -/
abbrev preorder (h : d.Ordered) : Preorder {v // d.Holds v} where
  le v w := (d.compare v w).isLE
  le_refl v := by rw [h.compare_self v.2]; rfl
  le_trans u v w := h.trans u v w u.2 v.2 w.2

theorem isLE_total (h : d.Ordered) {v w : Value} (hv : d.Holds v) (hw : d.Holds w) :
    (d.compare v w).isLE ∨ (d.compare w v).isLE := by
  rw [← h.swap v w hv hw]
  cases d.compare v w <;> simp

/-- The classes of held values that compare as equal, in their order. -/
theorem exists_scale (h : d.Ordered) :
    ∃ (K : Type) (_ : LinearOrder K), Nonempty (d.Scale K) := by
  classical
  let _ := h.preorder
  have htotal : Std.Total (α := {v // d.Holds v}) (· ≤ ·) :=
    ⟨fun v w => h.isLE_total v.2 w.2⟩
  let class? (v : Value) : WithBot (Antisymmetrization {v // d.Holds v} (· ≤ ·)) :=
    if hv : d.Holds v then toAntisymmetrization (α := {v // d.Holds v}) (· ≤ ·) ⟨v, hv⟩ else ⊥
  have hle : ∀ {v w : Value}, d.Holds v → d.Holds w →
      (class? v ≤ class? w ↔ (d.compare v w).isLE) := by
    intro v w hv hw
    simp only [class?, hv, hw, ↓reduceDIte, WithBot.coe_le_coe]
    rfl
  refine ⟨_, inferInstance, ⟨class?, ?_⟩⟩
  intro v w hv hw
  have hvw := hle hv hw
  have hwv := hle hw hv
  rw [← h.swap v w hv hw] at hwv
  cases hc : d.compare v w with
  | lt =>
    rw [hc] at hvw hwv
    exact (compare_lt_iff_lt.2 (lt_of_not_ge fun hge => by simpa using hwv.1 hge)).symm
  | eq =>
    rw [hc] at hvw hwv
    exact (compare_eq_iff_eq.2 (le_antisymm (hvw.2 rfl) (hwv.2 rfl))).symm
  | gt =>
    rw [hc] at hvw hwv
    exact (compare_gt_iff_gt.2 (lt_of_not_ge fun hge => by simpa using hvw.1 hge)).symm

end Ordered

end Domain

end SearchArgument
