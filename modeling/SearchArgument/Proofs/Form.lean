import Mathlib.Data.Multiset.Lattice
import Mathlib.Order.Interval.Set.Basic
import SearchArgument.Proofs.Seam
import SearchArgument.Tree

/-! Forms. A canonical list of spans is told by the seams that it takes up, up to one choice:
a list that begins just above null, and does not hold everything from there on, has its first
lower bound spelled either `> null` or as negative infinity. A form is a set of seams with that
choice. Forms make a bounded lattice, in which a union is the join of its parts and an
intersection is their meet, so whatever holds in every lattice holds of evaluated trees exactly.
Only the seams distribute. With `a` for `(null, 5)`, the parts `(-infinity, 3)` and `[3, +infinity)`
together leave no choice, so their union meets `a` in `(null, 5)`; one by one they meet `a` in
`(-infinity, 3)` and `[3, 5)`, which join to `(-infinity, 5)`. -/

namespace SearchArgument

variable {K : Type} [LinearOrder K]

/-- Seams that a canonical list can spell in two ways: they begin just above null and leave out
something further up. -/
structure Seam.Ambiguous (seams : Set (Seam K)) : Prop where
  belowNull_notMem : .belowNull ∉ seams
  aboveNull_mem : .aboveNull ∈ seams
  exists_gap : ∃ x, .aboveNull ≤ x ∧ x < .top ∧ x ∉ seams

theorem Seam.Ambiguous.mono {xs ys : Set (Seam K)} (h : Ambiguous ys) (hsub : xs ⊆ ys)
    (hmem : .aboveNull ∈ xs) : Ambiguous xs := by
  obtain ⟨x, hx, hxt, hxs⟩ := h.exists_gap
  exact ⟨fun hn => h.belowNull_notMem (hsub hn), hmem, x, hx, hxt, fun hn => hxs (hsub hn)⟩

/-- The seams of a canonical list, and whether it begins at negative infinity where it could as
well begin at `> null`. -/
@[ext] structure Form (K : Type) [LinearOrder K] where
  seams : Set (Seam K)
  unsettled : Prop
  top_notMem : .top ∉ seams
  ambiguous : unsettled → Seam.Ambiguous seams

namespace Form

variable {f g : Form K}

theorem lt_top {x : Seam K} (h : x ∈ f.seams) : x < .top := by
  refine lt_of_le_of_ne (Seam.le_top x) ?_
  rintro rfl
  exact f.top_notMem h

/-! ### The lattice

The order is that of what a form takes up, where negative infinity begins later than
`> null`. -/

instance : PartialOrder (Form K) where
  le f g := f.seams ⊆ g.seams ∧ (g.unsettled → .aboveNull ∈ f.seams → f.unsettled)
  le_refl f := ⟨subset_rfl, fun h _ => h⟩
  le_trans f g h hfg hgh :=
    ⟨hfg.1.trans hgh.1, fun hu hf => hfg.2 (hgh.2 hu (hfg.1 hf)) hf⟩
  le_antisymm f g hfg hgf := by
    have hunsettled : f.unsettled ↔ g.unsettled :=
      ⟨fun hu => hgf.2 hu (hfg.1.antisymm hgf.1 ▸ (f.ambiguous hu).aboveNull_mem),
        fun hu => hfg.2 hu (hfg.1.antisymm hgf.1 ▸ (g.ambiguous hu).aboveNull_mem)⟩
    exact Form.ext (hfg.1.antisymm hgf.1) (propext hunsettled)

/-- A union stays unsettled as long as every part that begins just above null is unsettled. -/
def union (f g : Form K) : Form K where
  seams := f.seams ∪ g.seams
  unsettled := Seam.Ambiguous (f.seams ∪ g.seams) ∧
    (.aboveNull ∈ f.seams → f.unsettled) ∧ (.aboveNull ∈ g.seams → g.unsettled)
  top_notMem := by
    rintro (h | h)
    · exact f.top_notMem h
    · exact g.top_notMem h
  ambiguous h := h.1

/-- One unsettled part makes an intersection unsettled. -/
def inter (f g : Form K) : Form K where
  seams := f.seams ∩ g.seams
  unsettled := Seam.Ambiguous (f.seams ∩ g.seams) ∧ (f.unsettled ∨ g.unsettled)
  top_notMem h := f.top_notMem h.1
  ambiguous h := h.1

instance : Lattice (Form K) where
  sup := union
  le_sup_left f g := ⟨Set.subset_union_left, fun h hf => h.2.1 hf⟩
  le_sup_right f g := ⟨Set.subset_union_right, fun h hg => h.2.2 hg⟩
  sup_le f g h hf hg := by
    refine ⟨Set.union_subset hf.1 hg.1, fun hu hmem => ⟨?_, hf.2 hu, hg.2 hu⟩⟩
    exact (h.ambiguous hu).mono (Set.union_subset hf.1 hg.1) hmem
  inf := inter
  inf_le_left f g := by
    refine ⟨Set.inter_subset_left, fun hu hmem => ⟨?_, .inl hu⟩⟩
    exact (f.ambiguous hu).mono Set.inter_subset_left hmem
  inf_le_right f g := by
    refine ⟨Set.inter_subset_right, fun hu hmem => ⟨?_, .inr hu⟩⟩
    exact (g.ambiguous hu).mono Set.inter_subset_right hmem
  le_inf f g h hg hh := by
    refine ⟨Set.subset_inter hg.1 hh.1, fun hu hmem => ?_⟩
    rcases hu.2 with hu | hu
    · exact hg.2 hu hmem
    · exact hh.2 hu hmem

instance : BoundedOrder (Form K) where
  top := ⟨Set.Iio .top, False, by simp, False.elim⟩
  le_top f := ⟨fun _ h => f.lt_top h, False.elim⟩
  bot := ⟨∅, False, Set.notMem_empty _, False.elim⟩
  bot_le f := ⟨Set.empty_subset _, fun _ h => h.elim⟩

@[simp] theorem sup_seams (f g : Form K) : (f ⊔ g).seams = f.seams ∪ g.seams := rfl

@[simp] theorem inf_seams (f g : Form K) : (f ⊓ g).seams = f.seams ∩ g.seams := rfl

@[simp] theorem top_seams : (⊤ : Form K).seams = Set.Iio .top := rfl

@[simp] theorem bot_seams : (⊥ : Form K).seams = ∅ := rfl

theorem sup_unsettled (f g : Form K) : (f ⊔ g).unsettled ↔ Seam.Ambiguous (f.seams ∪ g.seams) ∧
    (.aboveNull ∈ f.seams → f.unsettled) ∧ (.aboveNull ∈ g.seams → g.unsettled) := Iff.rfl

theorem inf_unsettled (f g : Form K) : (f ⊓ g).unsettled ↔
    Seam.Ambiguous (f.seams ∩ g.seams) ∧ (f.unsettled ∨ g.unsettled) := Iff.rfl

/-! ### Complements

What a form leaves of the values begins at `> null` only behind the null marker. -/

def complement (f : Form K) : Form K where
  seams := Set.Ico .aboveNull .top \ f.seams
  unsettled := Seam.Ambiguous (Set.Ico .aboveNull .top \ f.seams) ∧ .belowNull ∉ f.seams
  top_notMem h := lt_irrefl _ h.1.2
  ambiguous h := h.1

@[simp] theorem complement_seams (f : Form K) :
    f.complement.seams = Set.Ico .aboveNull .top \ f.seams := rfl

theorem complement_unsettled (f : Form K) : f.complement.unsettled ↔
    Seam.Ambiguous (Set.Ico .aboveNull .top \ f.seams) ∧ .belowNull ∉ f.seams := Iff.rfl

theorem complement_top : (⊤ : Form K).complement = ⊥ := by
  have hseams : (⊤ : Form K).complement.seams = ∅ := Set.sdiff_eq_empty.2 fun _ hx => hx.2
  apply Form.ext hseams
  apply propext
  constructor
  · intro hu
    have hmem := (complement _).ambiguous hu |>.aboveNull_mem
    rw [hseams] at hmem
    exact hmem.elim
  · exact False.elim

theorem complement_sup_seams (f g : Form K) :
    (f ⊔ g).complement.seams = (f.complement ⊓ g.complement).seams :=
  Set.sdiff_inter_sdiff.symm

theorem complement_inf_seams (f g : Form K) :
    (f ⊓ g).complement.seams = (f.complement ⊔ g.complement).seams :=
  Set.sdiff_inter

theorem complement_complement_seams (f : Form K) :
    f.complement.complement.seams = (f ⊓ (⊥ : Form K).complement).seams := by
  rw [complement_seams, complement_seams, Set.sdiff_sdiff_right_self, inf_seams, complement_seams,
    bot_seams, Set.sdiff_empty, Set.inter_comm]

/-- Seams are the same if there is no difference either way and null is in both or neither. -/
theorem seams_eq_iff : f.seams = g.seams ↔ (f ⊓ g.complement).seams = ∅ ∧
    (g ⊓ f.complement).seams = ∅ ∧ (.belowNull ∈ f.seams ↔ .belowNull ∈ g.seams) := by
  have hle : ∀ {f g : Form K}, (f ⊓ g.complement).seams = ∅ →
      (.belowNull ∈ f.seams → .belowNull ∈ g.seams) → f.seams ⊆ g.seams := by
    intro f g hempty hnull x hx
    by_contra hg
    have hne : x ≠ .belowNull := by
      rintro rfl
      exact hg (hnull hx)
    have hmem : x ∈ (f ⊓ g.complement).seams :=
      ⟨hx, ⟨Seam.aboveNull_le_of_ne hne, f.lt_top hx⟩, hg⟩
    rw [hempty] at hmem
    exact hmem
  constructor
  · intro h
    have hempty : ∀ {f g : Form K}, f.seams = g.seams → (f ⊓ g.complement).seams = ∅ := by
      intro f g h
      refine Set.eq_empty_of_forall_notMem fun x hx => hx.2.2 ?_
      exact h ▸ hx.1
    exact ⟨hempty h, hempty h.symm, by rw [h]⟩
  · rintro ⟨hf, hg, hnull⟩
    exact (hle hf hnull.1).antisymm (hle hg hnull.2)

/-! ### Forms without null bounds

Where null is not named, only everything takes it up. -/

def NullFree (f : Form K) : Prop := .belowNull ∈ f.seams → f.seams = Set.Iio .top

theorem nullFree_complement (f : Form K) : f.complement.NullFree := fun h =>
  absurd h.1.1 (not_le.2 Seam.belowNull_lt_aboveNull)

/-- Where part of a complement leaves a choice, so does the whole, as long as the form takes
something above null away from it. -/
theorem ambiguous_complement (hf : .belowNull ∉ f.seams) {seams : Set (Seam K)}
    (h : Seam.Ambiguous seams) (hsub : seams ⊆ f.complement.seams) {x : Seam K}
    (hx : .aboveNull ≤ x) (hmem : x ∈ f.seams) : f.complement.unsettled := by
  refine ⟨⟨fun hn => ?_, hsub h.aboveNull_mem, x, hx, f.lt_top hmem, fun hn => hn.2 hmem⟩, hf⟩
  exact absurd hn.1.1 (not_le.2 Seam.belowNull_lt_aboveNull)

/-- De Morgan's law, spelling included. With null bounds it can fail: the complement of `[null]`
and `≥ 5` together begins at `> null`, but their two complements meet in `(-infinity, 5)`. -/
theorem complement_sup (hf : f.NullFree) (hg : g.NullFree) :
    (f ⊔ g).complement = f.complement ⊓ g.complement := by
  apply Form.ext (complement_sup_seams f g)
  apply propext
  rw [complement_unsettled, inf_unsettled, ← complement_seams, complement_sup_seams, inf_seams]
  apply and_congr_right
  intro hamb
  constructor
  · intro hnull
    have hfn : .belowNull ∉ f.seams := fun h => hnull (.inl h)
    have hgn : .belowNull ∉ g.seams := fun h => hnull (.inr h)
    obtain ⟨x, hx, hxt, hxs⟩ := hamb.exists_gap
    rw [← inf_seams, ← complement_sup_seams] at hxs
    have hmem : x ∈ (f ⊔ g).seams := by
      by_contra hn
      exact hxs ⟨⟨hx, hxt⟩, hn⟩
    rcases hmem with hmem | hmem
    · exact .inl (ambiguous_complement hfn hamb Set.inter_subset_left hx hmem)
    · exact .inr (ambiguous_complement hgn hamb Set.inter_subset_right hx hmem)
  · -- one part leaves something above null, so neither can be everything
    have hnot : ∀ {f : Form K}, f.NullFree → .aboveNull ∈ f.complement.seams →
        .belowNull ∉ f.seams := by
      intro f hf habove hbelow
      apply habove.2
      rw [hf hbelow]
      exact Seam.aboveNull_lt_top
    rintro - (h | h)
    · exact hnot hf hamb.aboveNull_mem.1 h
    · exact hnot hg hamb.aboveNull_mem.2 h

end Form

/-! ### Lists of forms -/

namespace Form

theorem mem_sup_seams {fs : List (Form K)} {x : Seam K} :
    x ∈ (fs : Multiset (Form K)).sup.seams ↔ ∃ f ∈ fs, x ∈ f.seams := by
  induction fs with
  | nil => simp
  | cons f fs ih =>
    rw [← Multiset.cons_coe, Multiset.sup_cons, sup_seams, Set.mem_union, ih,
      List.exists_mem_cons_iff]

theorem mem_inf_seams {fs : List (Form K)} {x : Seam K} :
    x ∈ (fs : Multiset (Form K)).inf.seams ↔ x < .top ∧ ∀ f ∈ fs, x ∈ f.seams := by
  induction fs with
  | nil => simp
  | cons f fs ih =>
    rw [← Multiset.cons_coe, Multiset.inf_cons, inf_seams, Set.mem_inter_iff, ih,
      List.forall_mem_cons]
    exact and_left_comm

/-- A union is unsettled only through a part that is. -/
theorem exists_unsettled_of_sup {fs : List (Form K)} (h : (fs : Multiset (Form K)).sup.unsettled) :
    ∃ f ∈ fs, f.unsettled := by
  obtain ⟨f, hf, hmem⟩ := mem_sup_seams.1 ((Form.ambiguous _ h).aboveNull_mem)
  have hle : f ≤ (fs : Multiset (Form K)).sup := Multiset.le_sup (Multiset.mem_coe.2 hf)
  exact ⟨f, hf, hle.2 h hmem⟩

/-- So is an intersection. -/
theorem exists_unsettled_of_inf {fs : List (Form K)} (h : (fs : Multiset (Form K)).inf.unsettled) :
    ∃ f ∈ fs, f.unsettled := by
  induction fs with
  | nil => exact h.elim
  | cons f fs ih =>
    rw [← Multiset.cons_coe, Multiset.inf_cons] at h
    rcases h.2 with hf | hfs
    · exact ⟨f, List.mem_cons_self, hf⟩
    · obtain ⟨g, hg, hu⟩ := ih hfs
      exact ⟨g, List.mem_cons_of_mem _ hg, hu⟩

end Form

namespace SetOp

variable {op : SetOp} {fs gs : List (Form K)}

/-- What the operands of an operator come to together. A complement is taken of their union. -/
def collect : SetOp → List (Form K) → Form K
  | intersection, fs => (fs : Multiset (Form K)).inf
  | union, fs | complement, fs => (fs : Multiset (Form K)).sup

/-- The form that an operator makes of the forms of its operands. -/
def form (op : SetOp) (fs : List (Form K)) : Form K :=
  match op with
  | complement => (complement.collect fs).complement
  | _ => op.collect fs

theorem form_of_ne (h : op ≠ .complement) (fs : List (Form K)) : op.form fs = op.collect fs := by
  cases op with
  | union => rfl
  | intersection => rfl
  | complement => exact absurd rfl h

/-- Operands count only by what they come to together. -/
theorem form_congr (h : op.collect fs = op.collect gs) : op.form fs = op.form gs := by
  cases op with
  | union => exact h
  | intersection => exact h
  | complement => exact congrArg Form.complement h

@[simp] theorem collect_singleton (op : SetOp) (f : Form K) : op.collect [f] = f := by
  cases op <;> simp [collect]

theorem collect_append {fs' gs' : List (Form K)} (hf : op.collect fs = op.collect fs')
    (hg : op.collect gs = op.collect gs') : op.collect (fs ++ gs) = op.collect (fs' ++ gs') := by
  cases op with
  | intersection =>
    simp only [collect, ← Multiset.coe_add, Multiset.inf_add] at hf hg ⊢
    rw [hf, hg]
  | union | complement =>
    simp only [collect, ← Multiset.coe_add, Multiset.sup_add] at hf hg ⊢
    rw [hf, hg]

@[simp] theorem form_union_nil : union.form [] = (⊥ : Form K) := rfl

@[simp] theorem form_union_cons (f : Form K) (fs : List (Form K)) :
    union.form (f :: fs) = f ⊔ union.form fs := by
  simp only [form, collect, ← Multiset.cons_coe, Multiset.sup_cons]

@[simp] theorem form_intersection_nil : intersection.form [] = (⊤ : Form K) := rfl

@[simp] theorem form_intersection_cons (f : Form K) (fs : List (Form K)) :
    intersection.form (f :: fs) = f ⊓ intersection.form fs := by
  simp only [form, collect, ← Multiset.cons_coe, Multiset.inf_cons]

@[simp] theorem form_complement_singleton (f : Form K) :
    complement.form [f] = f.complement := by
  simp only [form, collect_singleton]

/-- Operators keep null free what they are given. -/
theorem nullFree_form (h : ∀ f ∈ fs, f.NullFree) : (op.form fs).NullFree := by
  intro hmem
  cases op with
  | union =>
    obtain ⟨f, hf, hf_mem⟩ := Form.mem_sup_seams.1 hmem
    apply Set.Subset.antisymm fun x hx => Form.lt_top hx
    intro x hx
    refine Form.mem_sup_seams.2 ⟨f, hf, ?_⟩
    rwa [h f hf hf_mem]
  | intersection =>
    obtain ⟨-, hall⟩ := Form.mem_inf_seams.1 hmem
    apply Set.Subset.antisymm fun x hx => Form.lt_top hx
    intro x hx
    refine Form.mem_inf_seams.2 ⟨hx, fun f hf => ?_⟩
    rwa [h f hf (hall f hf)]
  | complement => exact Form.nullFree_complement _ hmem

theorem collect_perm (op : SetOp) (h : fs.Perm gs) : op.collect fs = op.collect gs := by
  cases op <;> simp only [collect, Multiset.coe_eq_coe.2 h]

end SetOp

end SearchArgument
