import Mathlib.Order.Interval.Set.LinearOrder
import SearchArgument.Proofs.Span.Form

/-! The intersection of lists of spans. The common part of two spans takes up the seams that
both do, as long as neither holds every point: negative infinity would win over the null
marker and lose it. Lists that hold every point are therefore passed over, and no other
list of the fold ever comes to hold every point. The form of an intersection is the meet of the
forms of its operands: of two lower bounds just above null it keeps negative infinity. -/

namespace SearchArgument.Domain.Scale

variable {d : Domain} {K : Type} [LinearOrder K] {σ : d.Scale K}

/-! ### Common parts -/

theorem bounds_meet {s t : Span} (hs : d.Bounds s) (ht : d.Bounds t) :
    d.Bounds (s.meet d.compare t) := by
  unfold Span.meet
  constructor
  · dsimp only
    split
    · exact ht.lower
    · exact hs.lower
  · dsimp only
    split
    · exact ht.upper
    · exact hs.upper

theorem seam_meet_lower {s t : Span} (hs : d.Bounds s) (ht : d.Bounds t) :
    σ.seam (s.meet d.compare t).lower = max (σ.seam s.lower) (σ.seam t.lower) := by
  simp only [Span.meet]
  split
  next h =>
    have hle := seam_le_of_compare_ne_gt (σ := σ) hs.lower ht.lower (by rw [beq_iff_eq.1 h]; decide)
    exact (max_eq_right hle).symm
  next h =>
    have hle := seam_le_of_compare_ne_lt (σ := σ) hs.lower ht.lower (by simpa using h)
    exact (max_eq_left hle).symm

theorem seam_meet_upper {s t : Span} (hs : d.Bounds s) (ht : d.Bounds t) :
    σ.seam (s.meet d.compare t).upper = min (σ.seam s.upper) (σ.seam t.upper) := by
  have hgt := compare_upper_eq_gt_iff (σ := σ) hs.upper ht.upper
  simp only [Span.meet]
  split
  next h => exact (min_eq_right (hgt.1 (beq_iff_eq.1 h)).le).symm
  next h => exact (min_eq_left (not_lt.1 (mt hgt.2 (by simpa using h)))).symm

theorem between_meet {s t : Span} (hs : d.Bounds s) (ht : d.Bounds t) :
    σ.between (s.meet d.compare t) = σ.between s ∩ σ.between t := by
  rw [between, seam_meet_lower hs ht, seam_meet_upper hs ht]
  exact Set.Ico_inter_Ico.symm

theorem isAll_of_meet (σ : d.Scale K) {s t : Span} (hs : d.Bounds s) (ht : d.Bounds t)
    (h : (s.meet d.compare t).isAll) : s.isAll ∨ t.isAll := by
  have hall := Span.isAll_iff.1 h
  have hupper : min (σ.seam s.upper) (σ.seam t.upper) = .top := by
    rw [← seam_meet_upper hs ht, hall]
    rfl
  have hsu := eq_posInfinity_of_seam σ hs.upper
    (le_antisymm (Seam.le_top _) (hupper ▸ min_le_left _ _))
  have htu := eq_posInfinity_of_seam σ ht.upper
    (le_antisymm (Seam.le_top _) (hupper ▸ min_le_right _ _))
  have hlower : (s.meet d.compare t).lower = .negInfinity := by rw [hall]; rfl
  simp only [Span.meet] at hlower
  split at hlower
  · exact .inr (by simp [Span.isAll, hlower, htu])
  · exact .inl (by simp [Span.isAll, hlower, hsu])

theorem mem_meets {cmp : Value → Value → Ordering} {xs ys : List Span} {u : Span} :
    u ∈ Span.meets cmp xs ys ↔
      ∃ s ∈ xs, ∃ t ∈ ys, s.meet cmp t = u ∧ u.isInverted cmp = false := by
  simp only [Span.meets, List.mem_flatMap, List.mem_filter, List.mem_map, Bool.not_eq_true']
  exact exists_congr fun s => and_congr_right fun _ =>
    ⟨fun ⟨⟨t, ht, he⟩, hu⟩ => ⟨t, ht, he, hu⟩, fun ⟨t, ht, he, hu⟩ => ⟨⟨t, ht, he⟩, hu⟩⟩

theorem bounds_of_mem_meets {xs ys : List Span} (hx : ∀ s ∈ xs, d.Bounds s)
    (hy : ∀ t ∈ ys, d.Bounds t) {u : Span} (hu : u ∈ Span.meets d.compare xs ys) :
    d.Bounds u := by
  obtain ⟨s, hs, t, ht, rfl, -⟩ := mem_meets.1 hu
  exact bounds_meet (hx s hs) (hy t ht)

theorem isAll_meet (σ : d.Scale K) {s t : Span} (hs : d.Bounds s) (ht : d.Bounds t)
    (hsn : s.isAll = false) (htn : t.isAll = false) : (s.meet d.compare t).isAll = false := by
  by_contra hall
  rcases isAll_of_meet σ hs ht (by simpa using hall) with h | h
  · exact absurd h (by simp [hsn])
  · exact absurd h (by simp [htn])

theorem extent_meet {s t : Span} (hs : d.Bounds s) (ht : d.Bounds t) (hsn : s.isAll = false)
    (htn : t.isAll = false) : σ.extent (s.meet d.compare t) = σ.extent s ∩ σ.extent t := by
  rw [extent_of_not_isAll σ (isAll_meet σ hs ht hsn htn), extent_of_not_isAll σ hsn,
    extent_of_not_isAll σ htn, between_meet hs ht]

/-- Two spans that share a seam have their common part in the list. -/
theorem meet_mem_meets {xs ys : List Span} (hx : ∀ s ∈ xs, d.Bounds s ∧ s.isAll = false)
    (hy : ∀ t ∈ ys, d.Bounds t ∧ t.isAll = false) {s t : Span} (hs : s ∈ xs) (ht : t ∈ ys)
    {x : Seam K} (hxs : x ∈ σ.extent s) (hxt : x ∈ σ.extent t) :
    s.meet d.compare t ∈ Span.meets d.compare xs ys ∧ x ∈ σ.extent (s.meet d.compare t) := by
  obtain ⟨hsb, hsn⟩ := hx s hs
  obtain ⟨htb, htn⟩ := hy t ht
  have hxu : x ∈ σ.extent (s.meet d.compare t) :=
    extent_meet (σ := σ) hsb htb hsn htn ▸ ⟨hxs, hxt⟩
  refine ⟨mem_meets.2 ⟨s, hs, t, ht, rfl, ?_⟩, hxu⟩
  by_contra hinv
  rw [extent_of_isInverted (σ := σ) (bounds_meet hsb htb) (by simpa using hinv)] at hxu
  exact hxu

/-- Short of spans that hold every point, the common parts take up what both lists do. -/
theorem extents_meets {xs ys : List Span} (hx : ∀ s ∈ xs, d.Bounds s ∧ s.isAll = false)
    (hy : ∀ t ∈ ys, d.Bounds t ∧ t.isAll = false) :
    σ.extents (Span.meets d.compare xs ys) = σ.extents xs ∩ σ.extents ys := by
  ext x
  constructor
  · rintro ⟨u, hu, hxu⟩
    obtain ⟨s, hs, t, ht, rfl, -⟩ := mem_meets.1 hu
    rw [extent_meet (hx s hs).1 (hy t ht).1 (hx s hs).2 (hy t ht).2] at hxu
    exact ⟨⟨s, hs, hxu.1⟩, t, ht, hxu.2⟩
  · rintro ⟨⟨s, hs, hxs⟩, t, ht, hxt⟩
    exact ⟨_, meet_mem_meets hx hy hs ht hxs hxt⟩

/-! ### Forms -/

/-- Of two lower cuts no later than just above null the common part keeps negative infinity. -/
theorem meet_lower_eq_negInfinity {s t : Span} (hs : d.Lower s.lower) (ht : d.Lower t.lower)
    (hsl : σ.seam s.lower ≤ .aboveNull) (htl : σ.seam t.lower ≤ .aboveNull) :
    (s.meet d.compare t).lower = .negInfinity ↔
      s.lower = .negInfinity ∨ t.lower = .negInfinity := by
  have hfinite : ∀ {v u}, ¬σ.seam (.finite v .lower u) ≤ .aboveNull := by
    intro v u
    cases u <;> simp [seam]
  simp only [Span.meet]
  generalize s.lower = a at hs hsl ⊢
  generalize t.lower = b at ht htl ⊢
  cases hs with
  | negInfinity =>
    cases ht with
    | negInfinity => simp
    | null u => simp [compare_null_gt (d := d) (a := .negInfinity) (b := .null .lower u) rfl rfl]
    | finite u hw => exact absurd htl hfinite
  | null u =>
    cases ht with
    | negInfinity =>
      simp [compare_null_lt (d := d) (a := .null .lower u) (b := .negInfinity) rfl rfl]
    | null u' =>
      simp only [reduceCtorEq, or_self, iff_false]
      split <;> simp
    | finite u hw => exact absurd htl hfinite
  | finite u hv => exact absurd hsl hfinite

/-- The first span of a canonical list decides how it is spelled. -/
theorem Canonical.unsettled_iff_lower {spans : List Span} (h : σ.Canonical spans)
    (hall : ∀ s ∈ spans, d.Bounds s ∧ s.isAll = false) {s : Span} (hs : s ∈ spans)
    (hl : σ.seam s.lower ≤ .aboveNull) :
    (σ.form spans).unsettled ↔ s.lower = .negInfinity := by
  rw [h.unsettled_iff]
  constructor
  · rintro ⟨t, ht, hinf, -⟩
    rwa [h.eq_of_lower_le hs ht hl (by rw [hinf, seam_negInfinity])]
  · intro hinf
    refine ⟨s, hs, hinf, ?_⟩
    rintro rfl
    exact absurd (hall _ hs).2 (by decide)

/-- The common parts of two canonical lists have the meet of their forms. -/
theorem form_meets {xs ys : List Span} (hx : σ.Canonical xs) (hy : σ.Canonical ys)
    (hxn : ∀ s ∈ xs, d.Bounds s ∧ s.isAll = false)
    (hyn : ∀ t ∈ ys, d.Bounds t ∧ t.isAll = false) :
    σ.form (Span.meets d.compare xs ys) = σ.form xs ⊓ σ.form ys := by
  have hmeets := extents_meets (σ := σ) hxn hyn
  apply form_eq hmeets
  intro hamb
  have hlow : ∀ {s : Span}, s.isAll = false → .aboveNull ∈ σ.extent s →
      σ.seam s.lower ≤ .aboveNull := fun hn hx => σ.start_of_not_isAll hn ▸ hx.1
  obtain ⟨⟨s, hs, hxs⟩, t, ht, hxt⟩ := hamb.aboveNull_mem
  obtain ⟨hsb, hsn⟩ := hxn s hs
  obtain ⟨htb, htn⟩ := hyn t ht
  have hsl := hlow hsn hxs
  have htl := hlow htn hxt
  obtain ⟨hu, hxu⟩ := meet_mem_meets hxn hyn hs ht hxs hxt
  rw [Form.inf_unsettled, hx.unsettled_iff_lower hxn hs hsl, hy.unsettled_iff_lower hyn ht htl,
    ← meet_lower_eq_negInfinity hsb.lower htb.lower hsl htl]
  constructor
  · -- only the first spans can have a common part that begins there
    rintro ⟨u, hu', hnull, hxu'⟩ ⟨-, hinf⟩
    obtain ⟨s', hs', t', ht', rfl, -⟩ := mem_meets.1 hu'
    obtain ⟨hsb', hsn'⟩ := hxn s' hs'
    obtain ⟨htb', htn'⟩ := hyn t' ht'
    rw [extent_meet hsb' htb' hsn' htn'] at hxu'
    have hss := hx.eq_of_lower_le hs' hs (hlow hsn' hxu'.1) hsl
    have htt := hy.eq_of_lower_le ht' ht (hlow htn' hxu'.2) htl
    rw [hss, htt, hinf] at hnull
    cases hnull
  · intro hinf
    have hseam := seam_lower_of_ambiguous (hmeets.symm ▸ hamb) hu (isAll_meet σ hsb htb hsn htn)
      (hlow (isAll_meet σ hsb htb hsn htn) hxu) hxu
    rcases eq_of_seam_aboveNull (bounds_meet hsb htb).lower hseam with h | h
    · exact absurd ⟨hamb, h⟩ hinf
    · exact ⟨_, hu, h, hxu⟩

/-! ### Narrowing -/

theorem value_narrow (cmp : Value → Value → Ordering) (left : Option (List Span))
    (operand : List Span) :
    (Span.narrow cmp left operand).value =
      if operand = [.all] then left
      else some (Span.union cmp (match left with
        | none => operand
        | some xs => Span.meets cmp xs operand)).value := by
  simp only [Span.narrow]
  split <;> rfl

/-- What is left is canonical, and counts as everything only as long as nothing was taken
away. -/
def Left (σ : d.Scale K) : Option (List Span) → Prop
  | none => True
  | some spans => σ.Canonical spans ∧ spans ≠ [.all]

theorem Canonical.not_isAll {spans : List Span} (h : σ.Canonical spans) (hne : spans ≠ [.all]) :
    ∀ s ∈ spans, d.Bounds s ∧ s.isAll = false := by
  intro s hs
  refine ⟨h.bounds s hs, ?_⟩
  by_contra hall
  exact hne (h.eq_all_of_mem (Span.isAll_iff.1 (by simpa using hall) ▸ hs))

theorem extents_subset_all (spans : List Span) : σ.extents spans ⊆ σ.extents [.all] := by
  rintro x ⟨s, -, hx⟩
  exact ⟨.all, List.mem_singleton_self _, σ.mem_extent_all.2 (lt_top_of_mem_extent hx)⟩

theorem narrow_spec {left : Option (List Span)} {operand : List Span} (hl : σ.Left left)
    (ho : σ.Canonical operand) :
    σ.Left (Span.narrow d.compare left operand).value ∧
      σ.form ((Span.narrow d.compare left operand).value.getD [.all]) =
        σ.form (left.getD [.all]) ⊓ σ.form operand := by
  rw [value_narrow]
  split
  next he => exact ⟨hl, by rw [he, form_all, inf_top_eq]⟩
  next hne =>
    have hon := ho.not_isAll hne
    -- a result that took up every seam would need an operand that does
    have hkeep : ∀ spans : List Span, (∀ s ∈ spans, d.Bounds s) →
        σ.extents spans ⊆ σ.extents operand →
        σ.Left (some (Span.union d.compare spans).value) ∧
          σ.form (Span.union d.compare spans).value = σ.form spans := by
      intro spans hb hsub
      obtain ⟨hcan, hsame⟩ := union_spec (σ := σ) hb
      refine ⟨⟨hcan, fun he => hne (ho.eq_all_of_extents ?_)⟩, form_union hb⟩
      rw [he] at hsame
      exact (extents_subset_all _).antisymm (hsame ▸ hsub)
    cases left with
    | none =>
      obtain ⟨hleft, hsame⟩ := hkeep operand ho.bounds subset_rfl
      exact ⟨hleft, by rw [Option.getD_none, form_all, top_inf_eq]; exact hsame⟩
    | some xs =>
      obtain ⟨hcan, hxs⟩ := hl
      have hxn := hcan.not_isAll hxs
      have hmeets := extents_meets (σ := σ) hxn hon
      obtain ⟨hleft, hsame⟩ := hkeep (Span.meets d.compare xs operand)
        (fun u hu => bounds_of_mem_meets hcan.bounds ho.bounds hu)
        (hmeets ▸ Set.inter_subset_right)
      exact ⟨hleft, hsame.trans (form_meets hcan ho hxn hon)⟩

theorem narrow_all_spec {operands : List (List Span)} (ho : ∀ spans ∈ operands, σ.Canonical spans)
    {left : Option (List Span)} (hl : σ.Left left) :
    let result := operands.foldl (fun l o => (Span.narrow d.compare l o).value) left
    σ.Left result ∧ σ.form (result.getD [.all]) =
      σ.form (left.getD [.all]) ⊓ (operands.map σ.form : Multiset (Form K)).inf := by
  induction operands generalizing left with
  | nil => exact ⟨hl, by simp⟩
  | cons o os ih =>
    obtain ⟨hoc, hos⟩ := List.forall_mem_cons.1 ho
    obtain ⟨hnext, hsame⟩ := narrow_spec hl hoc
    obtain ⟨hresult, hform⟩ := ih hos hnext
    refine ⟨hresult, hform.trans ?_⟩
    rw [hsame, List.map_cons, ← Multiset.cons_coe, Multiset.inf_cons, inf_assoc]

/-- The intersection of canonical lists is canonical, and its form is the meet of theirs. -/
theorem intersection_spec {operands : List (List Span)}
    (ho : ∀ spans ∈ operands, σ.Canonical spans) :
    σ.Canonical (Span.intersection d.compare operands).value ∧
      σ.form (Span.intersection d.compare operands).value =
        (operands.map σ.form : Multiset (Form K)).inf := by
  have hvalue : (Span.intersection d.compare operands).value =
      (operands.foldl (fun l o => (Span.narrow d.compare l o).value) none).getD [.all] := by
    simp only [Span.intersection, Recorded.value_bind, Recorded.value_foldlM, Recorded.value_pure]
  obtain ⟨hleft, hsame⟩ := narrow_all_spec ho (show σ.Left none from trivial)
  rw [hvalue]
  constructor
  · cases hr : operands.foldl (fun l o => (Span.narrow d.compare l o).value) none with
    | none => exact canonical_all
    | some xs => exact (hr ▸ hleft : σ.Left (some xs)).1
  · rw [hsame, Option.getD_none, form_all, top_inf_eq]

end SearchArgument.Domain.Scale
