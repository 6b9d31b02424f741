import SearchArgument.Proofs.RangeSet
import SearchArgument.Proofs.Value.Text

/-! Spans by their text. The marks behind the coordinates and the brackets around them say what the
cuts are. A point writes one coordinate for both of its cuts, which are closed. So spans of a scalar
domain that are written alike are equal, and no text of a span begins that of another. -/

namespace SearchArgument

variable {k : Scalar} {s t : Span}

/-! ### Coordinates of cuts -/

namespace Scalar

theorem ofRank_of_holds {c : Coordinate} (h : ∀ v, c = .finite v → k.domain.Holds v) :
    c.OfRank k.rank :=
  ⟨k.rank_ne_zero, fun v hv => rank_of_holds (h v hv)⟩

theorem ofRank_lower {c : Cut} (h : k.domain.Lower c) : c.coordinate.OfRank k.rank := by
  refine ofRank_of_holds fun v hv => ?_
  cases h <;> cases hv
  assumption

theorem ofRank_upper {c : Cut} (h : k.domain.Upper c) : c.coordinate.OfRank k.rank := by
  refine ofRank_of_holds fun v hv => ?_
  cases h <;> cases hv
  assumption

end Scalar

theorem Cut.beq_iff {a b : Cut} :
    a == b ↔ a.coordinate == b.coordinate ∧ a.side = b.side ∧ a.strictness = b.strictness := by
  show (a.coordinate == b.coordinate && decide (a.side = b.side) &&
    decide (a.strictness = b.strictness)) = true ↔ _
  simp [and_assoc]

/-- A finite cut at no distance from its coordinate includes it. -/
theorem Cut.strictness_of_offset {c : Cut} (hfinite : c.isInfinite = false) (h : c.offset = 0) :
    c.strictness = .closed := by
  cases c with
  | negInfinity | posInfinity => cases hfinite
  | null side t | finite v side t => cases side <;> cases t <;> first | rfl | cases h

theorem Domain.Lower.offset_nonneg {d : Domain} {c : Cut} (h : d.Lower c) : 0 ≤ c.offset := by
  cases h with
  | negInfinity => exact le_rfl
  | null t | finite t => cases t <;> simp [Cut.offset]

theorem Domain.Upper.offset_nonpos {d : Domain} {c : Cut} (h : d.Upper c) : c.offset ≤ 0 := by
  cases h with
  | posInfinity => exact le_rfl
  | null t | finite t => cases t <;> simp [Cut.offset]

namespace Coordinate

/-- Coordinates that compare as equal are equal. -/
theorem beq_of_compare {a b : Coordinate} (h : a.compare Value.compare b = .eq) : a == b := by
  cases a <;> cases b
  case finite.finite v w => exact (Value.beq_iff_compare v w).2 h
  all_goals first | rfl | cases h

theorem isInfinite_eq_of_beq {a b : Coordinate} (h : a == b) : a.isInfinite = b.isInfinite := by
  cases a <;> cases b <;> first | rfl | cases h

end Coordinate

/-! ### Spans -/

namespace Span

/-- The sides of the cuts of a span need not be compared. -/
theorem beq_of_cuts {d : Domain} (hs : d.Bounds s) (ht : d.Bounds t)
    (hl : s.lower.coordinate == t.lower.coordinate) (hu : s.upper.coordinate == t.upper.coordinate)
    (hlt : s.lower.strictness = t.lower.strictness)
    (hut : s.upper.strictness = t.upper.strictness) : s == t :=
  Bool.and_eq_true_iff.2
    ⟨Cut.beq_iff.2 ⟨hl, hs.lower.side_eq.trans ht.lower.side_eq.symm, hlt⟩,
      Cut.beq_iff.2 ⟨hu, hs.upper.side_eq.trans ht.upper.side_eq.symm, hut⟩⟩

/-- The cuts of a point are closed and lie on one coordinate. -/
theorem isPoint_cuts (hs : k.domain.Bounds s) (h : s.isPoint k.domain.compare) :
    s.lower.strictness = .closed ∧ s.upper.strictness = .closed ∧
      s.lower.coordinate == s.upper.coordinate := by
  simp only [isPoint, Cut.compare, Bool.and_eq_true, Bool.not_eq_true', beq_iff_eq,
    Ordering.then_eq_eq, compare_eq_iff_eq] at h
  obtain ⟨hlower, hcompare, hoffset⟩ := h
  have hcoordinate := Coordinate.beq_of_compare hcompare
  have hupper : s.upper.isInfinite = false :=
    (Coordinate.isInfinite_eq_of_beq hcoordinate).symm.trans hlower
  have hzero : s.upper.offset = 0 :=
    le_antisymm hs.upper.offset_nonpos (hoffset ▸ hs.lower.offset_nonneg)
  exact ⟨Cut.strictness_of_offset hlower (hoffset.trans hzero),
    Cut.strictness_of_offset hupper hzero, hcoordinate⟩

theorem written_append_of_isPoint {cmp : Value → Value → Ordering} (h : s.isPoint cmp)
    (rest : List Char) :
    s.written cmp ++ rest = '[' :: (s.lower.coordinate.written ++ ']' :: rest) := by
  simp [written, h]

theorem written_append_of_not_isPoint {cmp : Value → Value → Ordering} (h : s.isPoint cmp = false)
    (rest : List Char) :
    s.written cmp ++ rest = (if s.lower.isClosed then '[' else '(') ::
      (s.lower.coordinate.written ++ ',' :: ' ' :: (s.upper.coordinate.written ++
        (if s.upper.isClosed then ']' else ')') :: rest)) := by
  simp [written, h]

theorem bracket_mem_stops (c : Cut) : (if c.isClosed then ']' else ')') ∈ Coordinate.stops := by
  cases c.isClosed <;> decide

/-- The brackets tell the closed cuts from the open ones. -/
theorem strictness_eq_of_bracket {b c : Cut} {close opened : Char} (hne : close ≠ opened)
    (h : (if b.isClosed then close else opened) = if c.isClosed then close else opened) :
    b.strictness = c.strictness := by
  unfold Cut.isClosed at h
  cases hb : b.strictness <;> cases hc : c.strictness <;> simp_all

theorem head?_written (cmp : Value → Value → Ordering) (s : Span) :
    (s.written cmp).head? = some '[' ∨ (s.written cmp).head? = some '(' := by
  unfold written
  split
  · exact .inl rfl
  · cases s.lower.isClosed
    · exact .inr rfl
    · exact .inl rfl

/-- Where the texts of two spans begin alike, the spans are equal, and the texts end together. -/
theorem written_append_inj (hs : k.domain.Bounds s) (ht : k.domain.Bounds t) {xs ys : List Char}
    (h : s.written k.domain.compare ++ xs = t.written k.domain.compare ++ ys) :
    s == t ∧ xs = ys := by
  have hls := Scalar.ofRank_lower hs.lower
  have hlt := Scalar.ofRank_lower ht.lower
  cases hps : s.isPoint k.domain.compare <;> cases hpt : t.isPoint k.domain.compare
  case true.true =>
    rw [written_append_of_isPoint hps, written_append_of_isPoint hpt] at h
    obtain ⟨hlower, -, hrest⟩ :=
      hls.written_append_inj hlt (by decide) (by decide) (List.cons.inj h).2
    obtain ⟨hcs, hcs', hs'⟩ := isPoint_cuts hs hps
    obtain ⟨hct, hct', ht'⟩ := isPoint_cuts ht hpt
    have hupper := PartialEquivBEq.trans (PartialEquivBEq.symm hs')
      (PartialEquivBEq.trans hlower ht')
    exact ⟨beq_of_cuts hs ht hlower hupper (hcs.trans hct.symm) (hcs'.trans hct'.symm), hrest⟩
  case true.false =>
    rw [written_append_of_isPoint hps, written_append_of_not_isPoint hpt] at h
    obtain ⟨-, hmark, -⟩ := hls.written_append_inj hlt (by decide) (by decide) (List.cons.inj h).2
    exact absurd hmark (by decide)
  case false.true =>
    rw [written_append_of_not_isPoint hps, written_append_of_isPoint hpt] at h
    obtain ⟨-, hmark, -⟩ := hls.written_append_inj hlt (by decide) (by decide) (List.cons.inj h).2
    exact absurd hmark (by decide)
  case false.false =>
    rw [written_append_of_not_isPoint hps, written_append_of_not_isPoint hpt] at h
    obtain ⟨hopen, htail⟩ := List.cons.inj h
    obtain ⟨hlower, -, hbehind⟩ := hls.written_append_inj hlt (by decide) (by decide) htail
    obtain ⟨hupper, hclose, hrest⟩ := (Scalar.ofRank_upper hs.upper).written_append_inj
      (Scalar.ofRank_upper ht.upper) (bracket_mem_stops _) (bracket_mem_stops _)
      (List.cons.inj hbehind).2
    exact ⟨beq_of_cuts hs ht hlower hupper (strictness_eq_of_bracket (by decide) hopen)
      (strictness_eq_of_bracket (by decide) hclose), hrest⟩

end Span

end SearchArgument
