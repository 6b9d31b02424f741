import SearchArgument.Proofs.Decimal.Text
import SearchArgument.Proofs.Domain.Scalar

/-! Values by their text. Within one kind the text of a literal fixes its value, and the words for
null and the infinities are the text of no value. What follows a coordinate in the text of a span
begins with a mark. Words and numbers hold no such mark, and a quoted text ends with the first quote
that is not doubled, so a coordinate is read in one way only. -/

namespace SearchArgument

/-! ### Quoted texts -/

namespace Value

/-- What stands before the first quote that is not doubled, and what stands behind it. -/
def readQuoted : List Char → List Char × List Char
  | '\'' :: '\'' :: cs => ('\'' :: (readQuoted cs).1, (readQuoted cs).2)
  | '\'' :: cs => ([], cs)
  | c :: cs => (c :: (readQuoted cs).1, (readQuoted cs).2)
  | [] => ([], [])

/-- A text is read back from between its quotes, if no third quote follows. -/
theorem readQuoted_doubleQuotes (s : List Char) {x : Char} (hx : x ≠ '\'') (xs : List Char) :
    readQuoted (doubleQuotes s ++ '\'' :: x :: xs) = (s, x :: xs) := by
  induction s with
  | nil => simp [doubleQuotes, readQuoted, hx]
  | cons c cs ih =>
    rw [doubleQuotes]
    split
    next hc =>
      subst hc
      simp [readQuoted, ih]
    next hc => simp [readQuoted, hc, ih]

theorem written_text_append (s : String) (rest : List Char) :
    (text s).written ++ rest = '\'' :: (doubleQuotes s.toList ++ '\'' :: rest) := by
  show '\'' :: ((doubleQuotes s.toList ++ ['\'']) ++ rest) = _
  rw [List.append_assoc, List.singleton_append]

/-- Texts are told apart where no quote follows. -/
theorem written_text_append_inj {s t : String} {x y : Char} {xs ys : List Char} (hx : x ≠ '\'')
    (hy : y ≠ '\'') (h : (text s).written ++ x :: xs = (text t).written ++ y :: ys) :
    s = t ∧ x = y ∧ xs = ys := by
  rw [written_text_append, written_text_append] at h
  have hread := congrArg readQuoted (List.cons.inj h).2
  rw [readQuoted_doubleQuotes s.toList hx, readQuoted_doubleQuotes t.toList hy] at hread
  obtain ⟨hst, hrest⟩ := Prod.mk.inj hread
  exact ⟨String.toList_inj.1 hst, List.cons.inj hrest⟩

/-! ### Values -/

/-- Numbers of one kind that are written alike are equal. -/
theorem beq_of_number_written_eq {v w : Value} (hr : v.rank = w.rank) {d e : Decimal}
    (hv : v.toDecimal? = some d) (hw : w.toDecimal? = some e) (h : d.written = e.written) :
    v == w := by
  rw [beq_iff_compare, ← compareExact_eq hr, compareExact_of_number (number?_of_toDecimal? hv)
    (number?_of_toDecimal? hw), compare_eq_iff_eq]
  exact Decimal.toRat_eq_of_written_eq h

/-- Literals of one kind that are written alike are equal. -/
theorem beq_of_written_eq {v w : Value} (hr : v.rank = w.rank) (h : v.written = w.written) :
    v == w := by
  cases v <;> cases w <;> cases hr
  case null.null.refl => rfl
  case bool.bool.refl a b => cases a <;> cases b <;> first | rfl | exact absurd h (by decide)
  case text.text.refl s t =>
    have hstop : (text s).written ++ [','] = (text t).written ++ [','] := congrArg (· ++ [',']) h
    obtain ⟨rfl, -⟩ := written_text_append_inj (by decide) (by decide) hstop
    exact beq_self_eq_true _
  all_goals exact beq_of_number_written_eq rfl rfl rfl h

/-- A word with an `n` is the text of no value but null. -/
theorem written_ne_word {v : Value} (hv : v.rank ≠ 0) {w : List Char} (hn : 'n' ∈ w)
    (hquote : w.head? ≠ some '\'') : v.written ≠ w := by
  rintro rfl
  cases v with
  | null => exact hv rfl
  | bool b => cases b <;> exact absurd hn (by decide)
  | decimal | int | uint => exact absurd (Decimal.isNumeric_of_mem_written hn) (by decide)
  | text s => exact hquote rfl

end Value

/-! ### Coordinates -/

namespace Coordinate

/-- The marks that follow a coordinate in the text of a span. -/
def stops : List Char := [',', ']', ')']

/-- Neither quotes nor marks. -/
def Plain (w : List Char) : Prop := ∀ c ∈ '\'' :: stops, c ∉ w

instance (w : List Char) : Decidable (Plain w) := List.decidableBAll _ _

theorem ne_quote_of_mem_stops {x : Char} (hx : x ∈ stops) : x ≠ '\'' := by
  rintro rfl
  exact absurd hx (by decide)

theorem Plain.quote_ne {w : List Char} (hw : Plain w) {x : Char} (hx : x ∈ stops)
    (xs zs : List Char) : '\'' :: zs ≠ w ++ x :: xs := by
  cases w with
  | nil => exact fun h => ne_quote_of_mem_stops hx (List.cons.inj h).1.symm
  | cons c cs =>
    intro h
    obtain ⟨rfl, -⟩ := List.cons.inj h
    exact hw _ List.mem_cons_self List.mem_cons_self

/-- Plain words are told apart where a mark follows. -/
theorem Plain.append_inj {v w : List Char} (hv : Plain v) (hw : Plain w) {x y : Char}
    (hx : x ∈ stops) (hy : y ∈ stops) {xs ys : List Char} (h : v ++ x :: xs = w ++ y :: ys) :
    v = w ∧ x = y ∧ xs = ys := by
  have hplain : ∀ {w z}, Plain w → z ∈ stops → ∀ c ∈ w, c ≠ z := by
    rintro w z hw hz c hc rfl
    exact hw c (List.mem_cons_of_mem _ hz) hc
  induction v generalizing w with
  | nil =>
    cases w with
    | nil => exact ⟨rfl, List.cons.inj h⟩
    | cons c cs => exact absurd (List.cons.inj h).1.symm (hplain hw hx c List.mem_cons_self)
  | cons c cs ih =>
    cases w with
    | nil => exact absurd (List.cons.inj h).1 (hplain hv hy c List.mem_cons_self)
    | cons c' cs' =>
      obtain ⟨rfl, htail⟩ := List.cons.inj h
      have hv' : Plain cs := fun m hm hmem => hv m hm (List.mem_cons_of_mem _ hmem)
      have hw' : Plain cs' := fun m hm hmem => hw m hm (List.mem_cons_of_mem _ hmem)
      obtain ⟨rfl, hrest⟩ := ih hv' hw' htail
      exact ⟨rfl, hrest⟩

theorem plain_number (d : Decimal) : Plain d.written := by
  have hmarks : ('\'' :: stops).all (!Decimal.isNumeric ·) := rfl
  intro c hc hmem
  have hmark := List.all_eq_true.1 hmarks c hc
  rw [Decimal.isNumeric_of_mem_written hmem] at hmark
  cases hmark

/-- Only texts are quoted. -/
theorem plain_written {c : Coordinate} (h : ∀ s, c ≠ .finite (.text s)) : Plain c.written := by
  cases c with
  | null | negInfinity | posInfinity => decide
  | finite v =>
    cases v with
    | null => decide
    | bool b => cases b <;> decide
    | decimal | int | uint => exact plain_number _
    | text s => exact absurd rfl (h s)

/-- The values of a coordinate are of a given kind, and not null. -/
structure OfRank (r : ℕ) (c : Coordinate) : Prop where
  ne_zero : r ≠ 0
  rank_eq : ∀ v, c = .finite v → v.rank = r

variable {r : ℕ} {a b : Coordinate}

theorem written_finite (v : Value) : (finite v).written = v.written := rfl

theorem written_of_not_isFinite (h : a.isFinite = false) :
    'n' ∈ a.written ∧ a.written.head? ≠ some '\'' := by
  cases a with
  | null | negInfinity | posInfinity => decide
  | finite => cases h

theorem OfRank.written_ne {v : Value} (hv : OfRank r (.finite v)) (hb : b.isFinite = false) :
    v.written ≠ b.written := by
  obtain ⟨hn, hquote⟩ := written_of_not_isFinite hb
  exact Value.written_ne_word (hv.rank_eq v rfl ▸ hv.ne_zero) hn hquote

/-- Coordinates that are written alike are equal. -/
theorem OfRank.beq_of_written_eq (ha : OfRank r a) (hb : OfRank r b)
    (h : a.written = b.written) : a == b := by
  cases a <;> cases b
  case finite.finite v w =>
    exact Value.beq_of_written_eq ((ha.rank_eq v rfl).trans (hb.rank_eq w rfl).symm) h
  case finite.null | finite.negInfinity | finite.posInfinity => exact absurd h (ha.written_ne rfl)
  case null.finite | negInfinity.finite | posInfinity.finite =>
    exact absurd h.symm (hb.written_ne rfl)
  all_goals first | rfl | exact absurd h (by decide)

/-- Before a mark a coordinate is read in one way only. -/
theorem OfRank.written_append_inj (ha : OfRank r a) (hb : OfRank r b) {x y : Char}
    (hx : x ∈ stops) (hy : y ∈ stops) {xs ys : List Char}
    (h : a.written ++ x :: xs = b.written ++ y :: ys) : a == b ∧ x = y ∧ xs = ys := by
  by_cases hqa : ∃ s, a = .finite (.text s)
  · obtain ⟨s, rfl⟩ := hqa
    by_cases hqb : ∃ t, b = .finite (.text t)
    · obtain ⟨t, rfl⟩ := hqb
      rw [written_finite, written_finite] at h
      obtain ⟨rfl, hrest⟩ := Value.written_text_append_inj (ne_quote_of_mem_stops hx)
        (ne_quote_of_mem_stops hy) h
      exact ⟨beq_self_eq_true (Value.text s), hrest⟩
    · rw [written_finite, Value.written_text_append] at h
      exact absurd h ((plain_written fun t ht => hqb ⟨t, ht⟩).quote_ne hy _ _)
  · have hpa := plain_written fun s hs => hqa ⟨s, hs⟩
    by_cases hqb : ∃ t, b = .finite (.text t)
    · obtain ⟨t, rfl⟩ := hqb
      rw [written_finite, Value.written_text_append] at h
      exact absurd h.symm (hpa.quote_ne hx _ _)
    · have hpb := plain_written fun t ht => hqb ⟨t, ht⟩
      obtain ⟨hwritten, hrest⟩ := hpa.append_inj hpb hx hy h
      exact ⟨ha.beq_of_written_eq hb hwritten, hrest⟩

end Coordinate

end SearchArgument
