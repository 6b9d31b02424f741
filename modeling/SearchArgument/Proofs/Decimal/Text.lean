import Mathlib.Data.Nat.Notation
import SearchArgument.Decimal.Text
import SearchArgument.Proofs.Decimal

/-! Reading back what was written. The digits of a decimal are gathered one by one and never
grow past its mantissa nor its scale, so the reader rounds nothing and fails nowhere. Only the sign
of a zero is lost. So no two decimals of different values are written alike. -/

namespace SearchArgument

/-! ### Digits of a number -/

theorem isDigit_of_mem_toDigits {n : ℕ} {c : Char} (h : c ∈ Nat.toDigits 10 n) : c.isDigit :=
  Nat.isDigit_of_mem_toDigits (by decide) (by decide) h

/-- Every number has a first digit. -/
theorem exists_toDigits (n : ℕ) : ∃ c cs, Nat.toDigits 10 n = c :: cs ∧ c.isDigit := by
  obtain ⟨c, cs, hcs⟩ := List.exists_cons_of_ne_nil (Nat.toDigits_ne_nil : Nat.toDigits 10 n ≠ [])
  exact ⟨c, cs, hcs, isDigit_of_mem_toDigits (hcs ▸ List.mem_cons_self)⟩

/-- Only zero begins with a zero. -/
theorem head?_toDigits {n : ℕ} (hn : n ≠ 0) : (Nat.toDigits 10 n).head? ≠ some '0' := by
  induction n using Nat.strongRecOn with
  | ind n ih =>
    rcases Nat.lt_or_ge n 10 with hlt | hge
    · simp [Nat.toDigits_of_lt_base hlt, hn]
    · have htenth := ih (n / 10) (by omega) (by omega)
      rw [Nat.toDigits_of_base_le (by decide) hge]
      cases hds : Nat.toDigits 10 (n / 10) with
      | nil => exact absurd hds Nat.toDigits_ne_nil
      | cons c cs =>
        rw [hds] at htenth
        exact htenth

theorem Magnitude.ext_iff {m m' : Magnitude} :
    m = m' ↔ m.mantissa = m'.mantissa ∧ m.scale = m'.scale := by
  obtain ⟨_, _, _, _⟩ := m
  obtain ⟨_, _, _, _⟩ := m'
  exact Magnitude.mk.injEq .. ▸ Iff.rfl

namespace Decimal

/-! ### Digits -/

theorem le_ofDigitChars (cs : List Char) (n : ℕ) : n ≤ Nat.ofDigitChars 10 cs n := by
  rw [Nat.ofDigitChars_eq_ofDigitChars_zero]
  exact (Nat.le_mul_of_pos_left n (Nat.pow_pos (by decide))).trans (Nat.le_add_right _ _)

/-- The digits behind the point fill its places, with zeros in front. -/
theorem length_fraction {m : Magnitude} (h : m.scale ≠ 0) :
    ((Nat.toDigits 10 m.fraction).leftpad m.scale '0').length = m.scale := by
  have hlt : m.fraction < 10 ^ m.scale := Nat.mod_lt _ (Nat.pow_pos (by decide))
  rw [List.length_leftpad]
  exact max_eq_left ((Nat.length_toDigits_le_iff (by decide) (Nat.pos_of_ne_zero h)).2 hlt)

theorem isDigit_of_mem_fraction {m : Magnitude} {c : Char}
    (h : c ∈ (Nat.toDigits 10 m.fraction).leftpad m.scale '0') : c.isDigit := by
  rw [List.leftpad, List.mem_append, List.mem_replicate] at h
  rcases h with ⟨-, rfl⟩ | h
  · decide
  · exact isDigit_of_mem_toDigits h

/-- All digits one after the other are those of the mantissa. -/
theorem ofDigitChars_fraction {m : Magnitude} (h : m.scale ≠ 0) :
    Nat.ofDigitChars 10 ((Nat.toDigits 10 m.fraction).leftpad m.scale '0') m.whole =
      m.mantissa := by
  rw [Nat.ofDigitChars_eq_ofDigitChars_zero, length_fraction h, List.leftpad,
    Nat.ofDigitChars_append, Nat.ofDigitChars_replicate_zero, Nat.mul_zero,
    Nat.ofDigitChars_ten_toDigits]
  exact Nat.div_add_mod m.mantissa (10 ^ m.scale)

/-- The characters of a number. -/
def isNumeric (c : Char) : Bool := c.isDigit || c == '-' || c == '.'

theorem isNumeric_of_mem_written {d : Decimal} {c : Char} (h : c ∈ d.written) : isNumeric c := by
  unfold written at h
  simp only [List.mem_append] at h
  obtain (h | h) | h := h
  · split at h
    · rw [List.mem_singleton.1 h]
      rfl
    · cases h
  · simp [isNumeric, isDigit_of_mem_toDigits h]
  · split at h
    · cases h
    · rcases List.mem_cons.1 h with rfl | h
      · rfl
      · simp [isNumeric, isDigit_of_mem_fraction h]

/-! ### Reading -/

/-- Digits are gathered as long as there is room for them. -/
theorem readDigits_append (point seen : Bool) {m : Magnitude} (n : Magnitude) {cs : List Char}
    (hcs : ∀ c ∈ cs, c.isDigit) (hn : n.mantissa = Nat.ofDigitChars 10 cs m.mantissa)
    (hs : n.scale = m.scale + if point then cs.length else 0) (rest : List Char) :
    readDigits point seen m (cs ++ rest) = readDigits point (seen || !cs.isEmpty) n rest := by
  induction cs generalizing m seen with
  | nil =>
    obtain rfl : n = m := Magnitude.ext_iff.2 ⟨hn, by simpa using hs⟩
    rw [List.nil_append, List.isEmpty_nil, Bool.not_true, Bool.or_false]
  | cons c cs ih =>
    obtain ⟨hc, hcs⟩ := List.forall_mem_cons.1 hcs
    have hlt : 10 * m.mantissa + digitValue c < 79228162514264337593543950336 :=
      (hn ▸ le_ofDigitChars cs _).trans_lt n.mantissa_lt
    have hpush : ∃ m' : Magnitude, m'.mantissa = 10 * m.mantissa + digitValue c ∧
        (m'.scale = m.scale + if point then 1 else 0) ∧
        (if point then pushFraction? m (digitValue c) else pushWhole? m (digitValue c)) =
          some m' := by
      cases point with
      | true =>
        have hroom : m.scale < 28 := by
          have := n.scale_le
          simp only [if_true, List.length_cons] at hs
          omega
        exact ⟨⟨_, m.scale + 1, hlt, hroom⟩, rfl, rfl, dif_pos ⟨hroom, hlt⟩⟩
      | false => exact ⟨⟨_, m.scale, hlt, m.scale_le⟩, rfl, rfl, dif_pos hlt⟩
    obtain ⟨m', hmantissa, hscale, hpush⟩ := hpush
    rw [List.cons_append, readDigits, if_pos hc, hpush]
    dsimp only
    rw [ih true hcs (hmantissa ▸ hn)]
    · simp
    · rw [hs, hscale]
      cases point with
      | true => simp only [if_true, List.length_cons]; omega
      | false => rfl

/-- The digits of a magnitude are read back as they are. -/
theorem readDigits_written (m : Magnitude) :
    readDigits false false .zero (Nat.toDigits 10 m.whole ++
      if m.scale = 0 then [] else
        '.' :: (Nat.toDigits 10 m.fraction).leftpad m.scale '0') = .ok m := by
  let w : Magnitude := ⟨m.whole, 0, m.whole_le_mantissa.trans_lt m.mantissa_lt, by decide⟩
  have hwhole : ∀ rest, readDigits false false .zero (Nat.toDigits 10 m.whole ++ rest) =
      readDigits false true w rest := by
    intro rest
    have hseen : (false || !(Nat.toDigits 10 m.whole).isEmpty) = true := by
      simp [Nat.toDigits_ne_nil]
    rw [readDigits_append false false w (fun c hc => isDigit_of_mem_toDigits hc)
      Nat.ofDigitChars_ten_toDigits.symm rfl, hseen]
  rw [hwhole]
  split
  next hs =>
    have hm : w = m := Magnitude.ext_iff.2 ⟨by simp [w, Magnitude.whole, hs], hs.symm⟩
    rw [hm]
    rfl
  next hs =>
    have hscale : m.scale = w.scale + ((Nat.toDigits 10 m.fraction).leftpad m.scale '0').length :=
      (length_fraction hs).symm.trans (Nat.zero_add _).symm
    have hfraction := readDigits_append true true m (fun c hc => isDigit_of_mem_fraction hc)
      (ofDigitChars_fraction hs).symm hscale []
    rw [List.append_nil] at hfraction
    exact hfraction

/-- A number is read by its digits behind its sign. -/
theorem readPlain_written (d : Decimal) : readPlain d.written =
    signed d.negative <$> readDigits false false .zero (Nat.toDigits 10 d.whole ++
      if d.scale = 0 then [] else
        '.' :: (Nat.toDigits 10 d.fraction).leftpad d.scale '0') := by
  unfold written
  cases d.negative with
  | true => rfl
  | false =>
    obtain ⟨c, cs, hcs, hc⟩ := exists_toDigits d.whole
    rw [hcs]
    show readPlain (c :: cs ++ _) = signed false <$> _
    unfold readPlain
    -- a digit is no sign
    split
    next h => cases h
    next h =>
      cases h
      cases hc
    next h =>
      cases h
      cases hc
    next => rfl

/-- A decimal is read back as it was written, but for the sign of a zero. -/
theorem read_written (d : Decimal) : read d.written = .ok (signed d.negative d.toMagnitude) := by
  have hplain : readPlain d.written = .ok (signed d.negative d.toMagnitude) := by
    rw [readPlain_written, readDigits_written]
    rfl
  rw [read, hplain]

theorem toRat_signed (d : Decimal) : (signed d.negative d.toMagnitude).toRat = d.toRat := by
  have hcoefficient : (signed d.negative d.toMagnitude).coefficient = d.coefficient := by
    simp only [signed, coefficient]
    by_cases hm : d.mantissa = 0 <;> simp [hm]
  rw [toRat_eq, toRat_eq, hcoefficient]
  rfl

/-- The text of a decimal fixes its value. -/
theorem toRat_eq_of_written_eq {d e : Decimal} (h : d.written = e.written) : d.toRat = e.toRat := by
  have hread : signed d.negative d.toMagnitude = signed e.negative e.toMagnitude :=
    Except.ok.inj ((read_written d).symm.trans ((congrArg read h).trans (read_written e)))
  rw [← toRat_signed d, hread, toRat_signed e]

end Decimal

end SearchArgument
