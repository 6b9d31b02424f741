import Mathlib.Data.Int.Notation
import Mathlib.Data.List.Basic
import SearchArgument.Json
import SearchArgument.Proofs.Decimal.Text

/-! Strings and numbers of a document, read off the front of a text. However a character is escaped,
it is read as its code point, and code points of characters are never taken for surrogates. A number
ends where a mark follows. -/

namespace SearchArgument.Json

/-! ### Strings -/

/-- A character is escaped by a letter, or by its code, or stands for itself. -/
theorem escape_cases (c : Char) :
    (∃ e, e ≠ 'u' ∧ unescape? e = some c ∧ escape c = ['\\', e]) ∨
      c.toNat < 0x20 ∧ escape c = hexEscape c ∨
      c ≠ '"' ∧ c ≠ '\\' ∧ ¬c.toNat < 0x20 ∧ escape c = [c] := by
  by_cases hletter : c ∈ ['"', '\\', '\x08', '\t', '\n', '\x0c', '\r']
  · left
    simp only [List.mem_cons, List.not_mem_nil, or_false] at hletter
    rcases hletter with rfl | rfl | rfl | rfl | rfl | rfl | rfl
    exacts [⟨'"', by decide, rfl, rfl⟩, ⟨'\\', by decide, rfl, rfl⟩, ⟨'b', by decide, rfl, rfl⟩,
      ⟨'t', by decide, rfl, rfl⟩, ⟨'n', by decide, rfl, rfl⟩, ⟨'f', by decide, rfl, rfl⟩,
      ⟨'r', by decide, rfl, rfl⟩]
  · right
    simp only [List.mem_cons, List.not_mem_nil, or_false, not_or] at hletter
    obtain ⟨hquote, hslash, hb, ht, hn, hf, hr⟩ := hletter
    have hescape : escape c = if c.toNat < 0x20 then hexEscape c else [c] := by
      simp only [escape, hquote, hslash, hb, ht, hn, hf, hr, if_false]
    by_cases hc : c.toNat < 0x20
    · exact .inl ⟨hc, hescape.trans (if_pos hc)⟩
    · exact .inr ⟨hquote, hslash, hc, hescape.trans (if_neg hc)⟩

theorem hexValue?_digitChar : ∀ d < 16, hexValue? (Nat.digitChar d) = some d := by decide

theorem readUnits_hexEscape {c : Char} (hc : c.toNat < 0x20) (cs : List Char) :
    readUnits (hexEscape c ++ cs) = (readUnits cs).map fun r => (c.toNat :: r.1, r.2) := by
  have hzero : hexValue? '0' = some 0 := rfl
  have hhigh := hexValue?_digitChar (c.toNat / 16) (by omega)
  have hlow := hexValue?_digitChar (c.toNat % 16) (by omega)
  have hcode : ((0 * 16 + 0) * 16 + c.toNat / 16) * 16 + c.toNat % 16 = c.toNat := by omega
  show readUnits ('\\' :: 'u' :: '0' :: '0' :: Nat.digitChar (c.toNat / 16) ::
    Nat.digitChar (c.toNat % 16) :: cs) = _
  rw [readUnits, hzero, hhigh, hlow]
  cases readUnits cs with
  | none => rfl
  | some r => exact congrArg (fun n => some (n :: r.1, r.2)) hcode

/-- However a character is escaped, it is read as its code point. -/
theorem readUnits_escape (c : Char) (cs : List Char) :
    readUnits (escape c ++ cs) = (readUnits cs).map fun r => (c.toNat :: r.1, r.2) := by
  rcases escape_cases c with ⟨e, hu, he, hescape⟩ | ⟨hc, hescape⟩ | ⟨hquote, hslash, hc, hescape⟩
  · rw [hescape]
    show readUnits ('\\' :: e :: cs) = _
    rw [readUnits.eq_4 _ _ fun _ _ _ _ _ h => absurd h hu, he]
    cases readUnits cs <;> rfl
  · rw [hescape, readUnits_hexEscape hc]
  · rw [hescape]
    show readUnits (c :: cs) = _
    rw [readUnits.eq_5 _ _ hquote (fun _ _ _ _ _ h => absurd h hslash)
      fun _ _ h => absurd h hslash, if_neg hc]
    cases readUnits cs <;> rfl

theorem readUnits_escaped (s rest : List Char) :
    readUnits (s.flatMap escape ++ '"' :: rest) = some (s.map Char.toNat, rest) := by
  induction s with
  | nil => rw [List.flatMap_nil, List.nil_append, readUnits, List.map_nil]
  | cons c cs ih =>
    rw [List.flatMap_cons, List.append_assoc, readUnits_escape, ih]
    rfl

/-- No character is half of a surrogate pair. -/
theorem not_isSurrogate (c : Char) : isLead c.toNat = false ∧ isTrail c.toNat = false := by
  have hvalid : c.toNat < 0xd800 ∨ 0xdfff < c.toNat ∧ c.toNat < 0x110000 := c.valid
  simp only [isLead, isTrail, Bool.and_eq_false_iff, decide_eq_false_iff_not]
  omega

theorem joinUnits_map (s : List Char) : joinUnits (s.map Char.toNat) = some s := by
  induction s with
  | nil => rw [List.map_nil, joinUnits]
  | cons c cs ih =>
    obtain ⟨hlead, htrail⟩ := not_isSurrogate c
    cases cs with
    | nil => simp [joinUnits, hlead, htrail]
    | cons c' cs =>
      rw [List.map_cons] at ih
      simp [joinUnits, hlead, htrail, ih]

theorem readString_written (s : Option String) (rest : List Char) :
    ∃ cs, writtenString s ++ rest = '"' :: cs ∧ readString cs = some (s, rest) := by
  cases s with
  | none =>
    have hcode : readString ('\\' :: 'u' :: 'd' :: '8' :: '0' :: '0' :: '"' :: rest) =
        some (none, rest) := by
      simp [readString, readUnits, hexValue?, joinUnits, isLead]
    exact ⟨_, rfl, hcode⟩
  | some s =>
    have hcut : writtenString (some s) ++ rest =
        '"' :: (s.toList.flatMap escape ++ '"' :: rest) := by
      show ('"' :: s.toList.flatMap escape ++ ['"']) ++ rest = _
      rw [List.append_assoc, List.singleton_append, List.cons_append]
    refine ⟨_, hcut, ?_⟩
    rw [readString, readUnits_escaped]
    show some ((joinUnits (s.toList.map Char.toNat)).map String.ofList, rest) = _
    rw [joinUnits_map, Option.map_some, String.ofList_toList]

/-! ### Numbers -/

/-- What may stand behind a value: nothing, or a mark. -/
def Ends (rest : List Char) : Prop := ∀ c ∈ rest.head?, c ∈ [',', ']', '\x7d']

variable {rest : List Char}

theorem Ends.not_isDigit (h : Ends rest) : ∀ c ∈ rest.head?, c.isDigit = false := by
  have hmarks : [',', ']', '\x7d'].all (!Char.isDigit ·) := rfl
  intro c hc
  simpa using List.all_eq_true.1 hmarks c (h c hc)

theorem readDigits_append {ds : List Char} (hne : ds ≠ []) (hds : ∀ c ∈ ds, c.isDigit)
    (h : ∀ c ∈ rest.head?, c.isDigit = false) : readDigits (ds ++ rest) = some (ds, rest) := by
  have hrest : rest.takeWhile Char.isDigit = [] ∧ rest.dropWhile Char.isDigit = rest := by
    cases rest with
    | nil => exact ⟨rfl, rfl⟩
    | cons c cs => simp [h c rfl]
  rw [readDigits, List.takeWhile_append_of_pos hds, List.dropWhile_append_of_pos hds, hrest.1,
    hrest.2, List.append_nil]
  cases ds with
  | nil => exact absurd rfl hne
  | cons => rfl

theorem readNat_of_readDigits {cs ds : List Char} (h : readDigits cs = some (ds, rest))
    (hzero : ∀ c ds', ds ≠ '0' :: c :: ds') :
    readNat cs = some (Nat.ofDigitChars 10 ds 0, rest) := by
  rw [readNat, h]
  split
  next heq =>
    cases heq
    exact absurd rfl (hzero _ _)
  next heq =>
    cases heq
    rfl
  next heq => cases heq

theorem readNat_toDigits (n : ℕ) (h : Ends rest) :
    readNat (Nat.toDigits 10 n ++ rest) = some (n, rest) := by
  have hdigits : readDigits (Nat.toDigits 10 n ++ rest) = some (Nat.toDigits 10 n, rest) :=
    readDigits_append Nat.toDigits_ne_nil (fun _ => isDigit_of_mem_toDigits) h.not_isDigit
  have hzero : ∀ c ds, Nat.toDigits 10 n ≠ '0' :: c :: ds := by
    intro c ds hds
    by_cases hn : n = 0
    · subst hn
      cases hds
    · exact head?_toDigits hn (hds ▸ rfl)
  rw [readNat_of_readDigits hdigits hzero, Nat.ofDigitChars_ten_toDigits]

theorem skipFraction_of_ends (h : Ends rest) : skipFraction rest = some (false, rest) := by
  unfold skipFraction
  split
  next => exact absurd (h '.' rfl) (by decide)
  next => rfl

theorem skipExponent_of_ends (h : Ends rest) : skipExponent rest = some (false, rest) := by
  cases rest with
  | nil => rfl
  | cons c cs =>
    rw [skipExponent, if_neg]
    rintro (rfl | rfl) <;> exact absurd (h _ rfl) (by decide)

variable {cs : List Char} {n : ℕ}

theorem readNumber_of_readNat (hsign : cs.head? ≠ some '-') (hn : readNat cs = some (n, rest))
    (h : Ends rest) : readNumber cs = some (.integer n, rest) := by
  simp [readNumber, hsign, hn, skipFraction_of_ends h, skipExponent_of_ends h]

theorem readNumber_minus (hzero : n ≠ 0) (hn : readNat cs = some (n, rest)) (h : Ends rest) :
    readNumber ('-' :: cs) = some (.integer (-n), rest) := by
  simp [readNumber, hzero, hn, skipFraction_of_ends h, skipExponent_of_ends h]

theorem readNumber_writtenInt (i : ℤ) (h : Ends rest) :
    readNumber (writtenInt i ++ rest) = some (.integer i, rest) := by
  have hnat := readNat_toDigits i.natAbs h
  by_cases hi : i < 0
  · have hwritten : writtenInt i = '-' :: Nat.toDigits 10 i.natAbs := if_pos hi
    have hvalue : -(i.natAbs : ℤ) = i := by omega
    rw [hwritten, List.cons_append, readNumber_minus (by omega) hnat h, hvalue]
  · have hwritten : writtenInt i = Nat.toDigits 10 i.natAbs := if_neg hi
    have hvalue : (i.natAbs : ℤ) = i := by omega
    have hsign : (Nat.toDigits 10 i.natAbs ++ rest).head? ≠ some '-' := by
      obtain ⟨c, cs, hcs, hc⟩ := exists_toDigits i.natAbs
      rw [hcs]
      rintro ⟨⟩
      cases hc
    rw [hwritten, readNumber_of_readNat hsign hnat h, hvalue]

theorem readNumber_real (h : Ends rest) :
    readNumber ('0' :: '.' :: '0' :: rest) = some (.real, rest) := by
  have hdigits : readDigits ('0' :: rest) = some (['0'], rest) :=
    readDigits_append (List.cons_ne_nil '0' []) (List.forall_mem_singleton.2 rfl) h.not_isDigit
  have hfraction : skipFraction ('.' :: '0' :: rest) = some (true, rest) := by
    rw [skipFraction, hdigits]
    rfl
  have hnat : readNat ('0' :: '.' :: '0' :: rest) = some (0, '.' :: '0' :: rest) := rfl
  simp [readNumber, hnat, hfraction, skipExponent_of_ends h]

end SearchArgument.Json
