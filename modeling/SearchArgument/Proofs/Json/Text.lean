import SearchArgument.Proofs.Json.Token

/-! Reading back what was written. A document is read back as it was, whatever it holds: each part
is read off the front of a text, up to the mark that ends it. The bound on nested calls is never
reached, since each call stands for a character of its own. -/

namespace SearchArgument.Json

variable {rest : List Char}

/-- No other value begins like a number. -/
theorem readValue_number {c : Char} (hc : c.isDigit ∨ c = '-') (fuel : ℕ) (cs : List Char) :
    readValue (fuel + 1) (c :: cs) = readNumber (c :: cs) := by
  -- the rows before the last begin with a letter, a quote, a bracket or a brace
  rw [readValue] <;> (rintro _ ⟨⟩; revert hc; decide)

theorem exists_writtenInt (n : ℤ) : ∃ c cs, writtenInt n = c :: cs ∧ (c.isDigit ∨ c = '-') := by
  unfold writtenInt
  split
  · exact ⟨_, _, rfl, .inr rfl⟩
  · obtain ⟨c, cs, hcs, hc⟩ := exists_toDigits n.natAbs
    exact ⟨c, cs, hcs, .inl hc⟩

theorem not_isBlank_of_number {c : Char} (hc : c.isDigit ∨ c = '-') :
    isBlank c = false ∧ c ≠ ']' := by
  have hne : ∀ b : Char, b.isDigit = false → b ≠ '-' → c ≠ b := by
    rintro b hdigit hminus rfl
    rcases hc with hc | hc
    · cases hdigit.symm.trans hc
    · exact hminus hc
  have hspace := hne ' ' rfl (by decide)
  have htab := hne '\t' rfl (by decide)
  have hline := hne '\n' rfl (by decide)
  have hreturn := hne '\r' rfl (by decide)
  exact ⟨by simp [isBlank, hspace, htab, hline, hreturn], hne ']' rfl (by decide)⟩

/-- A value begins with a character that is neither blank nor the end of an array. -/
theorem exists_written (j : Json) :
    ∃ c cs, j.written = c :: cs ∧ isBlank c = false ∧ c ≠ ']' := by
  cases j with
  | null => exact ⟨_, _, rfl, rfl, by decide⟩
  | bool b => cases b <;> exact ⟨_, _, rfl, rfl, by decide⟩
  | integer n =>
    obtain ⟨c, cs, hcs, hc⟩ := exists_writtenInt n
    exact ⟨c, cs, hcs, not_isBlank_of_number hc⟩
  | real => exact ⟨_, _, rfl, rfl, by decide⟩
  | string s => cases s <;> exact ⟨_, _, rfl, rfl, by decide⟩
  | array items => cases items <;> exact ⟨_, _, rfl, rfl, by decide⟩
  | object members => cases members <;> exact ⟨_, _, rfl, rfl, by decide⟩

theorem skipBlank_written (j : Json) (rest : List Char) :
    skipBlank (j.written ++ rest) = j.written ++ rest := by
  obtain ⟨c, cs, hcs, hblank, -⟩ := exists_written j
  simp [hcs, skipBlank, hblank]

theorem one_le_length_written (j : Json) : 1 ≤ j.written.length := by
  obtain ⟨c, cs, hcs, -⟩ := exists_written j
  simp [hcs]

/-! What stands behind an opening bracket or brace: all items or members, and what closes them. -/

def writtenAll : List Json → List Char
  | [] => [']']
  | x :: xs => written x ++ writtenItems xs

def writtenAllMembers : List (Option String × Json) → List Char
  | [] => ['\x7d']
  | (k, v) :: ms => writtenString k ++ ':' :: (written v ++ writtenMembers ms)

theorem writtenItems_eq {xs : List Json} (h : xs ≠ []) :
    writtenItems xs = ',' :: writtenAll xs := by
  cases xs with
  | nil => exact absurd rfl h
  | cons => rfl

theorem writtenMembers_eq {ms : List (Option String × Json)} (h : ms ≠ []) :
    writtenMembers ms = ',' :: writtenAllMembers ms := by
  cases ms with
  | nil => exact absurd rfl h
  | cons m ms => simp [writtenMembers, writtenAllMembers]

theorem skipBlank_writtenAll {xs : List Json} (h : xs ≠ []) (rest : List Char) :
    skipBlank (writtenAll xs ++ rest) = writtenAll xs ++ rest := by
  cases xs with
  | nil => exact absurd rfl h
  | cons x xs => rw [writtenAll, List.append_assoc, skipBlank_written]

/-- The first member begins with the quote of its key. -/
theorem exists_writtenAllMembers {ms : List (Option String × Json)} (h : ms ≠ [])
    (rest : List Char) : ∃ cs, writtenAllMembers ms ++ rest = '"' :: cs := by
  cases ms with
  | nil => exact absurd rfl h
  | cons m ms =>
    obtain ⟨cs, hcs, -⟩ :=
      readString_written m.1 (':' :: (m.2.written ++ writtenMembers ms) ++ rest)
    exact ⟨cs, by rw [writtenAllMembers, List.append_assoc, hcs]⟩

theorem skipBlank_writtenAllMembers {ms : List (Option String × Json)} (h : ms ≠ [])
    (rest : List Char) :
    skipBlank (writtenAllMembers ms ++ rest) = writtenAllMembers ms ++ rest := by
  obtain ⟨cs, hcs⟩ := exists_writtenAllMembers h rest
  rw [hcs]
  rfl

theorem ends_nil : Ends [] := nofun

theorem ends_writtenItems (xs : List Json) (rest : List Char) : Ends (writtenItems xs ++ rest) := by
  cases xs <;> (rintro c ⟨⟩; decide)

theorem ends_writtenMembers (ms : List (Option String × Json)) (rest : List Char) :
    Ends (writtenMembers ms ++ rest) := by
  cases ms <;> (rintro c ⟨⟩; decide)

/-- A first item leaves room for one call less. -/
theorem exists_room_items {x : Json} {xs : List Json} {fuel : ℕ}
    (h : (writtenAll (x :: xs)).length ≤ fuel) : ∃ n, fuel = n + 1 ∧ x.written.length ≤ n ∧
      (xs ≠ [] → (writtenAll xs).length ≤ n) := by
  have hx := x.one_le_length_written
  rw [writtenAll, List.length_append] at h
  by_cases hxs : xs = []
  · subst hxs
    rw [writtenItems, List.length_singleton] at h
    exact ⟨fuel - 1, by omega, by omega, absurd rfl⟩
  · rw [writtenItems_eq hxs, List.length_cons] at h
    exact ⟨fuel - 1, by omega, by omega, fun _ => by omega⟩

theorem exists_room_members {k : Option String} {v : Json} {ms : List (Option String × Json)}
    {fuel : ℕ} (h : (writtenAllMembers ((k, v) :: ms)).length ≤ fuel) :
    ∃ n, fuel = n + 1 ∧ v.written.length ≤ n ∧ (ms ≠ [] → (writtenAllMembers ms).length ≤ n) := by
  rw [writtenAllMembers, List.length_append, List.length_cons, List.length_append] at h
  by_cases hms : ms = []
  · subst hms
    rw [writtenMembers, List.length_singleton] at h
    exact ⟨fuel - 1, by omega, by omega, absurd rfl⟩
  · rw [writtenMembers_eq hms, List.length_cons] at h
    exact ⟨fuel - 1, by omega, by omega, fun _ => by omega⟩

variable {fuel : ℕ} {cs behind : List Char}

theorem readValue_string {s : Option String} (h : readString cs = some (s, rest)) :
    readValue (fuel + 1) ('"' :: cs) = some (.string s, rest) := by
  rw [readValue, h]
  rfl

theorem readValue_items {c : Char} (hblank : isBlank c = false) (hclose : c ≠ ']') :
    readValue (fuel + 1) ('[' :: c :: cs) =
      (readItems fuel (c :: cs)).map fun r => (.array r.1, r.2) := by
  simp [readValue, skipBlank, hblank, hclose]

theorem readValue_members : readValue (fuel + 1) ('\x7b' :: '"' :: cs) =
    (readMembers fuel ('"' :: cs)).map fun r => (.object r.1, r.2) := rfl

theorem readItems_last {x : Json} (h : readValue fuel cs = some (x, ']' :: rest)) :
    readItems (fuel + 1) cs = some ([x], rest) := by
  rw [readItems, h]
  rfl

theorem readItems_next {x : Json} (h : readValue fuel cs = some (x, ',' :: rest)) :
    readItems (fuel + 1) cs =
      (readItems fuel (skipBlank rest)).map fun r => (x :: r.1, r.2) := by
  rw [readItems, h, Option.map_eq_bind]
  rfl

theorem readMembers_last {k : Option String} {v : Json}
    (hk : readString cs = some (k, ':' :: behind))
    (hv : readValue fuel (skipBlank behind) = some (v, '\x7d' :: rest)) :
    readMembers (fuel + 1) ('"' :: cs) = some ([(k, v)], rest) := by
  rw [readMembers, hk]
  show (readValue fuel (skipBlank behind)).bind _ = _
  rw [hv]
  rfl

theorem readMembers_next {k : Option String} {v : Json}
    (hk : readString cs = some (k, ':' :: behind))
    (hv : readValue fuel (skipBlank behind) = some (v, ',' :: rest)) :
    readMembers (fuel + 1) ('"' :: cs) =
      (readMembers fuel (skipBlank rest)).map fun r => ((k, v) :: r.1, r.2) := by
  rw [readMembers, hk, Option.map_eq_bind]
  show (readValue fuel (skipBlank behind)).bind _ = _
  rw [hv]
  rfl

-- By induction on the document. A text has room for all calls that reading it makes, so the length
-- of what is to be read is the invariant that bounds the fuel.
mutual

theorem readValue_written : ∀ (j : Json) {fuel : ℕ} {rest : List Char}, j.written.length ≤ fuel →
    Ends rest → readValue fuel (j.written ++ rest) = some (j, rest)
  | j, 0, _, h, _ => absurd (Nat.le_trans j.one_le_length_written h) (by decide)
  | .null, _ + 1, _, _, _ | .bool true, _ + 1, _, _, _ | .bool false, _ + 1, _, _, _
  | .array [], _ + 1, _, _, _ | .object [], _ + 1, _, _, _ => rfl
  | .integer n, fuel + 1, rest, _, hrest => by
    obtain ⟨c, cs, hcs, hc⟩ := exists_writtenInt n
    have hread := readNumber_writtenInt n hrest
    rw [written, hcs] at *
    exact (readValue_number hc fuel _).trans hread
  | .real, fuel + 1, rest, _, hrest =>
    (readValue_number (.inl rfl) fuel _).trans (readNumber_real hrest)
  | .string s, fuel + 1, rest, _, _ => by
    obtain ⟨cs, hcs, hs⟩ := readString_written s rest
    rw [written, hcs, readValue_string hs]
  | .array (x :: xs), fuel + 1, rest, h, _ => by
    have hitems := readItems_written (x :: xs) (List.cons_ne_nil _ _)
      (Nat.le_of_succ_le_succ h) rest
    obtain ⟨c, cs, hcs, hblank, hclose⟩ := exists_written x
    rw [writtenAll, hcs] at hitems
    rw [written, hcs]
    exact (readValue_items hblank hclose).trans (congrArg _ hitems)
  | .object (m :: ms), fuel + 1, rest, h, _ => by
    have hall : (object (m :: ms)).written = '\x7b' :: writtenAllMembers (m :: ms) := by
      simp [written, writtenAllMembers]
    rw [hall] at h ⊢
    have hmembers := readMembers_written (m :: ms) (List.cons_ne_nil _ _)
      (Nat.le_of_succ_le_succ h) rest
    obtain ⟨cs, hcs⟩ := exists_writtenAllMembers (List.cons_ne_nil m ms) rest
    rw [hcs] at hmembers
    rw [List.cons_append, hcs, readValue_members, hmembers]
    rfl

theorem readItems_written : ∀ (xs : List Json) {fuel : ℕ}, xs ≠ [] →
    (writtenAll xs).length ≤ fuel → ∀ rest,
      readItems fuel (writtenAll xs ++ rest) = some (xs, rest)
  | [], _, h, _, _ => absurd rfl h
  | x :: xs, _, _, h, rest => by
    obtain ⟨fuel, rfl, hroom, hrooms⟩ := exists_room_items h
    have hx := readValue_written x hroom (ends_writtenItems xs rest)
    rw [writtenAll, List.append_assoc]
    by_cases hxs : xs = []
    · subst hxs
      exact readItems_last hx
    · rw [writtenItems_eq hxs, List.cons_append] at hx ⊢
      rw [readItems_next hx, skipBlank_writtenAll hxs, readItems_written xs hxs (hrooms hxs) rest]
      rfl

theorem readMembers_written : ∀ (ms : List (Option String × Json)) {fuel : ℕ}, ms ≠ [] →
    (writtenAllMembers ms).length ≤ fuel → ∀ rest,
      readMembers fuel (writtenAllMembers ms ++ rest) = some (ms, rest)
  | [], _, h, _, _ => absurd rfl h
  | (k, v) :: ms, _, _, h, rest => by
    obtain ⟨fuel, rfl, hroom, hrooms⟩ := exists_room_members h
    have hv := readValue_written v hroom (ends_writtenMembers ms rest)
    rw [← skipBlank_written] at hv
    obtain ⟨cs, hcs, hk⟩ := readString_written k (':' :: (v.written ++ (writtenMembers ms ++ rest)))
    rw [writtenAllMembers, List.append_assoc, List.cons_append, List.append_assoc, hcs]
    by_cases hms : ms = []
    · subst hms
      exact readMembers_last hk hv
    · rw [writtenMembers_eq hms, List.cons_append] at hv hk
      rw [readMembers_next hk hv, skipBlank_writtenAllMembers hms,
        readMembers_written ms hms (hrooms hms) rest]
      rfl

end

/-- A document is read back as it was written. -/
theorem read_written (j : Json) : read j.written = some j := by
  have hread := readValue_written j (Nat.le_add_left _ (j.written.length + 1)) ends_nil
  have hfuel : j.written.length + 1 + j.written.length = 2 * j.written.length + 1 := by omega
  have hblank := skipBlank_written j []
  rw [List.append_nil] at hread hblank
  rw [read, hblank, ← hfuel, hread]
  rfl

end SearchArgument.Json
