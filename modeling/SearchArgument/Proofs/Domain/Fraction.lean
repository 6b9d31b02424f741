import SearchArgument.Proofs.Domain.Dense
import SearchArgument.Proofs.Domain.Scalar

/-! Dense domains: binary fractions between zero and one, written as the digits behind the
point. Without trailing zeros every fraction has one text, and the order of texts is the order
of fractions. Where one half is written as a decimal instead, it has several spellings, which are
equal but not identical. -/

namespace SearchArgument

/-- Digits of a fraction: zeros and ones, the last of them a one. -/
def isFraction : List Char → Bool
  | [] => false
  | c :: cs => if cs.isEmpty then c = '1' else (c = '0' || c = '1') && isFraction cs

theorem isFraction_cons {c : Char} {cs : List Char} (hc : c = '0' ∨ c = '1')
    (h : isFraction cs) : isFraction (c :: cs) := by
  cases cs with
  | nil => cases h
  | cons e es => simpa [isFraction, hc] using h

theorem digit_of_isFraction {c : Char} {cs : List Char} (h : isFraction (c :: cs)) :
    (c = '0' ∨ c = '1') ∧ (cs = [] ∧ c = '1' ∨ isFraction cs) := by
  cases cs with
  | nil =>
    simp [isFraction] at h
    simp [h]
  | cons e es => simpa [isFraction] using h

theorem zero_cons_lt {cs : List Char} (h : isFraction cs) : '0' :: cs < cs := by
  induction cs with
  | nil => cases h
  | cons c cs ih =>
    obtain ⟨hc, hcs⟩ := digit_of_isFraction h
    rw [List.cons_lt_cons_iff]
    rcases hc with rfl | rfl
    · rcases hcs with ⟨-, h⟩ | hcs
      · cases h
      · exact .inr ⟨rfl, ih hcs⟩
    · exact .inl (by decide)

theorem lt_append_one (cs : List Char) : cs < cs ++ ['1'] := by
  have h : cs ++ [] < cs ++ ['1'] := List.append_left_lt (List.nil_lt_cons _ _)
  rwa [List.append_nil] at h

theorem isFraction_append_one {cs : List Char} (h : isFraction cs) :
    isFraction (cs ++ ['1']) := by
  induction cs with
  | nil => cases h
  | cons c cs ih =>
    obtain ⟨hc, ⟨rfl, -⟩ | hcs⟩ := digit_of_isFraction h
    · exact isFraction_cons hc rfl
    · exact isFraction_cons hc (ih hcs)

theorem exists_fraction_between {cs es : List Char} (hcs : isFraction cs) (hes : isFraction es)
    (h : cs < es) : ∃ gs, isFraction gs ∧ cs < gs ∧ gs < es := by
  induction cs generalizing es with
  | nil => cases hcs
  | cons c cs ih =>
    cases es with
    | nil => cases hes
    | cons e es =>
      obtain ⟨hc, hcs'⟩ := digit_of_isFraction hcs
      obtain ⟨-, hes'⟩ := digit_of_isFraction hes
      rcases List.cons_lt_cons_iff.1 h with hlt | ⟨rfl, hlt⟩
      · exact ⟨c :: cs ++ ['1'], isFraction_append_one hcs, lt_append_one _,
          List.cons_lt_cons_iff.2 (.inl hlt)⟩
      · rcases hes' with ⟨rfl, -⟩ | hes'
        · exact absurd hlt (List.not_lt_nil _)
        · rcases hcs' with ⟨rfl, -⟩ | hcs'
          · exact ⟨c :: '0' :: es, isFraction_cons hc (isFraction_cons (.inl rfl) hes'),
              List.cons_lt_cons_iff.2 (.inr ⟨rfl, List.nil_lt_cons _ _⟩),
              List.cons_lt_cons_iff.2 (.inr ⟨rfl, zero_cons_lt hes'⟩)⟩
          · obtain ⟨gs, hgs, hcg, hge⟩ := ih hcs' hes' hlt
            exact ⟨c :: gs, isFraction_cons hc hgs, List.cons_lt_cons_iff.2 (.inr ⟨rfl, hcg⟩),
              List.cons_lt_cons_iff.2 (.inr ⟨rfl, hge⟩)⟩

/-! ### Fractions as a domain -/

namespace Domain

/-- The values that pass a test, as a continuous domain. -/
def ofTest (name : String) (test : Value → Bool) (compare : Value → Value → Ordering) : Domain where
  name := name
  discrete := false
  place v := if test v then .ok (.member v) else .error (.foreignLiteral v name)
  compare := compare

section

variable {name : String} {test : Value → Bool} {compare : Value → Value → Ordering} {v : Value}

theorem member_ofTest_iff :
    (ofTest name test compare).Member v ↔ v.isNull = false ∧ test v := by
  simp [Member, ofTest]

theorem member_of_holds_ofTest (h : (ofTest name test compare).Holds v) :
    (ofTest name test compare).Member v := by
  obtain ⟨literal, hn, h⟩ := h
  simp only [ofTest] at h
  split at h
  next htest =>
    obtain rfl : literal = v := by simpa using h
    exact member_ofTest_iff.2 ⟨hn, htest⟩
  next => simp at h

end

/-- The texts that are digits of fractions. -/
def fraction : Domain :=
  ofTest "fraction" (fun | .text s => isFraction s.toList | _ => false) Value.compare

theorem member_of_isFraction {cs : List Char} (h : isFraction cs) :
    fraction.Member (.text (.ofList cs)) :=
  member_ofTest_iff.2 ⟨rfl, by simpa using h⟩

theorem exists_text {v : Value} (h : fraction.Member v) :
    ∃ cs, v = .text (.ofList cs) ∧ isFraction cs := by
  obtain ⟨-, htest⟩ := member_ofTest_iff.1 h
  cases v with
  | text s => exact ⟨s.toList, by rw [String.ofList_toList], htest⟩
  | null | bool | decimal | int | uint => cases htest

theorem compare_fraction {cs es : List Char} :
    fraction.compare (.text (.ofList cs)) (.text (.ofList es)) = .lt ↔ cs < es := by
  rw [show fraction.compare (.text (.ofList cs)) (.text (.ofList es)) =
    Ord.compare (String.ofList cs) (String.ofList es) from rfl, compare_lt_iff_lt,
    String.lt_iff_toList_lt, String.toList_ofList, String.toList_ofList]

/-- Fractions that compare as equal are the same text. -/
theorem eq_of_compare_fraction {v w : Value} (hv : fraction.Member v) (hw : fraction.Member w)
    (h : fraction.compare v w = .eq) : v = w := by
  obtain ⟨cs, rfl, -⟩ := exists_text hv
  obtain ⟨es, rfl, -⟩ := exists_text hw
  have heq : String.ofList cs = String.ofList es := compare_eq_iff_eq.1 h
  rw [heq]

theorem dense_fraction : fraction.Dense where
  toOrdered := (keyed rfl).ordered
  inhabited := ⟨_, member_of_isFraction (show isFraction ['1'] from rfl)⟩
  member_of_holds _ := member_of_holds_ofTest
  eq_of_compare v w hv hw he := by
    obtain rfl := eq_of_compare_fraction hv hw he
    obtain ⟨cs, rfl, -⟩ := exists_text hv
    exact decide_eq_true rfl
  between u w hu hw hlt := by
    obtain ⟨cs, rfl, hcs⟩ := exists_text hu
    obtain ⟨es, rfl, hes⟩ := exists_text hw
    obtain ⟨gs, hgs, hcg, hge⟩ := exists_fraction_between hcs hes (compare_fraction.1 hlt)
    exact ⟨_, member_of_isFraction hgs, compare_fraction.2 hcg, compare_fraction.2 hge⟩
  below w hw := by
    obtain ⟨es, rfl, hes⟩ := exists_text hw
    exact ⟨_, member_of_isFraction (isFraction_cons (.inl rfl) hes),
      compare_fraction.2 (zero_cons_lt hes)⟩
  above v hv := by
    obtain ⟨cs, rfl, hcs⟩ := exists_text hv
    exact ⟨_, member_of_isFraction (isFraction_append_one hcs),
      compare_fraction.2 (lt_append_one cs)⟩

end Domain

/-! ### One half as a decimal -/

def Decimal.half : Decimal := (ofScaled? 5 1).getD .zero

namespace Domain

/-- The text of a fraction, where one half is a decimal. -/
def fractionText : Value → Value
  | .decimal _ => .text "1"
  | v => v

/-- The same fractions, but one half is a decimal and may have zeros at its end. -/
def decimalHalf : Domain :=
  ofTest "decimal half"
    (fun
      | .text s => isFraction s.toList && s != "1"
      | .decimal d => d == .half
      | _ => false)
    fun v w => fraction.compare (fractionText v) (fractionText w)

theorem member_of_ne_one {s : String} (h : isFraction s.toList) (hne : s ≠ "1") :
    decimalHalf.Member (.text s) :=
  member_ofTest_iff.2 ⟨rfl, by simp [h, hne]⟩

theorem member_of_beq_half {d : Decimal} (h : d == .half) : decimalHalf.Member (.decimal d) :=
  member_ofTest_iff.2 ⟨rfl, h⟩

/-- A text other than that of one half, or a decimal equal to one half. -/
theorem member_decimalHalf {v : Value} (h : decimalHalf.Member v) :
    (∃ s, v = .text s ∧ isFraction s.toList ∧ s ≠ "1") ∨ ∃ d, v = .decimal d ∧ d == .half := by
  obtain ⟨-, htest⟩ := member_ofTest_iff.1 h
  cases v with
  | text s => exact .inl ⟨s, rfl, by simpa using htest⟩
  | decimal d => exact .inr ⟨d, rfl, htest⟩
  | null | bool | int | uint => cases htest

theorem dense_decimalHalf : decimalHalf.Dense := by
  have hspelled : ∀ v, decimalHalf.Member v → fraction.Member (fractionText v) := by
    intro v hv
    obtain ⟨s, rfl, hs, -⟩ | ⟨d, rfl, -⟩ := member_decimalHalf hv
    · exact member_ofTest_iff.2 ⟨rfl, hs⟩
    · exact member_of_isFraction (show isFraction ['1'] from rfl)
  apply dense_fraction.of_spelling (fun _ => member_of_holds_ofTest) hspelled _ fun _ _ => rfl
  · -- equal texts come from one text, or else from decimals of one half
    intro v w hv hw he
    have htext := eq_of_compare_fraction (hspelled v hv) (hspelled w hw) he
    obtain ⟨s, rfl, -, hs⟩ | ⟨d, rfl, hd⟩ := member_decimalHalf hv <;>
      obtain ⟨s', rfl, -, hs'⟩ | ⟨d', rfl, hd'⟩ := member_decimalHalf hw
    · exact beq_of_eq htext
    · exact absurd (Value.text.inj htext) hs
    · exact absurd (Value.text.inj htext).symm hs'
    · exact BEq.trans (α := Value) (b := .decimal .half) hd (BEq.symm (α := Value) hd')
  · intro w hw
    obtain ⟨cs, rfl, hcs⟩ := exists_text hw
    by_cases hone : String.ofList cs = "1"
    · exact ⟨.decimal .half, member_of_beq_half (by decide), congrArg Value.text hone.symm⟩
    · exact ⟨_, member_of_ne_one (by rwa [String.toList_ofList]) hone, rfl⟩

end Domain

end SearchArgument
