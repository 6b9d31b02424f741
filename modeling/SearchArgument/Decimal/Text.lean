import SearchArgument.Decimal.Basic

/-! Decimals as text. Writing gives the whole part, then a point and exactly
`scale` digits. Reading accepts digits with one point, separators after the first
digit and, where that fails, a decimal exponent; digits that no longer fit behind
the point are rounded away. -/

namespace SearchArgument.Decimal

/-- The digits of a decimal, with its sign in front. -/
def written (d : Decimal) : List Char :=
  (if d.negative then ['-'] else []) ++ Nat.toDigits 10 d.whole ++
    (if d.scale = 0 then [] else '.' :: (Nat.toDigits 10 d.fraction).leftpad d.scale '0')

def render (d : Decimal) : String := .ofList d.written

instance : ToString Decimal := ⟨render⟩

/-- Why a text is no decimal. -/
inductive ReadError where
  | empty
  | noDigits
  | twoPoints
  | leadingSeparator
  | unknownCharacter
  | tooManyDigits
  | roundedTooLarge
  | badExponent
  | scaleTooLarge (scale : Nat)
  | tooLarge
  deriving DecidableEq

namespace ReadError

def message : ReadError → String
  | empty => "Invalid decimal: empty"
  | noDigits => "Invalid decimal: no digits found"
  | twoPoints => "Invalid decimal: two decimal points"
  | leadingSeparator => "Invalid decimal: must start lead with a number"
  | unknownCharacter => "Invalid decimal: unknown character"
  | tooManyDigits => "Invalid decimal: overflow from too many digits"
  | roundedTooLarge => "Invalid decimal: overflow from mantissa after rounding"
  | badExponent => "Failed to parse"
  | scaleTooLarge n => s!"Scale exceeds the maximum precision allowed: {n} > 28"
  | tooLarge => "Number exceeds maximum value that can be represented."

end ReadError

/-- The value of a digit. -/
def digitValue (c : Char) : Nat := c.toNat - '0'.toNat

/-- One more digit before the point. -/
def pushWhole? (m : Magnitude) (digit : Nat) : Option Magnitude :=
  if h : 10 * m.mantissa + digit < 79228162514264337593543950336 then
    some ⟨10 * m.mantissa + digit, m.scale, h, m.scale_le⟩
  else none

/-- One more digit after the point. -/
def pushFraction? (m : Magnitude) (digit : Nat) : Option Magnitude :=
  if h : m.scale < 28 ∧ 10 * m.mantissa + digit < 79228162514264337593543950336 then
    some ⟨10 * m.mantissa + digit, m.scale + 1, h.2, h.1⟩
  else none

/-- Rounds by the first digit that did not fit. A mantissa that overflows gives up
one more place, where there is one. -/
def roundBy (m : Magnitude) (digit : Nat) : Except ReadError Magnitude :=
  if digit < 5 then .ok m
  else if h : m.mantissa + 1 < 79228162514264337593543950336 then
    .ok { m with mantissa := m.mantissa + 1, mantissa_lt := h }
  else if m.scale = 0 then .error .roundedTooLarge
  else .ok ⟨(m.mantissa + 5) / 10, m.scale - 1, by have := m.mantissa_lt; omega,
    by have := m.scale_le; omega⟩

/-- The characters behind the rounded place carry no value, but must be digits or
separators. -/
def readTail (m : Magnitude) : List Char → Except ReadError Magnitude
  | [] => .ok m
  | c :: cs =>
    if c.isDigit || c == '_' then readTail m cs
    else if c == '.' then .error .twoPoints
    else .error .unknownCharacter

/-- Whether the digits before the last were gathered in one word. The bound is a tenth of
the largest word, with a margin of one byte. -/
def isShort (m : Magnitude) : Bool :=
  m.mantissa / 10 < (UInt64.size - 1) / 10 - (UInt8.size - 1)

/-- Reads digits onto `m`; `point` and `seen` tell whether a point and a digit came
before. Once all places are taken, a separator stands for a zero in the rounded place
behind a short mantissa; behind a long one it is passed over, and the next digit rounds. -/
def readDigits (point seen : Bool) (m : Magnitude) : List Char → Except ReadError Magnitude
  | [] => if seen then .ok m else .error .noDigits
  | c :: cs =>
    if c.isDigit then
      match if point then pushFraction? m (digitValue c) else pushWhole? m (digitValue c) with
      | some m => readDigits point true m cs
      | none =>
        if point then roundBy m (digitValue c) >>= (readTail · cs) else .error .tooManyDigits
    else if c == '.' then
      if point then .error .twoPoints else readDigits true seen m cs
    else if c == '_' then
      if !seen then .error .leadingSeparator
      else if m.scale = 28 && isShort m then readTail m cs
      else readDigits point seen m cs
    else .error .unknownCharacter

/-- A decimal without exponent. -/
def readPlain : List Char → Except ReadError Decimal
  | [] => .error .empty
  | '-' :: cs => signed true <$> readDigits false false .zero cs
  | '+' :: cs => signed false <$> readDigits false false .zero cs
  | cs => signed false <$> readDigits false false .zero cs

/-- An exponent is a number of 32 bits, to which a plus sign may be put. -/
def readExponent (cs : List Char) : Except ReadError Nat :=
  let ds := if cs.head? = some '+' then cs.tail else cs
  let n := ds.foldl (fun n c => 10 * n + digitValue c) 0
  if !ds.isEmpty && ds.all Char.isDigit && n < UInt32.size then .ok n else .error .badExponent

/-- Moves the point to the left. Places that cannot be held are rounded away, a half
away from zero. What is rounded to zero keeps its sign. -/
def shiftLeft (d : Decimal) (n : Nat) : Except ReadError Decimal :=
  if 28 < n then .error (.scaleTooLarge n)
  else if h : d.scale + n ≤ 28 then .ok ⟨d.withScale (d.scale + n) h, d.negative⟩
  else
    let unit := Nat.pow 10 (d.scale + n - 28)
    let carry := if unit ≤ 2 * (d.mantissa % unit) then 1 else 0
    have : d.mantissa / unit ≤ d.mantissa / 10 :=
      Nat.div_le_div_left (Nat.le_self_pow (by omega) 10) (by decide)
    .ok ⟨⟨d.mantissa / unit + carry, 28,
      by have := d.mantissa_lt; simp only [carry]; split <;> omega, by decide⟩, d.negative⟩

/-- Moves the point to the right, past the last digit if need be. -/
def shiftRight (d : Decimal) (n : Nat) : Except ReadError Decimal :=
  if n ≤ d.scale then
    .ok ⟨d.withScale (d.scale - n) (by have := d.scale_le; omega), d.negative⟩
  else if 28 < n then .error (.scaleTooLarge n)
  else
    match Magnitude.ofNat? (d.mantissa * Nat.pow 10 (n - d.scale)) with
    | some m => .ok ⟨m, d.negative⟩
    | none => .error .tooLarge

def isExponentMark (c : Char) : Bool := c == 'e' || c == 'E'

/-- A decimal with an exponent behind the first mark. -/
def readScientific (cs : List Char) : Except ReadError Decimal := do
  let d ← readPlain (cs.takeWhile (!isExponentMark ·))
  match (cs.dropWhile (!isExponentMark ·)).tail with
  | '-' :: e => d.shiftLeft (← readExponent e)
  | e => d.shiftRight (← readExponent e)

def read (cs : List Char) : Except ReadError Decimal :=
  match readPlain cs with
  | .error e => if cs.any isExponentMark then readScientific cs else .error e
  | d => d

def parse (s : String) : Except ReadError Decimal := read s.toList

end SearchArgument.Decimal
