/-! Numbers: words of 64 bits, and exact decimals. A decimal is a sign, a mantissa below
`2 ^ 96` and a scale of at most 28 places. Equality and order are numeric, so `9.0` and `9` are
equal and zero has one value under both signs, while the scale and the sign are kept for
display. -/

namespace SearchArgument

/-! ### Words -/

/-- The word that holds an integer, if one does. -/
def int64? (n : Int) : Option Int64 :=
  if (Int64.ofInt n).toInt = n then some (.ofInt n) else none

def uint64? (n : Int) : Option UInt64 :=
  if (UInt64.ofNat n.toNat).toNat = n then some (.ofNat n.toNat) else none

/-! ### Decimals -/

/-- An unsigned decimal, `mantissa / 10 ^ scale`. -/
structure Magnitude where
  mantissa : Nat
  scale : Nat
  mantissa_lt : mantissa < 79228162514264337593543950336
  scale_le : scale ≤ 28
  deriving DecidableEq

structure Decimal extends Magnitude where
  negative : Bool
  deriving DecidableEq

namespace Magnitude

def zero : Magnitude := ⟨0, 0, by decide, by decide⟩

/-- An integer as a magnitude, if it fits. -/
def ofNat? (n : Nat) : Option Magnitude :=
  if h : n < 79228162514264337593543950336 then some ⟨n, 0, h, by decide⟩ else none

/-- The same digits read with another number of places. -/
def withScale (m : Magnitude) (scale : Nat) (h : scale ≤ 28) : Magnitude :=
  { m with scale, scale_le := h }

/-- The digits before the point. -/
def whole (m : Magnitude) : Nat := m.mantissa / Nat.pow 10 m.scale

/-- The digits after the point, as a number below `10 ^ scale`. -/
def fraction (m : Magnitude) : Nat := m.mantissa % Nat.pow 10 m.scale

theorem whole_le_mantissa (m : Magnitude) : m.whole ≤ m.mantissa := Nat.div_le_self _ _

theorem whole_le_tenth (m : Magnitude) (h : m.scale ≠ 0) : m.whole ≤ m.mantissa / 10 :=
  Nat.div_le_div_left (Nat.le_self_pow h 10) (by decide)

end Magnitude

namespace Decimal

/-- Attaches a sign, which zero does not take. -/
def signed (negative : Bool) (m : Magnitude) : Decimal :=
  { m with negative := negative && m.mantissa != 0 }

def zero : Decimal := signed false .zero

instance : Inhabited Decimal := ⟨zero⟩

/-- The signed mantissa. -/
def coefficient (d : Decimal) : Int := if d.negative then -d.mantissa else d.mantissa

/-- Numeric order, by cross multiplication with the powers of ten. -/
protected def compare (a b : Decimal) : Ordering :=
  compare (a.coefficient * (Nat.pow 10 b.scale : Nat))
    (b.coefficient * (Nat.pow 10 a.scale : Nat))

instance : Ord Decimal := ⟨Decimal.compare⟩

instance : BEq Decimal := ⟨fun a b => a.compare b == .eq⟩

/-- Trailing zeros do not count: `9.0` is integral. -/
def isIntegral (d : Decimal) : Bool := d.fraction == 0

/-- The least integral decimal that is not smaller. The sign is kept even when the
digits vanish, so the ceiling of `-0.5` is a zero that still has its sign. -/
def ceil (d : Decimal) : Decimal :=
  if h : d.scale = 0 then d
  else if d.fraction == 0 || d.negative then
    ⟨⟨d.whole, 0, Nat.lt_of_le_of_lt d.whole_le_mantissa d.mantissa_lt, by decide⟩, d.negative⟩
  else
    ⟨⟨d.whole + 1, 0, by have := d.whole_le_tenth h; have := d.mantissa_lt; omega, by decide⟩,
      false⟩

/-- The integer that an integral decimal denotes. -/
def toInt? (d : Decimal) : Option Int :=
  if d.isIntegral then some (if d.negative then -d.whole else d.whole) else none

def toInt64? (d : Decimal) : Option Int64 := d.toInt?.bind int64?

/-- A decimal with its sign set has no unsigned form, a zero of that sign included. -/
def toUInt64? (d : Decimal) : Option UInt64 :=
  if d.negative then none else d.toInt?.bind uint64?

def ofInt64 (i : Int64) : Decimal :=
  signed (i.toInt < 0) ⟨i.toInt.natAbs, 0,
    by have := i.le_toInt; have := i.toInt_lt; omega, by decide⟩

def ofUInt64 (u : UInt64) : Decimal :=
  signed false ⟨u.toNat, 0, by have := u.toNat_lt; omega, by decide⟩

/-- The decimal `num / 10 ^ scale`, if so many places can be held. -/
def ofScaled? (num : Int64) (scale : Nat) : Option Decimal :=
  if h : scale ≤ 28 then
    let d := ofInt64 num
    some ⟨d.toMagnitude.withScale scale h, d.negative⟩
  else none

/-- The number that a decimal denotes. -/
def toRat (d : Decimal) : Rat := mkRat d.coefficient (Nat.pow 10 d.scale)

end Decimal

end SearchArgument
