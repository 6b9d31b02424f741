import SearchArgument.Domain

/-! The domains of the scalar kinds. Booleans and integers are discrete; decimals
and texts are continuous. The numeric domains take each other's literals, and an
integer domain rounds a fractional decimal up to the next integer. -/

namespace SearchArgument

inductive Scalar where
  | bool
  | decimal
  | int
  | text
  | uint
  deriving DecidableEq

namespace Scalar

def name : Scalar → String
  | bool => "bool"
  | decimal => "decimal"
  | int => "int"
  | text => "text"
  | uint => "uint"

def discrete : Scalar → Bool
  | bool | int | uint => true
  | decimal | text => false

def family : Scalar → Family
  | bool => .bool
  | decimal | int | uint => .numeric
  | text => .textual

/-- Places a decimal among integers: on itself if it is integral, else below its
ceiling. -/
def placeDecimal (convert : Decimal → Option Value) (d : Decimal) : Option Placement :=
  if d.isIntegral then (convert d).map .member else (convert d.ceil).map .ceiling

def placeInt : Value → Option Placement
  | .int i => some (.member (.int i))
  | .uint u => (int64? u.toNat).map fun i => .member (.int i)
  | .decimal d => placeDecimal (·.toInt64?.map .int) d
  | _ => none

def placeUInt : Value → Option Placement
  | .uint u => some (.member (.uint u))
  | .int i => (uint64? i.toInt).map fun u => .member (.uint u)
  | .decimal d => placeDecimal (·.toUInt64?.map .uint) d
  | _ => none

/-- Places a literal of the right family, if it is in range. -/
def place? (s : Scalar) (v : Value) : Option Placement :=
  match s with
  | bool | text => some (.member v)
  | decimal => v.toDecimal?.map fun d => .member (.decimal d)
  | int => placeInt v
  | uint => placeUInt v

def place (s : Scalar) (v : Value) : Except Fault Placement :=
  if v.isNull then .error (.nullLiteral s.name)
  else if v.family ≠ s.family then .error (.foreignLiteral v s.name)
  else
    match s.place? v with
    | some p => .ok p
    | none => .error (.outOfRange v s.name)

def domain (s : Scalar) : Domain := { name := s.name, discrete := s.discrete, place := s.place }

/-! ### Integers -/

/-- The integers that a domain holds. Domains of other kinds hold none. -/
def HoldsInt : Scalar → Int → Prop
  | int, n => Int64.minValue.toInt ≤ n ∧ n ≤ Int64.maxValue.toInt
  | uint, n => 0 ≤ n ∧ n < UInt64.size
  | _, _ => False

/-- The domain has no place for the literal. -/
def Refuses (k : Scalar) (literal : Value) : Prop :=
  ∃ f, k.place literal = .error f ∧ f.origin = .domain ∧ f.kind = .unsupported

/-- The place of a decimal follows from its number: it is the least integer that is not below the
number, as a member if the two are equal and else as a ceiling. If the domain does not hold this
integer, the decimal is refused. -/
structure PlacesByNumber (k : Scalar) (d : Decimal) : Prop where
  refuses : ¬k.HoldsInt d.toRat.ceil → k.Refuses (.decimal d)
  places : k.HoldsInt d.toRat.ceil → ∃ v, k.domain.Member v ∧ v.number? = some d.toRat.ceil ∧
    k.place (.decimal d) = .ok (if d.toRat = d.toRat.ceil then .member v else .ceiling v)

end Scalar

end SearchArgument
