import SearchArgument.Decimal.Text
import SearchArgument.Json

/-! The literals of search arguments: their order, their text and their JSON form.
The order is total and puts literals of different kinds in a fixed sequence; it is
numeric only between literals of one kind, while exact comparison is so across the kinds. -/

namespace SearchArgument

inductive Value where
  | null
  | bool (b : Bool)
  | decimal (d : Decimal)
  | int (i : Int64)
  | text (s : String)
  | uint (u : UInt64)
  deriving DecidableEq, Inhabited

/-- The coarse kind of a literal, by which a domain sorts out what it can hold. -/
inductive Family where
  | numeric
  | textual
  | bool
  | null
  deriving DecidableEq

namespace Value

def isNull : Value → Bool
  | null => true
  | _ => false

def family : Value → Family
  | decimal _ | int _ | uint _ => .numeric
  | text _ => .textual
  | bool _ => .bool
  | null => .null

/-- The place of a kind in the order. -/
def rank : Value → Nat
  | null => 0
  | bool _ => 1
  | decimal _ => 2
  | int _ => 3
  | text _ => 4
  | uint _ => 5

protected def compare : Value → Value → Ordering
  | bool a, bool b => compare a b
  | decimal a, decimal b => a.compare b
  | int a, int b => compare a.toInt b.toInt
  | text a, text b => compare a b
  | uint a, uint b => compare a.toNat b.toNat
  | a, b => compare a.rank b.rank

instance : Ord Value := ⟨Value.compare⟩

/-- Equality up to the scale of a decimal and the sign of a zero. -/
instance : BEq Value where
  beq
    | decimal a, decimal b => a == b
    | a, b => decide (a = b)

def toDecimal? : Value → Option Decimal
  | decimal d => some d
  | int i => some (.ofInt64 i)
  | uint u => some (.ofUInt64 u)
  | _ => none

/-- A missing literal is null. -/
def ofOption (v : Option Value) : Value := v.getD null

/-! ### Numbers -/

/-- The number that a numeric value denotes. -/
def number? : Value → Option Rat
  | decimal d => some d.toRat
  | int i => some i.toInt
  | uint u => some (u.toNat : Int)
  | _ => none

/-- Numbers by their exact values, others within their kind. -/
def compareExact (a b : Value) : Ordering :=
  match a.number?, b.number? with
  | some p, some q => if p.blt q then .lt else if q.blt p then .gt else .eq
  | _, _ => a.compare b

/-! ### Text -/

/-- A quote inside a text is written twice. -/
def doubleQuotes : List Char → List Char
  | [] => []
  | c :: cs => if c = '\'' then '\'' :: '\'' :: doubleQuotes cs else c :: doubleQuotes cs

def written : Value → List Char
  | null => "null".toList
  | bool true => "true".toList
  | bool false => "false".toList
  | decimal d => d.written
  | int i => (Decimal.ofInt64 i).written
  | uint u => (Decimal.ofUInt64 u).written
  | text s => '\'' :: doubleQuotes s.toList ++ ['\'']

def render (v : Value) : String := .ofList v.written

instance : ToString Value := ⟨render⟩

/-! ### JSON -/

/-- Null is a bare word; every other literal is an object that names its kind.
Decimals travel as strings and stay exact. -/
def toJson : Value → Json
  | null => .text "Null"
  | bool b => .record [("Bool", .bool b)]
  | decimal d => .record [("Decimal", .text d.render)]
  | int i => .record [("Int", .integer i.toInt)]
  | text s => .record [("Text", .text s)]
  | uint u => .record [("Uint", .integer u.toNat)]

/-- The literal of one kind that a JSON value stands for. -/
def ofTagged? (kind : String) (j : Json) : Option Value :=
  match kind, j with
  | "Null", .null => some null
  | "Bool", .bool b => some (bool b)
  | "Decimal", .string (some s) => (Decimal.parse s).toOption.map decimal
  | "Int", j => j.int64?.map int
  | "Text", .string (some s) => some (text s)
  | "Uint", j => j.uint64?.map uint
  | _, _ => none

def ofJson? : Json → Option Value
  | .string (some "Null") => some null
  | .object [(some kind, j)] => ofTagged? kind j
  | _ => none

def serialize (v : Value) : String := v.toJson.render

def deserialize? (s : String) : Option Value := (Json.parse? s).bind ofJson?

end Value

end SearchArgument
