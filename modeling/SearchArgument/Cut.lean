import SearchArgument.Value

/-! Cuts of the extended value line. A coordinate is a value, the null marker or an
infinity, and null lies below all the others. A cut bounds a range at a coordinate
from one side, and includes or excludes the coordinate itself; an infinity is the
outermost cut of its side. The order takes the comparison of values as a parameter. -/

namespace SearchArgument

inductive Coordinate where
  | null
  | negInfinity
  | finite (v : Value)
  | posInfinity
  deriving DecidableEq

inductive Side where
  | lower
  | upper
  deriving DecidableEq

inductive Strictness where
  | opened
  | closed
  deriving DecidableEq

inductive Cut where
  | negInfinity
  | posInfinity
  | null (side : Side) (strictness : Strictness)
  | finite (v : Value) (side : Side) (strictness : Strictness)
  deriving DecidableEq

namespace Coordinate

def isNull : Coordinate → Bool
  | null => true
  | _ => false

def isInfinite : Coordinate → Bool
  | negInfinity | posInfinity => true
  | _ => false

def isFinite : Coordinate → Bool
  | finite _ => true
  | _ => false

def value? : Coordinate → Option Value
  | finite v => some v
  | _ => none

def rank : Coordinate → Nat
  | null => 0
  | negInfinity => 1
  | finite _ => 2
  | posInfinity => 3

/-- The order along the line; between values it is the given comparison. -/
protected def compare (cmp : Value → Value → Ordering) : Coordinate → Coordinate → Ordering
  | finite v, finite w => cmp v w
  | a, b => compare a.rank b.rank

/-- Equality up to equality of values. -/
instance : BEq Coordinate where
  beq
    | finite v, finite w => v == w
    | a, b => a.rank == b.rank

def written : Coordinate → List Char
  | null => "null".toList
  | negInfinity => "-infinity".toList
  | finite v => v.written
  | posInfinity => "+infinity".toList

def render (c : Coordinate) : String := .ofList c.written

end Coordinate

namespace Side

def flip : Side → Side
  | lower => upper
  | upper => lower

end Side

namespace Strictness

def flip : Strictness → Strictness
  | opened => closed
  | closed => opened

end Strictness

namespace Cut

def coordinate : Cut → Coordinate
  | negInfinity => .negInfinity
  | posInfinity => .posInfinity
  | null _ _ => .null
  | finite v _ _ => .finite v

def side : Cut → Side
  | negInfinity => .lower
  | posInfinity => .upper
  | null s _ | finite _ s _ => s

def strictness : Cut → Strictness
  | negInfinity | posInfinity => .opened
  | null _ t | finite _ _ t => t

def isInfinite (c : Cut) : Bool := c.coordinate.isInfinite

def isNull (c : Cut) : Bool := c.coordinate.isNull

def isClosed (c : Cut) : Bool := c.strictness = .closed

/-- Where a cut lies next to its coordinate: just below, on it, or just above. -/
def offset : Cut → Int
  | negInfinity | posInfinity => 0
  | null s t | finite _ s t =>
    match s, t with
    | .upper, .opened => -1
    | _, .closed => 0
    | .lower, .opened => 1

/-- The order of positions: `≤ 7` and `≥ 7` lie on one point, `< 7` before `> 7`. -/
protected def compare (cmp : Value → Value → Ordering) (a b : Cut) : Ordering :=
  (a.coordinate.compare cmp b.coordinate).then (compare a.offset b.offset)

/-- The position of a cut relative to a point. -/
def comparePoint (cmp : Value → Value → Ordering) (a : Cut) (p : Coordinate) : Ordering :=
  (a.coordinate.compare cmp p).then (compare a.offset 0)

/-- Two cuts of one value leave no gap if either includes it. Infinities and the null
marker touch nothing. -/
def touches (cmp : Value → Value → Ordering) : Cut → Cut → Bool
  | finite v _ s, finite w _ t => cmp v w == .eq && (s == .closed || t == .closed)
  | _, _ => false

/-- The cut of the same position from the other side; infinities have none. -/
def opposite : Cut → Cut
  | null s t => null s.flip t.flip
  | finite v s t => finite v s.flip t.flip
  | c => c

/-- Equality up to equality of values. -/
instance : BEq Cut where
  beq a b := a.coordinate == b.coordinate && a.side = b.side && a.strictness = b.strictness

/-- The comparison sign of a cut. -/
def sign : Side → Strictness → List Char
  | .lower, .opened => ['>']
  | .lower, .closed => ['>', '=']
  | .upper, .opened => ['<']
  | .upper, .closed => ['<', '=']

def written (c : Cut) : List Char :=
  if c.isInfinite then c.coordinate.written
  else sign c.side c.strictness ++ ' ' :: c.coordinate.written

def render (c : Cut) : String := .ofList c.written

end Cut

end SearchArgument
