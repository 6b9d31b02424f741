import SearchArgument.Tree

/-! What a search argument evaluates to: the spans of one domain in ascending order,
disjoint and without contact. The shape of the spans decides how an index is
accessed, and their bounds over the values are what a planner is told. -/

namespace SearchArgument

structure RangeSet where
  domain : Domain
  spans : List Span

/-- How an index is accessed to find the matching rows. -/
inductive Access where
  | empty
  | fullScan
  | point
  | multiPoint
  | range
  | mergeRange
  deriving DecidableEq

namespace RangeSet

instance : BEq RangeSet := ⟨fun a b => a.domain == b.domain && a.spans == b.spans⟩

def size (s : RangeSet) : Nat := s.spans.length

def intervals (s : RangeSet) : List Interval := s.spans.map (.ofSpan s.domain)

def isEmpty (s : RangeSet) : Bool := s.spans.isEmpty

/-- Whether there is a single term, and it passes the test. -/
def isOnly (s : RangeSet) (test : Interval → Bool) : Bool :=
  match s.intervals with
  | [i] => test i
  | _ => false

def isUnconstrained (s : RangeSet) : Bool := s.isOnly (·.isUnconstrained)

def isSingle (s : RangeSet) : Bool := s.size = 1

def isPoint (s : RangeSet) : Bool := s.isOnly (·.isPoint)

def isMultiPoint (s : RangeSet) : Bool := 1 < s.size && s.intervals.all (·.isPoint)

def isRange (s : RangeSet) : Bool := s.isOnly (·.isRange)

/-- Membership of a probe, the null marker included. -/
def contains (s : RangeSet) (probe : Value) : Bool := s.intervals.any (·.contains probe)

def access (s : RangeSet) : Access :=
  if s.isEmpty then .empty
  else if s.isUnconstrained then .fullScan
  else if s.isPoint then .point
  else if s.isSingle then .range
  else if s.isMultiPoint then .multiPoint
  else .mergeRange

/-- The values outside, without null. -/
def complement (s : RangeSet) : Recorded RangeSet := do
  return { s with spans := ← Span.complement s.domain.compare s.spans }

/-- The tree of the terms: the empty term, the only term, or the union of all. -/
def toTree (s : RangeSet) : Tree :=
  match s.intervals with
  | [] => .leaf (.empty s.domain)
  | [i] => .leaf i
  | is => .node s.domain .union (is.map .leaf)

def written (s : RangeSet) : List Char :=
  match s.intervals with
  | [] => ['(', ')']
  | [i] => i.written
  | is => SetOp.union.writtenBefore (is.map (·.written))

def render (s : RangeSet) : String := .ofList s.written

end RangeSet

/-! ### Explanations -/

inductive Bound where
  | unbounded
  | included (v : Value)
  | excluded (v : Value)
  deriving DecidableEq

/-- A range over the values, without the null marker. -/
structure ValueRange where
  lower : Bound
  upper : Bound
  deriving DecidableEq

structure Explanation where
  access : Access
  matchesNull : Bool
  ranges : List ValueRange
  deriving DecidableEq

/-! Explanations are equal up to equality of values. -/

instance : BEq Bound where
  beq
    | .unbounded, .unbounded => true
    | .included v, .included w | .excluded v, .excluded w => v == w
    | _, _ => false

instance : BEq ValueRange := ⟨fun a b => a.lower == b.lower && a.upper == b.upper⟩

instance : BEq Explanation where
  beq a b := a.access = b.access && a.matchesNull = b.matchesNull && a.ranges == b.ranges

/-- The null marker and the infinities leave a range of values unbounded. -/
def Bound.ofCut : Cut → Bound
  | .finite v _ .closed => .included v
  | .finite v _ .opened => .excluded v
  | _ => .unbounded

namespace RangeSet

/-- The ranges over values in ascending order, and whether null matches. -/
def explain (s : RangeSet) : Explanation where
  access := s.access
  matchesNull := s.contains .null
  ranges := (s.spans.filter (!·.upper.isNull)).map fun t => ⟨.ofCut t.lower, .ofCut t.upper⟩

end RangeSet

/-! ### Ranges

The ranges of an explanation are read by their bounds alone: which values a range holds, and when
one range ends before another begins. -/

namespace Bound

variable (cmp : Value → Value → Ordering)

/-- Whether a value satisfies the bound as a lower one. -/
def admitsFrom (b : Bound) (v : Value) : Bool :=
  match b with
  | unbounded => true
  | included w => cmp w v != .gt
  | excluded w => cmp w v == .lt

/-- Whether a value satisfies the bound as an upper one. -/
def admitsTo (b : Bound) (v : Value) : Bool :=
  match b with
  | unbounded => true
  | included w => cmp v w != .gt
  | excluded w => cmp v w == .lt

/-- A lower bound and an upper one leave room between them, be it for a single value. -/
def opens : Bound → Bound → Bool
  | included v, included w => cmp v w != .gt
  | included v, excluded w | excluded v, included w | excluded v, excluded w => cmp v w == .lt
  | unbounded, _ | _, unbounded => true

/-- An upper bound and a lower one leave room outside them both, be it for a single value. -/
def parts : Bound → Bound → Bool
  | excluded v, excluded w => cmp v w != .gt
  | included v, included w | included v, excluded w | excluded v, included w => cmp v w == .lt
  | unbounded, _ | _, unbounded => false

end Bound

namespace ValueRange

variable (cmp : Value → Value → Ordering)

def holds (r : ValueRange) (v : Value) : Bool := r.lower.admitsFrom cmp v && r.upper.admitsTo cmp v

def isProper (r : ValueRange) : Bool := r.lower.opens cmp r.upper

/-- The first range ends before the second begins, with room between them. -/
def isBefore (r r' : ValueRange) : Bool := r.upper.parts cmp r'.lower

end ValueRange

/-! ### Access

The access is read off the shape of the spans alone, but it says which rows there are to be
found. -/

namespace Access

/-- What an access promises about the rows in a range set. A point holds one class of rows, and
several points hold as many classes, one each. A range leaves out no row between two of its own, and
if null is among these, it ends at a value. -/
def Promises (s : RangeSet) : Access → Prop
  | empty => ∀ row, ¬s.contains row
  | fullScan => ∀ row, s.domain.Row row → s.contains row
  | point => ∃ a, s.domain.Row a ∧ ∀ row, s.contains row ↔ s.domain.SameClass a row
  | multiPoint => 2 ≤ s.size ∧ ∃ rows : List Value, rows.length = s.size ∧
      (∀ a ∈ rows, s.domain.Row a) ∧ rows.Pairwise (¬s.domain.SameClass · ·) ∧
      (∀ row, s.contains row ↔ ∃ a ∈ rows, s.domain.SameClass a row) ∧
      ∀ i a, (i, a) ∈ s.intervals.zip rows → ∀ row, i.contains row ↔ s.domain.SameClass a row
  | range => (∀ a b c, s.domain.AtMost a b → s.domain.AtMost b c → s.contains a → s.contains c →
      s.contains b) ∧
      (s.contains .null → ∃ i, s.intervals = [i] ∧ i.bounds.upper.coordinate.isFinite)
  | mergeRange => 2 ≤ s.size

end Access

/-! ### Canonical range sets -/

/-- A term that is not empty, not inverted and without annotation, its cuts each on their
own side. A term from null on would be unconstrained and is not written otherwise. -/
structure Interval.Canonical (i : Interval) : Prop where
  not_empty : i.isEmpty = false
  not_inverted : i.bounds.isInverted i.domain.compare = false
  nulls_eq : i.nulls = .matchesNothing
  lower_side : i.bounds.lower.side = .lower
  lower_ne : i.bounds.lower ≠ .posInfinity
  upper_side : i.bounds.upper.side = .upper
  upper_ne : i.bounds.upper ≠ .negInfinity
  not_fromNull : i.bounds.isFromNull = false

/-- A span that ends before another begins, with something left between them. -/
structure Span.Before (cmp : Value → Value → Ordering) (s t : Span) : Prop where
  upper_lt : s.upper.compare cmp t.lower = .lt
  not_touches : s.upper.touches cmp t.lower = false
  not_behind_null : s.upper = .null .upper .closed →
    t.lower ≠ .null .lower .opened ∧ t.lower ≠ .negInfinity

structure RangeSet.Canonical (s : RangeSet) : Prop where
  terms : ∀ i ∈ s.intervals, i.Canonical
  before : ∀ k a b, s.spans[k]? = some a → s.spans[k + 1]? = some b →
    a.Before s.domain.compare b
  alone : ∀ i ∈ s.intervals, i.isUnconstrained → s.size = 1
  first : ∀ k a, s.spans[k]? = some a → a.lower.isNull ∨ a.lower = .negInfinity → k = 0
  last : ∀ k a, s.spans[k]? = some a → a.upper = .posInfinity → k + 1 = s.size

/-- The range set with each of its spans settled. -/
def RangeSet.settle (s : RangeSet) : RangeSet := { s with spans := s.spans.map Span.settle }

end SearchArgument
