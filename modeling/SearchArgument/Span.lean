import SearchArgument.Event

/-! Spans: pairs of cuts, read as what lies between them. Null lies below every other
point, so a span that begins at negative infinity leaves it out; only the span between
both infinities stands for the whole line, null included. The union, intersection and complement
of lists of spans are sequences of spans in ascending order, none of them empty, without contact
between neighbours. -/

namespace SearchArgument

structure Span where
  lower : Cut
  upper : Cut
  deriving DecidableEq

namespace Span

/-- Everything, the null marker included. -/
def all : Span := ⟨.negInfinity, .posInfinity⟩

/-- Every value, but not the null marker. -/
def nonNull : Span := ⟨.null .lower .opened, .posInfinity⟩

/-- The null marker alone. -/
def nullPoint : Span := ⟨.null .lower .closed, .null .upper .closed⟩

instance : BEq Span := ⟨fun a b => a.lower == b.lower && a.upper == b.upper⟩

def isAll (s : Span) : Bool := s.lower = .negInfinity && s.upper = .posInfinity

/-- A span from null on has nothing outside it either. -/
def isFromNull (s : Span) : Bool :=
  s.lower.isNull && s.lower.isClosed && s.upper = .posInfinity

/-- The span with `> null` for a lower bound at negative infinity, unless it holds every point. -/
def settle (s : Span) : Span :=
  if s.isAll then s
  else { s with lower := if s.lower = .negInfinity then .null .lower .opened else s.lower }

section

variable (cmp : Value → Value → Ordering)

/-- Both cuts lie on one point, which may be null. -/
def isPoint (s : Span) : Bool := !s.lower.isInfinite && s.lower.compare cmp s.upper == .eq

/-- The lower cut lies strictly past the upper one. -/
def isInverted (s : Span) : Bool := s.lower.compare cmp s.upper == .gt

/-- By lower cut, then by upper cut. -/
protected def compare (a b : Span) : Ordering :=
  (a.lower.compare cmp b.lower).then (a.upper.compare cmp b.upper)

def covers (s : Span) (p : Coordinate) : Bool :=
  s.isAll || !(p.isNull && s.lower.isInfinite) && s.lower.comparePoint cmp p != .gt &&
    s.upper.comparePoint cmp p != .lt

/-- The span in its settled form, if it is not inverted: what holds every point is
written as `all`, and a lower bound at negative infinity as `> null`. -/
def settled? (s : Span) : Option Span :=
  if s.isInverted cmp then none
  else if s.isAll || s.isFromNull then some all
  else some { s with lower := if s.lower.isInfinite then .null .lower .opened else s.lower }

/-- The common part of two spans, which may come out inverted. -/
def meet (a b : Span) : Span where
  lower := if a.lower.compare cmp b.lower == .lt then b.lower else a.lower
  upper := if a.upper.compare cmp b.upper == .gt then b.upper else a.upper

/-- Moves the upper cut up to `c`, if it lies below. -/
def extendTo (s : Span) (c : Cut) : Span :=
  if c.compare cmp s.upper == .gt then { s with upper := c } else s

/-! ### Text -/

def written (s : Span) : List Char :=
  if s.isPoint cmp then '[' :: s.lower.coordinate.written ++ [']']
  else
    (if s.lower.isClosed then '[' else '(') :: s.lower.coordinate.written ++
      ',' :: ' ' :: s.upper.coordinate.written ++ [if s.upper.isClosed then ']' else ')']

end

variable (cmp : Value → Value → Ordering)

/-! ### Union -/

/-- Whether a span that begins at `lower` continues one that ends at `upper`. Behind the
null marker nothing lies before the first value. -/
def joins (upper lower : Cut) : Bool :=
  lower.compare cmp upper != .gt || upper.touches cmp lower ||
    upper.isNull && upper.isClosed &&
      (lower = .negInfinity || lower.isNull && !lower.isClosed)

/-- Goes through spans sorted by lower cut and joins each to the running span `s` where
it continues it. -/
def sweep (s : Span) : List Span → List Span
  | [] => [s]
  | t :: ts =>
    if joins cmp s.upper t.lower then sweep (s.extendTo cmp t.upper) ts else s :: sweep t ts

/-- Puts a span in front of the first that it does not come after. -/
def insert (s : Span) : List Span → List Span
  | [] => [s]
  | t :: ts => if (s.compare cmp t).isLE then s :: t :: ts else t :: insert s ts

/-- Ascending by lower, then by upper cut; equal spans keep their order. -/
def sort (spans : List Span) : List Span := spans.foldr (insert cmp) []

/-- Spans that are not inverted, joined where they meet. -/
def gather (spans : List Span) : List Span :=
  match sort cmp spans with
  | [] => []
  | s :: ts => sweep cmp s ts

/-- No joined span holds null by being `all`, so it is written without it; a single span
from null on holds everything. -/
def close (spans : List Span) : List Span :=
  match spans.map fun s => if s.isAll then nonNull else s with
  | [s] => if s.isFromNull then [all] else [s]
  | ts => ts

/-- The union of spans. Inverted ones drop out, and `all` absorbs the rest. -/
def union (spans : List Span) : Recorded (List Span) := do
  let live := spans.filter fun s => !s.isInverted cmp
  if live.any isAll then return [all]
  let joined := gather cmp live
  let absorbed := live.length - joined.length
  noteIf (absorbed != 0) (.merged absorbed)
  return close joined

/-! ### Intersection -/

/-- The common parts of any two spans, one from each list. -/
def meets (xs ys : List Span) : List Span :=
  xs.flatMap fun x => (ys.map (x.meet cmp)).filter fun s => !s.isInverted cmp

/-- Takes one more operand. Before the first, everything is left; an operand that holds
everything changes nothing. -/
def narrow (left : Option (List Span)) (operand : List Span) :
    Recorded (Option (List Span)) :=
  if operand = [all] then return left
  else some <$> union cmp (match left with | none => operand | some xs => meets cmp xs operand)

def intersection (operands : List (List Span)) : Recorded (List Span) := do
  return (← operands.foldlM (narrow cmp) none).getD [all]

/-! ### Complement -/

/-- The gaps behind a span that ends at `upper`. -/
def gapsAfter (upper : Cut) : List Span → List Span
  | [] => if upper = .posInfinity then [] else [⟨upper.opposite, .posInfinity⟩]
  | s :: ts => ⟨upper.opposite, s.lower.opposite⟩ :: gapsAfter s.upper ts

/-- The gaps between spans in ascending order, as far as they hold values. -/
def gaps : List Span → List Span
  | [] => [nonNull]
  | s :: ts =>
    (if s.lower.coordinate.isFinite then [⟨.negInfinity, s.lower.opposite⟩] else []) ++
      gapsAfter s.upper ts

/-- The values outside all spans. Null is never among them. -/
def complement (spans : List Span) : Recorded (List Span) :=
  if spans.any isAll then return []
  else union cmp (gaps spans)

end Span

end SearchArgument
