import SearchArgument.Domain
import SearchArgument.Span

/-! Endpoints and interval terms. An endpoint is a cut of one domain, set from a literal by
placing it in the domain, which re-types or rounds it. A term is one span of a domain, or the
explicit empty term. A fresh term is unconstrained, and terms are changed by edits; an edit that
fails leaves the term as it was. -/

namespace SearchArgument

/-! ### Endpoints -/

/-- The cut that bounds a range of the domain at a literal. Below a ceiling there is no
member up to the literal, so over a discrete domain `> 8.5` and `≥ 8.5` both say `≥ 9`,
and `< 8.5` and `≤ 8.5` both say `< 9`. -/
def Domain.cut (d : Domain) (side : Side) (strictness : Strictness) (literal : Value) :
    Attempt Cut := do
  if literal.isNull then return .null side strictness
  match ← d.place literal with
  | .member v => return .finite v side strictness
  | .ceiling v =>
    if !d.discrete then throw (.roundedByContinuous literal d.name)
    note .discretized
    return .finite v side (match side with | .lower => .closed | .upper => .opened)

structure Endpoint where
  domain : Domain
  cut : Cut

namespace Endpoint

/-- A new endpoint lies at negative infinity. -/
def fresh (d : Domain) : Endpoint := ⟨d, .negInfinity⟩

def setNegInfinity (e : Endpoint) : Endpoint := { e with cut := .negInfinity }

def setPosInfinity (e : Endpoint) : Endpoint := { e with cut := .posInfinity }

def setFinite (e : Endpoint) (side : Side) (strictness : Strictness) (literal : Value) :
    Attempt Endpoint := do
  return { e with cut := ← e.domain.cut side strictness literal }

/-- The order of positions, under the domain of the first endpoint. -/
protected def compare (a b : Endpoint) : Ordering := a.cut.compare a.domain.compare b.cut

def touches (a b : Endpoint) : Bool := a.cut.touches a.domain.compare b.cut

instance : BEq Endpoint := ⟨fun a b => a.domain == b.domain && a.cut == b.cut⟩

def render (e : Endpoint) : String := e.cut.render

end Endpoint

/-! ### Terms -/

/-- Whether a term was set to match the null marker. Only setting it to null does. -/
inductive NullSemantics where
  | matchesNothing
  | matchesNull
  deriving DecidableEq, Inhabited

def NullSemantics.written : NullSemantics → List Char
  | matchesNothing => "NULL_MATCHES_NOTHING".toList
  | matchesNull => "NULL_MATCHES_NULL".toList

structure Interval where
  domain : Domain
  bounds : Span
  isEmpty : Bool
  nulls : NullSemantics

namespace Interval

/-- A term with the given bounds, without an annotation. -/
def ofSpan (d : Domain) (s : Span) : Interval := ⟨d, s, false, .matchesNothing⟩

def unconstrained (d : Domain) : Interval := ofSpan d .all

def empty (d : Domain) : Interval := ⟨d, .all, true, .matchesNothing⟩

def null (d : Domain) : Interval := ⟨d, .nullPoint, false, .matchesNull⟩

def lower (i : Interval) : Endpoint := ⟨i.domain, i.bounds.lower⟩

def upper (i : Interval) : Endpoint := ⟨i.domain, i.bounds.upper⟩

instance : BEq Interval where
  beq a b := a.domain == b.domain && a.bounds == b.bounds && a.isEmpty == b.isEmpty &&
    a.nulls = b.nulls

/-! ### Edits -/

inductive Edit where
  | setPoint (literal : Value)
  | setLower (literal : Value) (strictness : Strictness)
  | setUpper (literal : Value) (strictness : Strictness)
  | setLowerEndpoint (e : Endpoint)
  | setUpperEndpoint (e : Endpoint)
  | unsetLower
  | unsetUpper
  | setNull
  | setEmpty
  | setUnconstrained

/-- An endpoint from outside must have the name of the term's domain. -/
def checkDomain (i : Interval) (e : Endpoint) : Except Fault Unit :=
  if e.domain == i.domain then .ok () else .error (.endpointDomain i.domain.name e.domain.name)

/-- Applies an edit. Every one but `setNull` drops the annotation, and every one but
`setEmpty` leaves the empty state. Of an endpoint only the cut is taken over: the term keeps its own
domain, even if the endpoint is over another one of the same name, with an order of its own. -/
def edit (i : Interval) : Edit → Attempt Interval
  | .setPoint v => do
    if v.isNull then return null i.domain
    let lower ← i.domain.cut .lower .closed v
    let upper ← i.domain.cut .upper .closed v
    return ofSpan i.domain ⟨lower, upper⟩
  | .setLower v t => do
    let lower ← i.domain.cut .lower t v
    return ofSpan i.domain { i.bounds with lower }
  | .setUpper v t => do
    let upper ← i.domain.cut .upper t v
    return ofSpan i.domain { i.bounds with upper }
  | .setLowerEndpoint e => do
    i.checkDomain e
    if e.cut.side = .upper then throw (.notALowerBound e.cut)
    return ofSpan i.domain { i.bounds with lower := e.cut }
  | .setUpperEndpoint e => do
    i.checkDomain e
    if e.cut.side = .lower then throw (.notAnUpperBound e.cut)
    return ofSpan i.domain { i.bounds with upper := e.cut }
  | .unsetLower => return ofSpan i.domain { i.bounds with lower := .negInfinity }
  | .unsetUpper => return ofSpan i.domain { i.bounds with upper := .posInfinity }
  | .setNull => return null i.domain
  | .setEmpty => return { i with isEmpty := true, nulls := .matchesNothing }
  | .setUnconstrained => return unconstrained i.domain

/-- The term that holds one value. -/
def point (d : Domain) (literal : Value) : Attempt Interval :=
  (unconstrained d).edit (.setPoint literal)

/-! ### Classification -/

def isUnconstrained (i : Interval) : Bool := !i.isEmpty && i.bounds.isAll

def isPoint (i : Interval) : Bool := !i.isEmpty && i.bounds.isPoint i.domain.compare

def isNull (i : Interval) : Bool := i.isPoint && i.bounds.lower.isNull

/-- Neither empty nor unconstrained nor a point. -/
def isRange (i : Interval) : Bool := !i.isEmpty && !i.isUnconstrained && !i.isPoint

/-- Membership of a probe. One that the domain rejects or rounds is no member, not even
of the unconstrained term. -/
def contains (i : Interval) (probe : Value) : Bool :=
  match i.domain.point? probe with
  | some p => !i.isEmpty && i.bounds.covers i.domain.compare p
  | none => false

/-- By lower, then by upper bound; empty terms come first. -/
protected def compare (a b : Interval) : Ordering :=
  match a.isEmpty, b.isEmpty with
  | true, true => .eq
  | true, false => .lt
  | false, true => .gt
  | false, false => a.bounds.compare a.domain.compare b.bounds

/-! ### Evaluation -/

/-- The settled span of a term that is neither empty nor inverted. -/
def settled? (i : Interval) : Option Span :=
  if i.isEmpty then none else i.bounds.settled? i.domain.compare

/-- The spans of a term, of which there is at most one. -/
def spans (i : Interval) : Recorded (List Span) := do
  note (.evaluated .interval)
  noteIf i.settled?.isNone .emptyResult
  return i.settled?.toList

/-- The settled form of a term by itself. -/
def evaluate (i : Interval) : Recorded Interval := do
  match (← i.spans).head? with
  | some s => return ofSpan i.domain s
  | none => return empty i.domain

/-! ### Text -/

def written (i : Interval) : List Char :=
  if i.isEmpty then ['(', ')']
  else
    i.bounds.written i.domain.compare ++
      match i.nulls with
      | .matchesNothing => []
      | .matchesNull => ' ' :: i.nulls.written

def render (i : Interval) : String := .ofList i.written

/-! ### Calls

Calls edit a term in place, one after the other. A call that fails brings about no new term, so the
next one finds the term that was there before. -/

/-- Edits a term in place: what comes of the call, and the term behind it. -/
def offer (i : Interval) (change : Edit) : Recorded (Except Fault Unit × Interval) := do
  match ← (i.edit change).run with
  | .ok i' => return (.ok (), i')
  | .error f => return (.error f, i)

/-- A term behind a series of calls, whatever comes of each. -/
def offerAll (i : Interval) (changes : List Edit) : Interval :=
  changes.foldl (fun i change => (i.offer change).value.2) i

/-- The calls of a series that succeed, in order. -/
def applied (i : Interval) : List Edit → List Edit
  | [] => []
  | change :: changes =>
    match (i.offer change).value with
    | (.ok _, i') => change :: i'.applied changes
    | (.error _, i') => i'.applied changes

/-! ### Numbers -/

/-- The edit succeeds on a fresh term, which then contains just the members of the domain whose
numbers pass the test. A probe is taken for the member that the domain places it on. -/
def Edit.Keeps (d : Domain) (change : Edit) (test : Rat → Prop) : Prop :=
  ∃ i, ((unconstrained d).edit change).run.value = .ok i ∧
    ∀ probe r, d.place probe = .ok (.member r) →
      ∃ p, probe.number? = some p ∧ (i.contains probe ↔ test p)

end Interval

/-! ### What may be compared

Cuts, endpoints and terms over a domain lie at null, at an infinity or at a value that the domain
holds, whichever side they are on. -/

section

variable (d : Domain)

def Coordinate.Over : Coordinate → Prop
  | finite v => d.Holds v
  | _ => True

structure Endpoint.Over (e : Endpoint) : Prop where
  domain_eq : e.domain = d
  cut : e.cut.coordinate.Over d

structure Interval.Over (i : Interval) : Prop where
  domain_eq : i.domain = d
  lower : i.lower.Over d
  upper : i.upper.Over d

end

end SearchArgument
