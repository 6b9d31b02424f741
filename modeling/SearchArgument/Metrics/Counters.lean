import SearchArgument.Event

/-! Counters of evaluation work. Each is an unsigned word that stops at its largest value
instead of wrapping. Their report is a JSON object; reading one back takes objects in
any order of fields, and also plain arrays in the order of declaration. -/

namespace SearchArgument

structure Counters where
  intervalEvals : UInt64
  unionEvals : UInt64
  intersectionEvals : UInt64
  complementEvals : UInt64
  termsMerged : UInt64
  boundsDiscretized : UInt64
  emptyResults : UInt64
  deriving DecidableEq

/-- Adds to a counter, up to the largest word. -/
def addCapped (c : UInt64) (n : Nat) : UInt64 := .ofNat (min (UInt64.size - 1) (c.toNat + n))

namespace Counters

def zero : Counters := ⟨0, 0, 0, 0, 0, 0, 0⟩

instance : Inhabited Counters := ⟨zero⟩

/-- Counts one event. -/
def count (c : Counters) : Event → Counters
  | .evaluated .interval => { c with intervalEvals := addCapped c.intervalEvals 1 }
  | .evaluated .union => { c with unionEvals := addCapped c.unionEvals 1 }
  | .evaluated .intersection => { c with intersectionEvals := addCapped c.intersectionEvals 1 }
  | .evaluated .complement => { c with complementEvals := addCapped c.complementEvals 1 }
  | .merged n => { c with termsMerged := addCapped c.termsMerged n }
  | .discretized => { c with boundsDiscretized := addCapped c.boundsDiscretized 1 }
  | .emptyResult => { c with emptyResults := addCapped c.emptyResults 1 }

/-! ### JSON -/

/-- The fields by name, in the order of declaration. -/
def fields (c : Counters) : List (String × UInt64) :=
  [("interval_evals", c.intervalEvals), ("union_evals", c.unionEvals),
    ("intersection_evals", c.intersectionEvals), ("complement_evals", c.complementEvals),
    ("terms_merged", c.termsMerged), ("bounds_discretized", c.boundsDiscretized),
    ("empty_results", c.emptyResults)]

/-- The report of the counters. -/
def toJson (c : Counters) : Json :=
  .record [("ops", .record (c.fields.map fun f => (f.1, .integer f.2.toNat)))]

/-- The items of a record, written as an object or as an array. All fields are needed,
each once; further members of an object are passed over. -/
def items? (names : List String) : Json → Option (List Json)
  | .object members =>
    if members.all (·.1.isSome) then names.mapM (Json.only? members) else none
  | .array items => some items
  | _ => none

def ofItems? : List Json → Option Counters
  | [a, b, c, d, e, f, g] => do
    return ⟨← a.uint64?, ← b.uint64?, ← c.uint64?, ← d.uint64?, ← e.uint64?, ← f.uint64?,
      ← g.uint64?⟩
  | _ => none

def ofJson? (j : Json) : Option Counters :=
  match items? ["ops"] j with
  | some [ops] => (items? (zero.fields.map (·.1)) ops).bind ofItems?
  | _ => none

def serialize (c : Counters) : String := c.toJson.render

def deserialize? (s : String) : Option Counters := (Json.parse? s).bind ofJson?

end Counters

/-! ### Sums

The exact sums of what events add to the counters have no largest value. -/

/-- The counters by what they count. -/
inductive Counter where
  | evaluations (e : Evaluation)
  | termsMerged
  | boundsDiscretized
  | emptyResults
  deriving DecidableEq

/-- The largest value of a counter. -/
def Counter.largest : Nat := UInt64.size - 1

def Counters.get (c : Counters) : Counter → UInt64
  | .evaluations .interval => c.intervalEvals
  | .evaluations .union => c.unionEvals
  | .evaluations .intersection => c.intersectionEvals
  | .evaluations .complement => c.complementEvals
  | .termsMerged => c.termsMerged
  | .boundsDiscretized => c.boundsDiscretized
  | .emptyResults => c.emptyResults

/-- What an event adds to a counter. -/
def Event.adds : Event → Counter → Nat
  | evaluated e, .evaluations e' => if e = e' then 1 else 0
  | merged n, .termsMerged => n
  | discretized, .boundsDiscretized => 1
  | emptyResult, .emptyResults => 1
  | _, _ => 0

/-- What events add to a counter together. -/
def Event.total : List Event → Counter → Nat
  | [], _ => 0
  | e :: es, k => e.adds k + total es k

end SearchArgument
