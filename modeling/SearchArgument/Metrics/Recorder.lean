import SearchArgument.Metrics.Counters

/-! Where events go. They are counted, unless a sink is installed; then the sink gets
them instead. Sinks are installed for the length of a scope, and scopes nest: the
innermost sink gets the events, and leaving its scope restores the one outside. -/

namespace SearchArgument

structure Recorder where
  counters : Counters
  installed : Option Nat
  delivered : List (Nat × Event)

namespace Recorder

def fresh : Recorder := ⟨.zero, none, []⟩

def record (r : Recorder) (e : Event) : Recorder :=
  match r.installed with
  | none => { r with counters := r.counters.count e }
  | some sink => { r with delivered := r.delivered ++ [(sink, e)] }

def recordAll (r : Recorder) (es : List Event) : Recorder := es.foldl record r

/-- Sets all counters to zero. -/
def reset (r : Recorder) : Recorder := { r with counters := .zero }

/-- What a sink got, in order. -/
def received (r : Recorder) (sink : Nat) : List Event :=
  (r.delivered.filter (·.1 = sink)).map (·.2)

/-- Runs a computation in the scope of a sink. -/
def withSink {α : Type} (sink : Nat) (body : StateM Recorder α) : StateM Recorder α := do
  let outside := (← get).installed
  modify ({ · with installed := some sink })
  let a ← body
  modify ({ · with installed := outside })
  return a

end Recorder

/-! ### Activities

Activities are programs that record events and open scopes of sinks, nested to any depth. Each event
belongs to the innermost scope around it. -/

inductive Activity where
  | record (e : Event)
  | scope (sink : Nat) (body : List Activity)

namespace Activity

mutual

def run : Activity → StateM Recorder Unit
  | record e => modify (·.record e)
  | scope sink body => Recorder.withSink sink (runAll body)

def runAll : List Activity → StateM Recorder Unit
  | [] => return
  | a :: as => do
    a.run
    runAll as

end

mutual

/-- The events in order, each with the sink of the innermost scope around it. -/
def events (innermost : Option Nat) : Activity → List (Option Nat × Event)
  | record e => [(innermost, e)]
  | scope sink body => allEvents (some sink) body

def allEvents (innermost : Option Nat) : List Activity → List (Option Nat × Event)
  | [] => []
  | a :: as => a.events innermost ++ allEvents innermost as

end

/-- The events, in order, whose innermost scope is that of a sink, or that lie outside every
scope. -/
def eventsFor (innermost : Option Nat) (as : List Activity) : List Event :=
  ((allEvents none as).filter (·.1 = innermost)).map (·.2)

end Activity

end SearchArgument
