import SearchArgument.Predicate
import SearchArgument.Tree

/-! Lowering of predicates to search arguments. The tree of a predicate matches a value
exactly when the predicate is true of it, so comparisons with null, which are unknown
of every value, become the empty term. -/

namespace SearchArgument

/-- A comparison with a literal that is not null. -/
def CompareOp.lower (d : Domain) (literal : Value) : CompareOp → Attempt Tree
  | eq => return .leaf (← Interval.point d literal)
  | ne => return .node d .complement [.leaf (← Interval.point d literal)]
  | lt => return .leaf (← (Interval.unconstrained d).edit (.setUpper literal .opened))
  | lte => return .leaf (← (Interval.unconstrained d).edit (.setUpper literal .closed))
  | gt => return .leaf (← (Interval.unconstrained d).edit (.setLower literal .opened))
  | gte => return .leaf (← (Interval.unconstrained d).edit (.setLower literal .closed))

namespace Predicate

/-- The union of the points of a list. Null equals nothing and adds no point. -/
def lowerList (d : Domain) (literals : List Value) : Attempt Tree := do
  let points ← (literals.filter (!·.isNull)).mapM (Interval.point d)
  return .node d .union (points.map .leaf)

/-- The values outside a list. Against a list with a null nothing is known to be outside,
but its other literals still have to belong to the domain. -/
def lowerOutside (d : Domain) (literals : List Value) : Attempt Tree := do
  if literals.isEmpty then return .leaf (.unconstrained d)
  let inside ← lowerList d literals
  if literals.any (·.isNull) then return .leaf (.empty d)
  return .node d .complement [inside]

mutual

/-- The tree of a predicate. A negation is pushed inwards first, which does not make the
predicate larger. -/
def lower (d : Domain) : Predicate → Attempt Tree
  | always => return .leaf (.unconstrained d)
  | never => return .leaf (.empty d)
  | and ps => return .node d .intersection (← lowerAll d ps)
  | or ps => return .node d .union (← lowerAll d ps)
  | not p => p.negate.lower d
  | compare op v => if v.isNull then return .leaf (.empty d) else op.lower d v
  | isIn vs => lowerList d vs
  | isNotIn vs => lowerOutside d vs
  | isNull => return .leaf (.null d)
  | isNotNull => return .node d .complement [.leaf (.null d)]
termination_by p => (p.size, 0)
decreasing_by
  · exact .left _ _ (by simp [size])
  · exact .left _ _ (by simp [size])
  · exact .left _ _ (by have := size_negate_le p; simp only [size]; omega)

def lowerAll (d : Domain) : List Predicate → Attempt (List Tree)
  | [] => return []
  | p :: ps => return (← p.lower d) :: (← lowerAll d ps)
termination_by ps => (sizes ps, 1)
decreasing_by
  · simp only [sizes]
    by_cases h : sizes ps = 0
    · rw [h]; exact .right _ (by decide)
    · exact .left _ _ (by omega)
  · simp only [sizes]
    exact .left _ _ (by have := size_pos p; omega)

end

/-! ### Lowering call by call

The body of a call is written once, with the calls that it makes as a parameter, and then run with a
meter: it counts the calls, and it allows for no more than a given number of them inside each
other. -/

/-- One call of lowering. Other predicates are left to `next`. -/
def lowerCall {m : Type → Type} [Monad m] [MonadLiftT Attempt m] (d : Domain)
    (next : Predicate → m Tree) : Predicate → m Tree
  | always => return .leaf (.unconstrained d)
  | never => return .leaf (.empty d)
  | and ps => return .node d .intersection (← ps.mapM next)
  | or ps => return .node d .union (← ps.mapM next)
  | not p => next p.negate
  | compare op v => if v.isNull then return .leaf (.empty d) else liftM (op.lower d v)
  | isIn vs => liftM (lowerList d vs)
  | isNotIn vs => liftM (lowerOutside d vs)
  | isNull => return .leaf (.null d)
  | isNotNull => return .node d .complement [.leaf (.null d)]

/-- An attempt that counts calls. It comes to nothing if they nest too deeply. -/
abbrev Metered := StateT Nat (OptionT Attempt)

/-- Lowers with at most `depth` calls inside each other, and counts all of them. -/
def lowerMetered (d : Domain) : Nat → Predicate → Metered Tree
  | 0, _ => failure
  | depth + 1, p => do
    modify (· + 1)
    lowerCall d (lowerMetered d depth) p

end Predicate

end SearchArgument
