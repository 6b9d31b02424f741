import SearchArgument.Value

/-! Predicates over a single column, and the negation that keeps their three-valued
meaning: where a predicate is unknown, its negation is unknown as well. -/

namespace SearchArgument

inductive CompareOp where
  | eq
  | ne
  | lt
  | lte
  | gt
  | gte
  deriving DecidableEq

namespace CompareOp

def tag : CompareOp → Nat
  | eq => 1
  | ne => 2
  | lt => 3
  | lte => 4
  | gt => 5
  | gte => 6

/-- The comparison that holds of two values exactly where this one does not. -/
def negate : CompareOp → CompareOp
  | eq => ne
  | ne => eq
  | lt => gte
  | lte => gt
  | gt => lte
  | gte => lt

end CompareOp

inductive Predicate where
  | always
  | never
  | and (ps : List Predicate)
  | or (ps : List Predicate)
  | not (p : Predicate)
  | compare (op : CompareOp) (literal : Value)
  | isIn (literals : List Value)
  | isNotIn (literals : List Value)
  | isNull
  | isNotNull

namespace Predicate

instance : AndOp Predicate := ⟨fun p q => and [p, q]⟩

instance : OrOp Predicate := ⟨fun p q => or [p, q]⟩

instance : Complement Predicate := ⟨not⟩

/-- Both ends count. -/
def between (lo hi : Value) : Predicate := compare .gte lo &&& compare .lte hi

mutual

/-- Structural equality, up to equality of literals. -/
protected def beq : Predicate → Predicate → Bool
  | always, always | never, never | isNull, isNull | isNotNull, isNotNull => true
  | and ps, and qs | or ps, or qs => beqAll ps qs
  | not p, not q => p.beq q
  | compare op v, compare op' w => op = op' && v == w
  | isIn vs, isIn ws | isNotIn vs, isNotIn ws => vs == ws
  | _, _ => false

def beqAll : List Predicate → List Predicate → Bool
  | [], [] => true
  | p :: ps, q :: qs => p.beq q && beqAll ps qs
  | _, _ => false

end

instance : BEq Predicate := ⟨Predicate.beq⟩

mutual

/-- Pushes a negation one level inwards through conjunctions and disjunctions. -/
def negate : Predicate → Predicate
  | always => never
  | never => always
  | and ps => or (negateAll ps)
  | or ps => and (negateAll ps)
  | not p => p
  | compare op v => compare op.negate v
  | isIn vs => isNotIn vs
  | isNotIn vs => isIn vs
  | isNull => isNotNull
  | isNotNull => isNull

def negateAll : List Predicate → List Predicate
  | [] => []
  | p :: ps => p.negate :: negateAll ps

end

mutual

/-- All literals from left to right, those below negations and in lists included. -/
def literals : Predicate → List Value
  | and ps | or ps => literalsAll ps
  | not p => p.literals
  | compare _ v => [v]
  | isIn vs | isNotIn vs => vs
  | _ => []

def literalsAll : List Predicate → List Value
  | [] => []
  | p :: ps => p.literals ++ literalsAll ps

end

mutual

/-- The number of nodes. -/
def size : Predicate → Nat
  | and ps | or ps => sizes ps + 1
  | not p => p.size + 1
  | _ => 1

def sizes : List Predicate → Nat
  | [] => 0
  | p :: ps => p.size + sizes ps

end

theorem size_pos (p : Predicate) : 0 < p.size := by cases p <;> simp [size]

mutual

/-- The number of negations that stand below no other negation. -/
def outerNots : Predicate → Nat
  | and ps | or ps => outerNotsAll ps
  | not _ => 1
  | _ => 0

def outerNotsAll : List Predicate → Nat
  | [] => 0
  | p :: ps => p.outerNots + outerNotsAll ps

end

mutual

/-- Pushing a negation inwards takes away the negations that it meets, and nothing else. -/
theorem size_negate : ∀ p : Predicate, p.negate.size + p.outerNots = p.size
  | always | never | compare _ _ | isIn _ | isNotIn _ | isNull | isNotNull | not _ => rfl
  | and ps | or ps => by
    rw [negate, size, size, outerNots, ← sizes_negateAll ps, Nat.add_right_comm]

theorem sizes_negateAll : ∀ ps : List Predicate,
    sizes (negateAll ps) + outerNotsAll ps = sizes ps
  | [] => rfl
  | p :: ps => by
    rw [negateAll, sizes, sizes, outerNotsAll, ← size_negate p, ← sizes_negateAll ps]
    omega

end

theorem size_negate_le (p : Predicate) : p.negate.size ≤ p.size := Nat.le.intro p.size_negate

/-! ### Parts -/

def isNot : Predicate → Bool
  | not _ => true
  | _ => false

mutual

/-- The predicate itself and every predicate below it. -/
def subpredicates : Predicate → List Predicate
  | and ps => and ps :: allSubpredicates ps
  | or ps => or ps :: allSubpredicates ps
  | not p => not p :: p.subpredicates
  | p => [p]

def allSubpredicates : List Predicate → List Predicate
  | [] => []
  | p :: ps => p.subpredicates ++ allSubpredicates ps

end

end Predicate

end SearchArgument
