import SearchArgument.Predicate

/-! The three-valued meaning of predicates. A comparison with null is unknown; all others
go by exact value, across the numeric kinds. Connectives are Kleene's. -/

namespace SearchArgument

inductive Truth where
  | yes
  | no
  | unknown
  deriving DecidableEq

namespace Truth

def ofBool (b : Bool) : Truth := if b then yes else no

def not : Truth → Truth
  | yes => no
  | no => yes
  | unknown => unknown

def and : Truth → Truth → Truth
  | no, _ | _, no => no
  | yes, yes => yes
  | _, _ => unknown

def or : Truth → Truth → Truth
  | yes, _ | _, yes => yes
  | no, no => no
  | _, _ => unknown

end Truth

/-- Whether a comparison holds of two values that compare as given. -/
def CompareOp.holds : CompareOp → Ordering → Bool
  | eq, o => o == .eq
  | ne, o => o != .eq
  | lt, o => o == .lt
  | lte, o => o != .gt
  | gt, o => o == .gt
  | gte, o => o != .lt

namespace Truth

def ofCompare (op : CompareOp) (row literal : Value) : Truth :=
  if row.isNull || literal.isNull then unknown else ofBool (op.holds (row.compareExact literal))

/-- Nothing is in an empty list. A null in the list leaves open whether it would have
been a hit. -/
def ofMember (row : Value) (literals : List Value) : Truth :=
  if literals.isEmpty then no
  else if row.isNull then unknown
  else if literals.any fun v => !v.isNull && row.compareExact v == .eq then yes
  else if literals.any (·.isNull) then unknown
  else no

end Truth

namespace Predicate

mutual

def truth (row : Value) : Predicate → Truth
  | always => .yes
  | never => .no
  | and ps => truthOfAll row ps
  | or ps => truthOfAny row ps
  | not p => (p.truth row).not
  | compare op v => .ofCompare op row v
  | isIn vs => .ofMember row vs
  | isNotIn vs => (Truth.ofMember row vs).not
  | isNull => .ofBool row.isNull
  | isNotNull => .ofBool !row.isNull

def truthOfAll (row : Value) : List Predicate → Truth
  | [] => .yes
  | p :: ps => (p.truth row).and (truthOfAll row ps)

def truthOfAny (row : Value) : List Predicate → Truth
  | [] => .no
  | p :: ps => (p.truth row).or (truthOfAny row ps)

end

end Predicate

end SearchArgument
