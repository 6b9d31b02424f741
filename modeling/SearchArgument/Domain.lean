import SearchArgument.Fault

/-! Domains: the ordered sets of values that search arguments range over. A domain
decides which literals belong to it, how one that falls between its members is
rounded, and how its members compare. The null marker is never its concern.

What a domain promises about its order is that the values on which it places literals are compared
as a total preorder; values that it never places may compare anyhow. A dense domain has a value
between any two and none at either end. -/

namespace SearchArgument

/-- Where a literal lies in a domain: on a member, or below the least member that is
greater. Only discrete domains round. -/
inductive Placement where
  | member (v : Value)
  | ceiling (v : Value)
  deriving DecidableEq

structure Domain where
  name : String
  discrete : Bool
  place : Value → Except Fault Placement
  compare : Value → Value → Ordering := Value.compare

namespace Domain

/-- Domains are told apart by name. -/
instance : BEq Domain := ⟨fun a b => a.name == b.name⟩

def describe (d : Domain) : String := "DomainRef(\"" ++ d.name ++ "\")"

/-- The member that a literal denotes, if it denotes one. -/
def member? (d : Domain) (v : Value) : Option Value :=
  match d.place v with
  | .ok (.member w) => some w
  | _ => none

/-- The point of the line that a probe denotes. Null is a point of every domain. -/
def point? (d : Domain) (v : Value) : Option Coordinate :=
  if v.isNull then some .null else (d.member? v).map .finite

/-- A literal that may bound a range, unchanged. -/
def literal (d : Domain) (v : Value) : Except Fault Value :=
  if v.isNull then .ok v else (d.place v).map fun _ => v

/-- Why a literal cannot bound a range, if it cannot. -/
def refusal? (d : Domain) (literal : Value) : Option Fault :=
  if literal.isNull then none
  else
    match d.place literal with
    | .error f => some f
    | .ok (.member _) => none
    | .ok (.ceiling _) => if d.discrete then none else some (.roundedByContinuous literal d.name)

/-! ### Order -/

/-- The values on which a domain places literals. Null is never placed. -/
def Holds (d : Domain) (v : Value) : Prop :=
  ∃ literal : Value, literal.isNull = false ∧
    (d.place literal = .ok (.member v) ∨ d.place literal = .ok (.ceiling v))

structure Ordered (d : Domain) : Prop where
  swap : ∀ v w, d.Holds v → d.Holds w → (d.compare v w).swap = d.compare w v
  trans : ∀ u v w, d.Holds u → d.Holds v → d.Holds w →
    (d.compare u v).isLE → (d.compare v w).isLE → (d.compare u w).isLE

/-- A value that its domain places on itself. -/
def Member (d : Domain) (v : Value) : Prop := v.isNull = false ∧ d.place v = .ok (.member v)

/-- The domain places literals on its members only, and these are ordered densely and without
ends. Members that compare as equal are equal. -/
structure Dense (d : Domain) : Prop extends d.Ordered where
  inhabited : ∃ v, d.Member v
  member_of_holds : ∀ v, d.Holds v → d.Member v
  eq_of_compare : ∀ v w, d.Member v → d.Member w → d.compare v w = .eq → v == w
  between : ∀ u w, d.Member u → d.Member w → d.compare u w = .lt →
    ∃ v, d.Member v ∧ d.compare u v = .lt ∧ d.compare v w = .lt
  below : ∀ w, d.Member w → ∃ v, d.Member v ∧ d.compare v w = .lt
  above : ∀ v, d.Member v → ∃ w, d.Member w ∧ d.compare v w = .lt

end Domain

/-! ### Rows

The rows of a domain are null and the literals that it places on members. Null comes before all
others, which are in the order of their members. Rows are of one class if they are both null or if
their members compare as equal. -/

namespace Coordinate

variable (cmp : Value → Value → Ordering)

/-- Both are null, or both are values that compare as equal. -/
inductive Alike : Coordinate → Coordinate → Prop
  | null : Alike .null .null
  | finite {v w : Value} : cmp v w = .eq → Alike (.finite v) (.finite w)

/-- The first point does not lie above the second. -/
inductive AtMost : Coordinate → Coordinate → Prop
  | null (p : Coordinate) : AtMost .null p
  | finite {v w : Value} : cmp v w ≠ .gt → AtMost (.finite v) (.finite w)

end Coordinate

namespace Domain

variable (d : Domain)

def Row (row : Value) : Prop := row.isNull ∨ ∃ v, d.place row = .ok (.member v)

/-- Both are rows, and of one class. -/
def SameClass (a b : Value) : Prop :=
  ∃ p q, d.point? a = some p ∧ d.point? b = some q ∧ p.Alike d.compare q

/-- Both are rows, and the first does not come after the second. -/
def AtMost (a b : Value) : Prop :=
  ∃ p q, d.point? a = some p ∧ d.point? b = some q ∧ p.AtMost d.compare q

end Domain

end SearchArgument
