import SearchArgument.Cut

/-! Why a search argument cannot be built. A fault is one of a few causes; its
class, its origin and its wording follow from the cause. Callers with domains of
their own may raise faults with their own wording. -/

namespace SearchArgument

namespace Fault

inductive Class where
  | unsupported
  | invariantViolation
  deriving DecidableEq

inductive Origin where
  | domain
  | endpoint
  | setExpr
  deriving DecidableEq

namespace Class

def render : Class → String
  | unsupported => "unsupported"
  | invariantViolation => "invariant_violation"

end Class

namespace Origin

def render : Origin → String
  | domain => "domain"
  | endpoint => "endpoint"
  | setExpr => "set_expr"

end Origin

end Fault

inductive Fault where
  | nullLiteral (domain : String)
  | foreignLiteral (literal : Value) (domain : String)
  | outOfRange (literal : Value) (domain : String)
  | roundedByContinuous (literal : Value) (domain : String)
  | endpointDomain (expected found : String)
  | notALowerBound (cut : Cut)
  | notAnUpperBound (cut : Cut)
  | childDomain (expected found : String)
  | secondComplementChild
  | childlessComplement
  | custom (kind : Fault.Class) (source : Fault.Origin) (text : String)
  deriving DecidableEq

namespace Fault

def kind : Fault → Class
  | nullLiteral _ | foreignLiteral _ _ | outOfRange _ _ => .unsupported
  | custom k _ _ => k
  | _ => .invariantViolation

def origin : Fault → Origin
  | nullLiteral _ | foreignLiteral _ _ | outOfRange _ _ => .domain
  | roundedByContinuous _ _ | endpointDomain _ _ | notALowerBound _ | notAnUpperBound _ => .endpoint
  | childDomain _ _ | secondComplementChild | childlessComplement => .setExpr
  | custom _ o _ => o

def message : Fault → String
  | nullLiteral d => s!"null literal cannot be admitted into domain '{d}'"
  | foreignLiteral v d => s!"literal {v} does not belong to domain '{d}'"
  | outOfRange v d => s!"literal {v} is out of range for domain '{d}'"
  | roundedByContinuous v d => s!"continuous domain '{d}' rounded literal '{v}'"
  | endpointDomain e f => s!"endpoint domain mismatch: expected '{e}', found '{f}'"
  | notALowerBound c => s!"'{c.render}' cannot be used as a lower bound"
  | notAnUpperBound c => s!"'{c.render}' cannot be used as an upper bound"
  | childDomain e f => s!"sarg child domain mismatch: expected '{e}', found '{f}'"
  | secondComplementChild => "complement accepts exactly one child"
  | childlessComplement => "complement evaluated without a child"
  | custom _ _ m => m

/-- The origin and the class. -/
def label (f : Fault) : String := s!"{f.origin.render}:{f.kind.render}"

/-- The message with its classification in front. -/
def describe (f : Fault) : String := s!"{f.label}: {f.message}"

end Fault

end SearchArgument
