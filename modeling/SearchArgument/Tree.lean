import SearchArgument.Interval

/-! Search arguments as trees: interval terms at the leaves, set operators above them.
Every node keeps the domain that it was built under. Nodes are built child by child,
under checks that keep one domain per tree and at most one child per complement. What a tree means
is said probe by probe, read off its operators without computing any ranges. -/

namespace SearchArgument

inductive SetOp where
  | union
  | intersection
  | complement
  deriving DecidableEq

namespace SetOp

/-- The evaluation that a node of this operator counts as. -/
def evaluation : SetOp → Evaluation
  | union => .union
  | intersection => .intersection
  | complement => .complement

def written : SetOp → List Char
  | union => "UNION".toList
  | intersection => "INTERSECTION".toList
  | complement => "COMPLEMENT".toList

def render (op : SetOp) : String := .ofList op.written

/-- An operator before its operands, each behind a space. -/
def writtenBefore (op : SetOp) (operands : List (List Char)) : List Char :=
  op.written ++ '(' :: operands.flatMap (' ' :: ·) ++ [' ', ')']

end SetOp

inductive Tree where
  | leaf (term : Interval)
  | node (domain : Domain) (op : SetOp) (children : List Tree)

namespace Tree

def domain : Tree → Domain
  | leaf i => i.domain
  | node d _ _ => d

mutual

/-- Structural equality, with domains told apart by name. -/
protected def beq : Tree → Tree → Bool
  | leaf i, leaf j => i == j
  | node d op xs, node e op' ys => d == e && op = op' && beqAll xs ys
  | _, _ => false

def beqAll : List Tree → List Tree → Bool
  | [], [] => true
  | x :: xs, y :: ys => x.beq y && beqAll xs ys
  | _, _ => false

end

instance : BEq Tree := ⟨Tree.beq⟩

mutual

def written : Tree → List Char
  | leaf i => i.written
  | node _ op children => op.writtenBefore (writtenAll children)

def writtenAll : List Tree → List (List Char)
  | [] => []
  | t :: ts => t.written :: writtenAll ts

end

def render (t : Tree) : String := .ofList t.written

end Tree

/-- A set operator with the children that it has so far. -/
structure Node where
  domain : Domain
  op : SetOp
  children : List Tree

namespace Node

def fresh (d : Domain) (op : SetOp) : Node := ⟨d, op, []⟩

/-- Appends a child of the same domain. A complement takes only one. -/
def add (n : Node) (child : Tree) : Except Fault Node :=
  if child.domain != n.domain then .error (.childDomain n.domain.name child.domain.name)
  else if n.op = .complement && !n.children.isEmpty then .error .secondComplementChild
  else .ok { n with children := n.children ++ [child] }

/-- Adds children from left to right to an empty node. -/
def ofChildren (d : Domain) (op : SetOp) (children : List Tree) : Except Fault Node :=
  children.foldlM add (fresh d op)

def toTree (n : Node) : Tree := .node n.domain n.op n.children

/-- Adds a child in place: what comes of the call, and the node behind it. -/
def offer (n : Node) (child : Tree) : Except Fault Unit × Node :=
  match n.add child with
  | .ok n' => (.ok (), n')
  | .error f => (.error f, n)

/-- A node behind a series of calls, whatever comes of each. -/
def offerAll (n : Node) (children : List Tree) : Node :=
  children.foldl (fun n child => (n.offer child).2) n

end Node

/-! ### Parts -/

namespace Tree

mutual

/-- The terms at the leaves, from left to right. -/
def leaves : Tree → List Interval
  | leaf i => [i]
  | node _ _ children => allLeaves children

def allLeaves : List Tree → List Interval
  | [] => []
  | t :: ts => t.leaves ++ allLeaves ts

end

mutual

/-- The tree itself and every tree below it. -/
def subtrees : Tree → List Tree
  | leaf i => [leaf i]
  | node d op children => node d op children :: allSubtrees children

def allSubtrees : List Tree → List Tree
  | [] => []
  | t :: ts => t.subtrees ++ allSubtrees ts

end

/-! ### Meaning -/

mutual

/-- A leaf selects what its term contains. An intersection of nothing selects every point
of its domain, and a complement never selects null. -/
def selects (probe : Value) : Tree → Bool
  | leaf i => i.contains probe
  | node _ .union children => anySelects probe children
  | node d .intersection children => (d.point? probe).isSome && allSelect probe children
  | node d .complement children =>
    !probe.isNull && (d.point? probe).isSome && !anySelects probe children

def anySelects (probe : Value) : List Tree → Bool
  | [] => false
  | t :: ts => t.selects probe || anySelects probe ts

def allSelect (probe : Value) : List Tree → Bool
  | [] => true
  | t :: ts => t.selects probe && allSelect probe ts

end

theorem anySelects_eq_any (probe : Value) (ts : List Tree) :
    anySelects probe ts = ts.any (·.selects probe) := by
  induction ts with
  | nil => rfl
  | cons t ts ih => simp [anySelects, ih]

theorem allSelect_eq_all (probe : Value) (ts : List Tree) :
    allSelect probe ts = ts.all (·.selects probe) := by
  induction ts with
  | nil => rfl
  | cons t ts ih => simp [allSelect, ih]

end Tree

/-! ### What can be built

Over given domains endpoints come about by their setters, terms by edits, and trees by adding
children to nodes. Steps that fail bring about nothing. Over one domain `d` they are built of
`(· = d)`. -/

variable (given : Domain → Prop)

inductive Endpoint.Built : Endpoint → Prop
  | fresh {d : Domain} : given d → Built (.fresh d)
  | negInfinity {e : Endpoint} : Built e → Built e.setNegInfinity
  | posInfinity {e : Endpoint} : Built e → Built e.setPosInfinity
  | finite {e e' : Endpoint} {side : Side} {strictness : Strictness} {literal : Value} :
    Built e → (e.setFinite side strictness literal).run.value = .ok e' → Built e'

/-- The endpoints that an edit brings in from outside are built. -/
def Interval.Edit.Built : Interval.Edit → Prop
  | .setLowerEndpoint e | .setUpperEndpoint e => e.Built given
  | _ => True

inductive Interval.Built : Interval → Prop
  | unconstrained {d : Domain} : given d → Built (.unconstrained d)
  | edited {i i' : Interval} {change : Interval.Edit} :
    Built i → change.Built given → (i.edit change).run.value = .ok i' → Built i'

namespace Tree

inductive Built : Tree → Prop
  | leaf {i : Interval} : i.Built given → Built (.leaf i)
  | fresh {d : Domain} (op : SetOp) : given d → Built (Node.fresh d op).toTree
  | added {n n' : Node} {child : Tree} :
    Built n.toTree → Built child → n.add child = .ok n' → Built n'.toTree

mutual

/-- Some complement has no child. -/
def hasBareComplement : Tree → Bool
  | leaf _ => false
  | node _ op children => op = .complement && children.isEmpty || anyBare children

def anyBare : List Tree → Bool
  | [] => false
  | t :: ts => t.hasBareComplement || anyBare ts

end

end Tree

end SearchArgument
