import SearchArgument.RangeSet

/-! Evaluation of a tree to its range set. An operator directly below the same operator
hands its operands up and is not evaluated by itself; complements are never joined
this way. Every evaluated node reports itself before its children. -/

namespace SearchArgument

/-- Combines evaluated operands. -/
def SetOp.combine (cmp : Value → Value → Ordering) :
    SetOp → List (List Span) → Attempt (List Span)
  | union, operands => Span.union cmp operands.flatten
  | intersection, operands => Span.intersection cmp operands
  | complement, [] => throw .childlessComplement
  | complement, operand :: _ => Span.complement cmp operand

namespace Tree

mutual

/-- What a tree adds to the operands of the node above it, whose operator is `above`. -/
def operands (above : Option SetOp) : Tree → Attempt (List (List Span))
  | leaf i => return [← i.spans]
  | node d op children => do
    if above = some op ∧ op ≠ .complement then allOperands (some op) children
    else
      note (.evaluated op.evaluation)
      let spans ← op.combine d.compare (← allOperands (some op) children)
      noteIf spans.isEmpty .emptyResult
      return [spans]

def allOperands (above : Option SetOp) : List Tree → Attempt (List (List Span))
  | [] => return []
  | t :: ts => return (← t.operands above) ++ (← allOperands above ts)

end

/-- The range set of a tree. -/
def evaluate (t : Tree) : Attempt RangeSet := do
  return ⟨t.domain, (← t.operands none).flatten⟩

/-- The range set of the values that a tree leaves out. -/
def evaluateComplemented (t : Tree) : Attempt RangeSet := do
  let s ← t.evaluate
  note (.evaluated .complement)
  let c ← s.complement
  noteIf c.isEmpty .emptyResult
  return c

/-! ### Agreement

Results may be compared as they are, or after each was taken as a tree again and evaluated once
more, which spells its terms in their settled form. -/

def Evaluates (t : Tree) : Prop := ∃ s, t.evaluate.run.value = .ok s

/-- The tree evaluates, to these very spans. -/
def EvaluatesTo (t : Tree) (spans : List Span) : Prop :=
  ∃ s, t.evaluate.run.value = .ok s ∧ s.spans = spans

/-- The range set is what comes of the tree, or of its complement. -/
def Yields (t : Tree) (s : RangeSet) : Prop :=
  t.evaluate.run.value = .ok s ∨ t.evaluateComplemented.run.value = .ok s

/-- The range set of a tree, as a tree evaluated once more. -/
def reevaluate (t : Tree) : Attempt RangeSet := do (← t.evaluate).toTree.evaluate

/-- The tree of the result is equal to the tree that it came from. -/
def Fixed (t : Tree) : Prop := ∃ s, t.evaluate.run.value = .ok s ∧ s.toTree == t

/-- Both trees evaluate, to equal results. -/
def Agree (t u : Tree) : Prop :=
  ∃ r s, t.evaluate.run.value = .ok r ∧ u.evaluate.run.value = .ok s ∧ r == s

/-- Both trees evaluate twice, to equal results. -/
def AgreeSettled (t u : Tree) : Prop :=
  ∃ r s, t.reevaluate.run.value = .ok r ∧ u.reevaluate.run.value = .ok s ∧ r == s

/-- Operands of one operator, brought into another order and grouped under further nodes of
that operator, or the other way round. -/
inductive Regrouped (d : Domain) (op : SetOp) : List Tree → List Tree → Prop
  | perm {ts us : List Tree} : ts.Perm us → Regrouped d op ts us
  | group (ts us : List Tree) : Regrouped d op (ts ++ us) (.node d op ts :: us)
  | symm {ts us : List Tree} : Regrouped d op ts us → Regrouped d op us ts
  | trans {ts us vs : List Tree} : Regrouped d op ts us → Regrouped d op us vs →
    Regrouped d op ts vs

mutual

/-- Some leaf has the null marker for a bound. -/
def hasNullBound : Tree → Bool
  | leaf i => i.bounds.lower.isNull || i.bounds.upper.isNull
  | node _ _ children => anyNullBound children

def anyNullBound : List Tree → Bool
  | [] => false
  | t :: ts => t.hasNullBound || anyNullBound ts

end

mutual

/-- Some node is a complement. -/
def hasComplement : Tree → Bool
  | leaf _ => false
  | node _ op children => op = .complement || anyComplement children

def anyComplement : List Tree → Bool
  | [] => false
  | t :: ts => t.hasComplement || anyComplement ts

end

end Tree

/-! ### Accounts

An account says what the evaluation of a tree is worth, term by term and node by node, whatever the
order in which it is done. -/

/-- The merge that counts for `parts` joined to `n` spans. Where one of the parts holds every point
nothing is joined. -/
def Span.merges (parts : List Span) (n : Nat) : List Event :=
  if parts.any isAll ∨ parts.length ≤ n then [] else [.merged (parts.length - n)]

namespace Tree

/-- The spans that a tree evaluates to, if it does. -/
def spans (t : Tree) : List Span :=
  match t.evaluate.run.value with
  | .ok s => s.spans
  | .error _ => []

mutual

/-- The trees that a union joins for a child: for a union the trees that this would join itself. -/
def united : Tree → List Tree
  | leaf i => [leaf i]
  | node d op children => if op = .union then allUnited children else [node d op children]

def allUnited : List Tree → List Tree
  | [] => []
  | t :: ts => t.united ++ allUnited ts

end

mutual

/-- The leaves and nodes that are evaluated by themselves below a node of the operator `above`:
all but the unions in a union and the intersections in an intersection. -/
def evaluated (above : Option SetOp) : Tree → List Tree
  | leaf i => [leaf i]
  | node d op children =>
    if above = some op ∧ op ≠ .complement then allEvaluated (some op) children
    else node d op children :: allEvaluated (some op) children

def allEvaluated (above : Option SetOp) : List Tree → List Tree
  | [] => []
  | t :: ts => t.evaluated above ++ allEvaluated above ts

end

/-- The events that a leaf or a node accounts for by itself: that it was evaluated, what it merged
if it is a union, and whether nothing came of it. -/
def account : Tree → List Event
  | leaf i =>
    .evaluated .interval ::
      if i.isEmpty || i.bounds.isInverted i.domain.compare then [.emptyResult] else []
  | node d op children =>
    let result := (node d op children).spans
    .evaluated op.evaluation ::
      (if op = .union then Span.merges ((allUnited children).flatMap spans) result.length
        else []) ++
        if result.isEmpty then [.emptyResult] else []

end Tree

end SearchArgument
