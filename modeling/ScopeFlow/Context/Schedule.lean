import ScopeFlow.Act
import ScopeFlow.Context.Operation

/-!
# Scheduling from a context

The operations that an operator can hand back: children under its own
context, its successor beside it, or itself again. A successor that is
already on the trail is refused, so that a chain of successors visits no
operator twice; running again starts a new trail.
-/

namespace ScopeFlow.Context

/-- A sibling: the same scope and parent, for another operator and trail. -/
def sibling (ctx : Context) (op : OperatorId) (trail : List OperatorId) (id : ContextId) : Context :=
  match ctx with
  | root i g s => root i g s
  | frame _ _ s _ p => frame id op s trail p

/-- An operator on a scope, as a child. -/
def child (ctx : Context) (op : OperatorId) (s : ScopeId) : Act Heap Operation := do
  let ctx' ← Act.change fun h => h.childContext ctx op s
  pure (.atomic ctx')

/-- Operators as children, each on its scope. -/
def childrenOn (ctx : Context) : List (OperatorId × ScopeId) → Act Heap (List Operation)
  | [] => pure []
  | (op, s) :: rest => do
    let first ← ctx.child op s
    let others ← ctx.childrenOn rest
    pure (first :: others)

/-- Operators as children on the bound scope. -/
def childrenHere (ctx : Context) (ops : List OperatorId) : Act Heap (List Operation) :=
  ctx.childrenOn (ops.map fun op => (op, ctx.scope))

/-- The bound operator's successor on the same scope, if it has one. -/
def successor (ctx : Context) : Act Heap (Option Operation) := do
  let op ← Act.ofExcept ctx.operator
  match op.successor with
  | none => pure none
  | some next =>
    if next ∈ ctx.trail then
      let again ← Act.ofExcept (ctx.graph.graph.get next)
      Act.fail (.graphCycle again.name "successor chain revisits this operator")
    else
      let id ← Act.change Heap.newContext
      pure (some (.atomic (ctx.sibling next (ctx.trail ++ [next]) id)))

/-- The bound operator again on the same scope, with a new trail. -/
def reenter (ctx : Context) : Act Heap Operation := do
  match ctx.operatorId? with
  | some op =>
    let id ← Act.change Heap.newContext
    pure (.atomic (ctx.sibling op [op] id))
  | none => Act.fail (.operatorFailed ctx.graph.graph.name "cannot re-enter the graph frame")

/-- Operations from left to right, and the successor after them. -/
def thenSuccessor (ctx : Context) (ops : List Operation) : Act Heap (Option Operation) := do
  let next ← ctx.successor
  pure (Operation.inSequence (ops ++ next.toList))

end ScopeFlow.Context
