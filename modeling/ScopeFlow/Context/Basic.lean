import ScopeFlow.Graph.Basic
import ScopeFlow.Text.Quoted

/-!
# Execution contexts

A context binds an operator of a graph to a scope. Contexts form chains: the
graph frame at the root binds no operator and carries the global scope; every
other context has a parent, that of the composite which scheduled it. A
successor runs in a sibling, with the same parent. The trail lists the
operators visited along the present chain of successors, the bound one last.

Contexts have an identity and never change, so they are values that carry
their whole chain.
-/

namespace ScopeFlow

/-- An operator bound to a scope, with the chain it was scheduled in. -/
inductive Context where
  /-- The graph frame. -/
  | root (id : ContextId) (graph : SharedGraph) (scope : ScopeId)
  /-- A context for an operator under a parent. -/
  | frame (id : ContextId) (operator : OperatorId) (scope : ScopeId)
      (trail : List OperatorId) (parent : Context)
deriving Inhabited

namespace Context

/-- The identity of a context. -/
def id : Context → ContextId
  | root i _ _ => i
  | frame i _ _ _ _ => i

/-- The graph of a chain. -/
def graph : Context → SharedGraph
  | root _ g _ => g
  | frame _ _ _ _ p => p.graph

/-- The bound operator's number; the graph frame has none. -/
def operatorId? : Context → Option OperatorId
  | root _ _ _ => none
  | frame _ op _ _ _ => some op

/-- The bound scope. -/
def scope : Context → ScopeId
  | root _ _ s => s
  | frame _ _ s _ _ => s

/-- The operators visited along the present chain of successors. -/
def trail : Context → List OperatorId
  | root _ _ _ => []
  | frame _ _ _ t _ => t

/-- The frame above. -/
def parent? : Context → Option Context
  | root _ _ _ => none
  | frame _ _ _ _ p => some p

/-- How many frames lie above. -/
def depth : Context → Nat
  | root _ _ _ => 0
  | frame _ _ _ _ p => p.depth + 1

/-- The context itself and the frames above it, up to the root. -/
def chain : Context → List Context
  | root i g s => [root i g s]
  | frame i op s t p => frame i op s t p :: p.chain

/-- The bound operator. -/
def operator (ctx : Context) : Except Failure Operator :=
  match ctx.operatorId? with
  | some op => ctx.graph.graph.get op
  | none => .error (.operatorFailed ctx.graph.graph.name "the graph frame binds no operator")

/-- The name of the bound operator, and of the graph where none is bound. -/
def operatorName (ctx : Context) : String :=
  match ctx.operatorId?.bind ctx.graph.graph.get? with
  | some op => op.name
  | none => ctx.graph.graph.name

/-- The parameters that this frame declares: the operator's, or the graph's
own for the graph frame. -/
def parameters (ctx : Context) : Except Failure Parameters :=
  match ctx.operatorId? with
  | some op => (ctx.graph.graph.get op).map Operator.parameters
  | none => .ok ctx.graph.graph.parameters

/-- The scopes that a look-up searches: those of the context and the frames
above it, a scope repeated from one frame to the next counted once. -/
def scopeChain : Context → List ScopeId
  | root _ _ s => [s]
  | frame _ _ s _ p => if p.scope = s then p.scopeChain else s :: p.scopeChain

/-- A context as text: the operator, the name of the scope, and the depth. -/
def text (ctx : Context) (h : Heap) : String :=
  Text.recordText "ExecutionContext" [("operator", Text.quoted ctx.operatorName),
    ("scope", Text.quoted (h.scope ctx.scope).name), ("depth", toString ctx.depth)]

end Context

namespace Heap

/-- The graph frame over a scope. -/
def rootContext (h : Heap) (g : SharedGraph) (s : ScopeId) : Context × Heap :=
  let (id, h') := h.newContext
  (.root id g s, h')

/-- A context for an operator, scheduled under a frame. -/
def childContext (h : Heap) (ctx : Context) (op : OperatorId) (s : ScopeId) : Context × Heap :=
  let (id, h') := h.newContext
  (.frame id op s [op] ctx, h')

end Heap

end ScopeFlow
