import ScopeFlow.Clone.Session
import ScopeFlow.Scope.Basic

/-!
# Deep copies

Copies within a session of items, scopes, parameters, operators, graphs,
contexts and operations. A copied scope is detached unless its parent is
copied in the same session, in which case the copy of the parent attaches it.
-/

namespace ScopeFlow

/-- A value with the operator in it mapped by the session. -/
def Value.copy (v : Value) : Copy Value := do
  let σ ← Copy.session
  pure (v.mapOperator σ.operator)

/-- The copy of an item. -/
def ItemId.copy (i : ItemId) : Copy ItemId := do
  match (← Copy.session).items.lookup i with
  | some i' => pure i'
  | none =>
    let v ← ((← Copy.heap).value i).copy
    let i' ← Copy.make fun h => h.newItem v
    Copy.note fun σ => { σ with items := (i, i') :: σ.items }
    pure i'

/-- The copy of an item that may be absent. -/
def copyItem? : Option ItemId → Copy (Option ItemId)
  | none => pure none
  | some i => do
    let i' ← i.copy
    pure (some i')

/-- Copies variables into a scope, in order. -/
def copyVariables (target : ScopeId) : List (String × ItemId) → Copy Unit
  | [] => pure ()
  | (name, i) :: rest => do
    let i' ← i.copy
    Copy.write fun h => h.bindVariable target name i'
    copyVariables target rest

/-- Makes a copied scope the last sub-scope of another. -/
def adopt (parent child : ScopeId) : Copy Unit :=
  Copy.write fun h => (h.setParent child (some parent)).updateScope parent fun node =>
    { node with children := node.children ++ [child] }

/-- Copies sub-scopes with `copyOne` and attaches the copies in order. -/
def copyChildren (copyOne : ScopeId → Copy ScopeId) (target : ScopeId) : List ScopeId → Copy Unit
  | [] => pure ()
  | c :: rest => do
    let c' ← copyOne c
    adopt target c'
    copyChildren copyOne target rest

/-- The copy of a subtree, down to `levels` levels. -/
def copyScopeWithin : Nat → ScopeId → Copy ScopeId
  | 0, s => pure s
  | levels + 1, s => do
    match (← Copy.session).scopes.lookup s with
    | some s' => pure s'
    | none =>
      let node := (← Copy.heap).scope s
      let s' ← Copy.make fun h => h.newScope node.name
      Copy.note fun σ => { σ with scopes := (s, s') :: σ.scopes }
      copyVariables s' node.bindings.entries
      copyChildren (copyScopeWithin levels) s' node.children
      pure s'

/-- The copy of a subtree. Each level registers a scope of the heap that was
not registered before, so there are no more levels than scopes. -/
def ScopeId.copy (s : ScopeId) : Copy ScopeId := do
  copyScopeWithin ((← Copy.heap).scopes.size + 1) s

/-- The copy of a declaration. -/
def Parameter.copy (p : Parameter) : Copy Parameter := do
  let default ← copyItem? p.default
  let fixed ← copyItem? p.fixed
  pure { p with default, fixed }

/-- The copies of declarations in order. -/
def copyParameterList : List Parameter → Copy (List Parameter)
  | [] => pure []
  | p :: ps => do
    let p' ← p.copy
    let ps' ← copyParameterList ps
    pure (p' :: ps')

/-- The copy of a collection. -/
def Parameters.copy (ps : Parameters) : Copy Parameters := do
  let list ← copyParameterList ps.list
  pure ⟨list⟩

/-- The copy of an operator, every number in it mapped. -/
def Operator.copy (op : Operator) : Copy Operator := do
  let parameters ← op.parameters.copy
  let σ ← Copy.session
  pure { op with
    parameters
    successor := op.successor.map σ.operator
    kind := op.kind.mapOperators σ.operator }

/-- The copies of operators in order. -/
def copyOperators : List Operator → Copy (List Operator)
  | [] => pure []
  | op :: ops => do
    let op' ← op.copy
    let ops' ← copyOperators ops
    pure (op' :: ops')

/-- The copy of a graph not yet in use. -/
def Graph.copy (g : Graph) : Copy Graph := do
  let parameters ← g.parameters.copy
  let operators ← copyOperators g.operators.toList
  let σ ← Copy.session
  pure { g with
    parameters
    operators := operators.toArray
    initial := g.initial.map σ.operator }

/-- The copy of a graph in use. -/
def SharedGraph.copy (g : SharedGraph) : Copy SharedGraph := do
  match (← Copy.session).graphs.lookup g.id with
  | some g' => pure g'
  | none =>
    let graph ← g.graph.copy
    let g' ← Copy.make fun h => h.share graph
    Copy.note fun σ => { σ with graphs := (g.id, g') :: σ.graphs }
    pure g'

namespace Context

/-- Registers the copy of a context. -/
def register (ctx ctx' : Context) : Copy Context := do
  Copy.note fun σ => { σ with contexts := (ctx.id, ctx') :: σ.contexts }
  pure ctx'

/-- The copy of a context with its chain. -/
def copy : Context → Copy Context
  | root id g s => do
    match (← Copy.session).contexts.lookup id with
    | some ctx => pure ctx
    | none =>
      let g' ← g.copy
      let s' ← s.copy
      let id' ← Copy.make Heap.newContext
      register (root id g s) (root id' g' s')
  | frame id op s trail p => do
    match (← Copy.session).contexts.lookup id with
    | some ctx => pure ctx
    | none =>
      let _ ← p.graph.copy
      let s' ← s.copy
      let p' ← p.copy
      let σ ← Copy.session
      let id' ← Copy.make Heap.newContext
      register (frame id op s trail p)
        (frame id' (σ.operator op) s' (trail.map σ.operator) p')

end Context

namespace Operation

mutual

/-- The copy of an operation. -/
def copy : Operation → Copy Operation
  | atomic ctx => do
    let ctx' ← ctx.copy
    pure (atomic ctx')
  | sequence ops => do
    let ops' ← copyAll ops
    pure (sequence ops')
  | parallel ops => do
    let ops' ← copyAll ops
    pure (parallel ops')

/-- The copies of operations in order. -/
def copyAll : List Operation → Copy (List Operation)
  | [] => pure []
  | op :: ops => do
    let op' ← op.copy
    let ops' ← copyAll ops
    pure (op' :: ops')

end

end Operation

/-- Copies something in a session of its own. -/
def Heap.copyAlone {α : Type} (h : Heap) (x : Copy α) : α × Heap :=
  let (a, c) := x.run ⟨.empty, h⟩
  (a, c.heap)

end ScopeFlow
