import ScopeFlow.Clone.Deep
import ScopeFlow.Engine.Basic

/-!
# Copies of engines

A copy of an engine has copies of its scope tree, graph and pending work, and
goes on from there by itself. It has a control of its own, without requests;
a caller's token is shared.
-/

namespace ScopeFlow.Engine

/-- The copy of a graph that may be absent. -/
def copyGraph? : Option SharedGraph → Copy (Option SharedGraph)
  | none => pure none
  | some g => do
    let g' ← g.copy
    pure (some g')

/-- The copy of a scope that may be absent. -/
def copyScope? : Option ScopeId → Copy (Option ScopeId)
  | none => pure none
  | some s => do
    let s' ← s.copy
    pure (some s')

/-- The copies of what an engine holds in the heap: the whole tree first, so
that pending contexts find copies attached to the copied tree, then the graph,
then the pending work from the last operation to the next one. -/
def copyState (e : Engine) : Copy Engine := do
  let scope ← copyScope? e.scope
  let graph ← copyGraph? e.graph
  let pending ← Operation.copyAll e.continuation.reverse
  pure { e with scope, graph, continuation := pending.reverse }

/-- The copy of an engine within a session. -/
def copy (e : Engine) (σ : Session) (w : World) : Engine × Session × World :=
  let (e', c) := e.copyState.run ⟨σ, w.heap⟩
  let (control, w) := { w with heap := c.heap }.detachedControl e.control
  ({ e' with control }, c.session, w)

end ScopeFlow.Engine
