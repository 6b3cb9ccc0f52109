import ScopeFlow.Clone.Deep
import ScopeFlow.Graph.Reachable

/-!
# Duplicates of a subgraph

Every operator that one leads to is copied to the end of the graph. All
numbers are mapped before any operator is copied, so that references among
the copied operators, circles included, lead to copies.
-/

namespace ScopeFlow.Graph

/-- Appends copies of the given operators under the numbers that follow. -/
def appendCopies (g : Graph) (ids : List OperatorId) : Copy Graph := do
  Copy.note fun σ => σ.mapOperatorsFrom g.size ids
  let copies ← copyOperators (ids.filterMap g.get?)
  pure { g with operators := g.operators ++ copies.toArray }

/-- Duplicates what an operator leads to. Answers the number of its copy and
the longer graph. -/
def duplicate (g : Graph) (start : OperatorId) : Act Copying (OperatorId × Graph) := do
  let ids ← Act.look fun c => g.reachable c.heap start
  let g' ← Act.change (g.appendCopies ids).run
  let copy ← Act.see fun c => c.session.operator start
  pure (copy, g')

end ScopeFlow.Graph
