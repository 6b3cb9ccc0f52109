import ScopeFlow.Engine.Clone
import ScopeFlow.Graph.Duplicate
import ScopeFlow.Operator.Samples
import ScopeFlow.Scope.Lifetime
import ScopeFlow.Scope.Outline
import ScopeFlow.Scope.Snapshot
import ScopeFlow.Value.Text
import ScopeFlow.Proofs.Drain.Bounded
import ScopeFlow.Proofs.Engine.Cuts
import ScopeFlow.Proofs.Engine.Dispatch
import ScopeFlow.Proofs.Likeness.Calls
import ScopeFlow.Proofs.Engine.Reached
import ScopeFlow.Proofs.Likeness.Views
import ScopeFlow.Proofs.Clone.States
import ScopeFlow.Proofs.Operator.BuiltIn
import ScopeFlow.Proofs.Engine.Copies
import ScopeFlow.Proofs.Likeness.Sound
import ScopeFlow.Proofs.Engine.Lifecycle
import ScopeFlow.Proofs.Clone.Forest
import ScopeFlow.Proofs.Operator.Edits
import ScopeFlow.Proofs.Scope.Lifetime
import ScopeFlow.Proofs.Scope.Operations
import ScopeFlow.Proofs.Clone.Roots
import ScopeFlow.Proofs.Engine.Repeats
import ScopeFlow.Proofs.Engine.Hops
import ScopeFlow.Proofs.Drain.Courses
import ScopeFlow.Proofs.Engine.Surfacing
import ScopeFlow.Proofs.Engine.Requests
import ScopeFlow.Proofs.Engine.Discards
import ScopeFlow.Proofs.Engine.Interruptions
import ScopeFlow.Proofs.Parameter.Walk
import ScopeFlow.Proofs.Engine.Anew
import ScopeFlow.Proofs.Engine.Outside
import ScopeFlow.Proofs.Footprint.Branches
import ScopeFlow.Proofs.Parameter.Writing
import ScopeFlow.Proofs.Drain.Loops
import ScopeFlow.Proofs.Drain.SubScopes
import ScopeFlow.Proofs.Graph.Duplicate
import ScopeFlow.Proofs.Engine.Chains
import ScopeFlow.Proofs.Engine.Counting
import ScopeFlow.Proofs.Operator.Variables
import ScopeFlow.Proofs.Operator.Accumulating
import ScopeFlow.Proofs.Operator.Drawing
import ScopeFlow.Proofs.Operator.Creating
import ScopeFlow.Proofs.Scope.Subtrees
import ScopeFlow.Proofs.Operator.Duplicating
import ScopeFlow.Proofs.Operator.Mismatches
import ScopeFlow.Proofs.Random.Futures
import ScopeFlow.Proofs.Scope.Complete
import ScopeFlow.Proofs.Clone.Reuse
import ScopeFlow.Proofs.Engine.Joins
