import ScopeFlow.Value.Basic
import ScopeFlow.Engine.State

/-!
# Failures

Why a resolution, a traversal, an operator or a call on an engine failed.
All of them fault a run except cancellation, which ends it. The wording of
each is in `Failure.message`.
-/

namespace ScopeFlow

/-- The cause of a failure. -/
inductive Failure where
  /-- No variable of that name along the scopes searched, and no default. -/
  | unknownVariable (name : String)
  /-- A value of a type that the declaration does not accept. -/
  | typeMismatch (parameter : String) (expected found : ValueType)
  /-- Names that lead to one another in a circle. -/
  | aliasCycle (parameter : String) (chain : List String)
  /-- The operator declares no such parameter. -/
  | unknownParameter (operator parameter : String)
  /-- A write through a parameter that ends at a fixed value. -/
  | readOnlyParameter (parameter : String)
  /-- No operator of the graph has this number. -/
  | unknownOperator (id : OperatorId)
  /-- A chain of successors came back, or work grew past its bound. -/
  | graphCycle (operator reason : String)
  /-- The operator's own work failed. -/
  | operatorFailed (operator message : String)
  /-- Cancellation was noticed. -/
  | cancelled
  /-- The shape of the scope tree would have been broken. -/
  | scope (text : String)
  /-- A call that the engine's state does not allow. -/
  | invalidState (call : EngineCall) (state : RunState)
  /-- The configuration makes no sense. -/
  | invalidConfig (text : String)
deriving DecidableEq, Inhabited

namespace Failure

/-- The wording of a failure. -/
def message : Failure → String
  | unknownVariable name => "unknown variable `" ++ name ++ "`"
  | typeMismatch p expected found =>
    "parameter `" ++ p ++ "` expects " ++ expected.name ++ " but found " ++ found.name
  | aliasCycle p chain =>
    "alias cycle while resolving `" ++ p ++ "`: " ++ " -> ".intercalate chain
  | unknownParameter op p => "operator `" ++ op ++ "` declares no parameter `" ++ p ++ "`"
  | readOnlyParameter p =>
    "parameter `" ++ p ++ "` resolves to a fixed value and cannot be written"
  | unknownOperator id => "unknown operator " ++ id.text
  | graphCycle op reason => "graph cycle at operator `" ++ op ++ "`: " ++ reason
  | operatorFailed op text => "operator `" ++ op ++ "` failed: " ++ text
  | cancelled => "execution cancelled"
  | scope text => "scope error: " ++ text
  | invalidState call state =>
    "cannot " ++ call.name ++ " while the engine is " ++ state.name
  | invalidConfig text => "invalid configuration: " ++ text

/-- The name of the cause. -/
def kind : Failure → String
  | unknownVariable _ => "UnknownVariable"
  | typeMismatch _ _ _ => "TypeMismatch"
  | aliasCycle _ _ => "AliasCycle"
  | unknownParameter _ _ => "UnknownParameter"
  | readOnlyParameter _ => "ReadOnlyParameter"
  | unknownOperator _ => "UnknownOperator"
  | graphCycle _ _ => "GraphCycle"
  | operatorFailed _ _ => "OperatorExecution"
  | cancelled => "Cancelled"
  | scope _ => "Scope"
  | invalidState _ _ => "InvalidState"
  | invalidConfig _ => "InvalidConfig"

/-- Does the failure end a run without faulting it? -/
def isCancellation : Failure → Bool
  | cancelled => true
  | _ => false

end Failure

end ScopeFlow
