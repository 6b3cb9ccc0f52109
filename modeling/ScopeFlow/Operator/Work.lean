import ScopeFlow.Clone.Deep
import ScopeFlow.Context.Schedule
import ScopeFlow.Parameter.Access

/-!
# What the built-in operators do

Each kind reads its parameters, does its work on the bound scope, and answers
the operation to go on with: the leaves their successor, the composites the
operators they schedule and then their successor. Whether the token is
cancelled is the same all through one execution.
-/

namespace ScopeFlow

/-- Fails if cancelled. -/
def checkCancelled (cancelled : Bool) : Act Heap Unit :=
  if cancelled then Act.fail .cancelled else pure ()

namespace Context

/-! ## Leaves -/

/-- Binds a fresh copy of `Right` to `Left`. -/
def assign (ctx : Context) : Act Heap Unit := do
  let right ← ctx.get "Right"
  let copy ← Act.change fun h => h.copyItem right
  ctx.setItem "Left" copy

/-- Adds `Increment` to `Value`: in place if there is such a variable, or else
starting from its default or from zero. -/
def count (ctx : Context) : Act Heap Unit := do
  let increment ← ctx.getInt "Increment"
  match ← ctx.getVariable "Value" with
  | some i =>
    Act.modify fun h => h.setValue i (.int (((h.value i).int?).getD 0 + increment))
  | none =>
    let default ← ctx.getOptional "Value"
    let start ← Act.see fun h => (default.bind fun i => (h.value i).int?).getD 0
    ctx.set "Value" (.int (start + increment))

/-- Writes to `Result` whether `Left` and `Right` are in a relation. -/
def compare (ctx : Context) (name : String) (relation : Comparison) : Act Heap Unit := do
  let left ← ctx.value "Left"
  let right ← ctx.value "Right"
  match left.compare? right with
  | some o => ctx.set "Result" (.bool (relation.holds o))
  | none =>
    Act.fail (.operatorFailed name
      ("cannot compare " ++ left.type.name ++ " with " ++ right.type.name))

/-- Creates in the bound scope the variables that some parameters stand for
and have a default for, unless the scope has them. -/
def createVariables (ctx : Context) : List Parameter → Act Heap Unit
  | [] => pure ()
  | p :: rest => do
    match ← Act.ofExcept (ctx.resolve p.name) with
    | .variable name (some initial) _ =>
      Act.modify fun h =>
        if (h.scope ctx.scope).bindings.contains name then h
        else
          let (i, h') := h.copyItem initial
          h'.bindVariable ctx.scope name i
    | _ => pure ()
    ctx.createVariables rest

/-- Appends `NumberOfSubScopes` empty sub-scopes, named by their places. Where
there are none to append, cancellation goes unnoticed. -/
def createSubScopes (ctx : Context) (name : String) (cancelled : Bool) : Act Heap Unit := do
  let n ← ctx.getInt "NumberOfSubScopes"
  if n < 0 then
    Act.fail (.operatorFailed name ("negative sub-scope count " ++ toString n.toInt))
  else
    checkCancelled (cancelled && decide (0 < n))
    Act.modify fun h => h.appendFresh ctx.scope n.toInt.toNat

/-- The failure of an operator that was given a place without a sub-scope. -/
def noSubScope (name : String) (index : Int64) (count : Nat) : Failure :=
  .operatorFailed name ("sub-scope index " ++ toString index.toInt ++ " out of range (" ++
    toString count ++ " sub-scopes)")

/-- Removes all sub-scopes. -/
def removeAllSubScopes (ctx : Context) : Act Heap Unit :=
  Act.modify fun h => (h.clearChildren ctx.scope).2

/-- Removes the sub-scope at `SubScopeIndex`. -/
def removeSubScope (ctx : Context) (name : String) : Act Heap Unit := do
  let index ← ctx.getInt "SubScopeIndex"
  let removed ← if index < 0 then pure none
    else Act.change fun h => h.removeChild ctx.scope index.toInt.toNat
  match removed with
  | some _ => pure ()
  | none =>
    let count ← Act.see fun h => (h.scope ctx.scope).children.length
    Act.fail (noSubScope name index count)

/-- The sub-scope at a place; a negative place counts from the end. -/
def pickSubScope (children : List ScopeId) (index : Int) : Option ScopeId :=
  let place := if index < 0 then children.length + index else index
  if place < 0 then none else children[place.toNat]?

/-- Appends a copy of the sub-scope at `SubScopeIndex`, named by its place. -/
def duplicateSubScope (ctx : Context) (name : String) (cancelled : Bool) : Act Heap Unit := do
  let children ← Act.see fun h => (h.scope ctx.scope).children
  let index ← ctx.getInt "SubScopeIndex"
  match pickSubScope children index.toInt with
  | none => Act.fail (noSubScope name index children.length)
  | some source =>
    checkCancelled cancelled
    let copy ← Act.change fun h => h.copyAlone source.copy
    Act.modify fun h => h.rename copy (toString children.length)
    Act.commit fun h => h.addChild ctx.scope copy

/-! ## Composites -/

/-- Branches as one operation, side by side if `Parallel` says so, and then
the successor. -/
def branches (ctx : Context) (ops : List Operation) : Act Heap (Option Operation) := do
  let parallel ← ctx.getBool "Parallel"
  let batch := if parallel then Operation.inParallel ops else Operation.inSequence ops
  ctx.thenSuccessor batch.toList

/-- Operators one after another on the bound scope. -/
def runInOrder (ctx : Context) (ops : List OperatorId) : Act Heap (Option Operation) := do
  let children ← ctx.childrenHere ops
  ctx.thenSuccessor children

/-- Each operator on the sub-scope at its own place. -/
def runOnSubScopes (ctx : Context) (name : String) (ops : List OperatorId) :
    Act Heap (Option Operation) := do
  let subs ← Act.see fun h => (h.scope ctx.scope).children
  if subs.length < ops.length then
    Act.fail (.operatorFailed name (toString ops.length ++ " operators but only " ++
      toString subs.length ++ " sub-scopes"))
  else
    let children ← ctx.childrenOn (ops.zip subs)
    ctx.branches children

/-- One operator on every scope `depth` levels down. -/
def runBelow (ctx : Context) (body : Option OperatorId) (depth : Nat) :
    Act Heap (Option Operation) := do
  let places ← Act.see fun h => match body with
    | none => []
    | some op => (h.scopesAtDepth depth ctx.scope).map fun s => (op, s)
  let children ← ctx.childrenOn places
  ctx.branches children

/-- One of two operators, as `Condition` says. -/
def runBranch (ctx : Context) (onTrue onFalse : Option OperatorId) :
    Act Heap (Option Operation) := do
  let condition ← ctx.getBool "Condition"
  ctx.runInOrder (if condition then onTrue else onFalse).toList

/-- One round of a loop and then the loop again, or the successor once
`Terminate` holds. -/
def runLoop (ctx : Context) (body terminator : Option OperatorId) :
    Act Heap (Option Operation) := do
  let finished ← ctx.getBool "Terminate"
  if finished then ctx.successor
  else
    let round ← ctx.childrenHere (body.toList ++ terminator.toList)
    let again ← ctx.reenter
    pure (Operation.inSequence (round ++ [again]))

/-- The operator that `Operator` stands for. -/
def runChosen (ctx : Context) : Act Heap (Option Operation) := do
  let target ← ctx.getOperator "Operator"
  Act.ofExcept (ctx.graph.graph.need target)
  ctx.runInOrder [target]

end Context

/-- The work of an operator on the heap, and what to go on with. A leaf program
has done its work before; what is left is its successor. -/
def Operator.work (op : Operator) (cancelled : Bool) (ctx : Context) :
    Act Heap (Option Operation) := do
  match op.kind with
  | .empty | .leaf _ => ctx.successor
  | .assigner => do
    ctx.assign
    ctx.successor
  | .counter => do
    ctx.count
    ctx.successor
  | .comparator relation => do
    ctx.compare op.name relation
    ctx.successor
  | .variableCreator => do
    ctx.createVariables op.parameters.list
    ctx.successor
  | .subScopesCreator => do
    ctx.createSubScopes op.name cancelled
    ctx.successor
  | .subScopesRemover true => do
    ctx.removeAllSubScopes
    ctx.successor
  | .subScopesRemover false => do
    ctx.removeSubScope op.name
    ctx.successor
  | .subScopeDuplicator => do
    ctx.duplicateSubScope op.name cancelled
    ctx.successor
  | .sequential ops => ctx.runInOrder ops
  | .subScopes ops => ctx.runOnSubScopes op.name ops
  | .uniformSubScopes body depth => ctx.runBelow body depth
  | .conditional onTrue onFalse => ctx.runBranch onTrue onFalse
  | .loop body terminator => ctx.runLoop body terminator
  | .placeholder => ctx.runChosen

end ScopeFlow
