import ScopeFlow.Operator.Leaf
import ScopeFlow.Parameter.Basic

/-!
# Operators

An operator has a name, its declared parameters, perhaps a successor, and a
kind. The kinds are of two families: leaves, which do the work on variables
and sub-scopes, and composites, which only schedule other operators. Leaf
programs stand for every leaf that is not built in.
-/

namespace ScopeFlow

/-- What an operator does. -/
inductive OperatorKind where
  /-- Nothing. -/
  | empty
  /-- Writes a copy of `Right` to `Left`. -/
  | assigner
  /-- Adds `Increment` to the integer `Value`. -/
  | counter
  /-- Compares `Left` with `Right` and writes the outcome to `Result`. -/
  | comparator (relation : Comparison)
  /-- Creates the variables that its parameters have defaults for. -/
  | variableCreator
  /-- Appends `NumberOfSubScopes` empty sub-scopes. -/
  | subScopesCreator
  /-- Removes the sub-scope at `SubScopeIndex`, or all of them. -/
  | subScopesRemover (all : Bool)
  /-- Appends a copy of the sub-scope at `SubScopeIndex`. -/
  | subScopeDuplicator
  /-- Runs operators one after another on the bound scope. -/
  | sequential (operators : List OperatorId)
  /-- Runs each operator on the sub-scope at its own place. -/
  | subScopes (operators : List OperatorId)
  /-- Runs one operator on every scope some levels below the bound one. -/
  | uniformSubScopes (body : Option OperatorId) (depth : Nat)
  /-- Runs one of two operators as `Condition` says. -/
  | conditional (onTrue onFalse : Option OperatorId)
  /-- Runs body and terminator again and again until `Terminate` holds. -/
  | loop (body terminator : Option OperatorId)
  /-- Runs the operator that `Operator` stands for. -/
  | placeholder
  /-- Runs a leaf program. -/
  | leaf (program : Leaf)
deriving Inhabited

namespace OperatorKind

/-- The operators scheduled by this kind, apart from a successor. -/
def children : OperatorKind → List OperatorId
  | sequential ops => ops
  | subScopes ops => ops
  | uniformSubScopes body _ => body.toList
  | conditional t f => t.toList ++ f.toList
  | loop body terminator => body.toList ++ terminator.toList
  | _ => []

/-- The kind with every operator in it replaced. -/
def mapOperators (f : OperatorId → OperatorId) : OperatorKind → OperatorKind
  | sequential ops => sequential (ops.map f)
  | subScopes ops => subScopes (ops.map f)
  | uniformSubScopes body depth => uniformSubScopes (body.map f) depth
  | conditional t e => conditional (t.map f) (e.map f)
  | loop body terminator => loop (body.map f) (terminator.map f)
  | kind => kind

/-- Is this one of the built-in kinds, not a leaf program? -/
def isBuiltIn : OperatorKind → Bool
  | leaf _ => false
  | _ => true

end OperatorKind

/-- A node of an operator graph. -/
structure Operator where
  name : String
  parameters : Parameters
  successor : Option OperatorId
  kind : OperatorKind
deriving Inhabited

namespace Operator

/-- Every operator that this one refers to: its successor, the operators it
schedules, and the operators that its declarations hold. -/
def references (op : Operator) (h : Heap) : List OperatorId :=
  op.successor.toList ++ op.kind.children ++ h.operatorsIn op.parameters.held

end Operator

/-- A parameter for an operator to be picked when it runs. -/
def operatorParameter (name : String) : Parameter := Parameter.lookup name .operator

/-- The declaration that lets branches run side by side: off by default. -/
def Heap.parallelParameter (h : Heap) : Parameter × Heap :=
  let (p, h') := h.defaultParameter "Parallel" .bool (.bool false)
  ({ p with description := "Run the branches on the worker pool." }, h')

/-- The parameters that a built-in kind declares. A leaf program's are up to
whoever writes it. -/
def Heap.standardParameters (h : Heap) : OperatorKind → Parameters × Heap
  | .assigner => (⟨[.lookup "Left" .any, .lookup "Right" .any]⟩, h)
  | .counter =>
    let (increment, h') := h.defaultParameter "Increment" .int (.int 1)
    (⟨[.lookup "Value" .int, increment]⟩, h')
  | .comparator _ =>
    (⟨[.lookup "Left" .any, .lookup "Right" .any, .lookup "Result" .bool]⟩, h)
  | .subScopesCreator => (⟨[.lookup "NumberOfSubScopes" .int]⟩, h)
  | .subScopesRemover _ =>
    let (index, h') := h.defaultParameter "SubScopeIndex" .int (.int 0)
    (⟨[index]⟩, h')
  | .subScopeDuplicator =>
    let (index, h') := h.defaultParameter "SubScopeIndex" .int (.int (-1))
    (⟨[index]⟩, h')
  | .subScopes _ | .uniformSubScopes _ _ =>
    let (parallel, h') := h.parallelParameter
    (⟨[parallel]⟩, h')
  | .conditional _ _ => (⟨[.lookup "Condition" .bool]⟩, h)
  | .loop _ _ =>
    let (terminate, h') := h.defaultParameter "Terminate" .bool (.bool false)
    (⟨[terminate]⟩, h')
  | .placeholder => (⟨[operatorParameter "Operator"]⟩, h)
  | .empty | .variableCreator | .sequential _ | .leaf _ => (.empty, h)

/-- An operator of a kind with the parameters that the kind declares, and no
successor. -/
def Heap.newOperator (h : Heap) (name : String) (kind : OperatorKind) : Operator × Heap :=
  let (parameters, h') := h.standardParameters kind
  (⟨name, parameters, none, kind⟩, h')

namespace Operator

/-- Fixes whether branches run side by side. -/
def withParallel (op : Operator) (parallel : Bool) (h : Heap) : Operator × Heap :=
  let (p, h') := h.fixedParameter "Parallel" (.bool parallel)
  ({ op with parameters := op.parameters.insert p }, h')

/-- Declares a variable to be created, with its first value. -/
def withVariable (op : Operator) (name : String) (v : Value) (h : Heap) : Operator × Heap :=
  let (p, h') := h.defaultParameter name v.type v
  ({ op with parameters := op.parameters.insert p }, h')

/-- Looks a declared parameter up under another name. -/
def rewire (op : Operator) (parameter actual : String) : Operator :=
  { op with parameters := op.parameters.update parameter fun p => { p with actual } }

end Operator

/-- The kind that runs an operator on every scope `depth` levels down, and at
least one level down. -/
def OperatorKind.uniform (body : Option OperatorId) (depth : Nat) : OperatorKind :=
  .uniformSubScopes body (max depth 1)

end ScopeFlow
