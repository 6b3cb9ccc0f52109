import Mathlib.Data.Set.Lattice
import ScopeFlow.Operator.Execute
import ScopeFlow.Proofs.Drain.Pool

/-!
# What operators read and write

A heap is made of places: the variables of scopes, one for each name whether
or not it is bound, the values of items, and the lists of sub-scopes. An
execution that succeeds reads some places and writes some.

* `Context.gets` is what is read to find what a parameter stands for: the
  variables that are looked up on the way, up to the first that is bound, and
  the item that is found there or held by a declaration;
* `Operator.reads` and `Operator.writes` go over the kinds of operators;
* `Effort.reads` and `Effort.writes` are those of one execution of a drain, in
  the heap that it finds.

What an execution makes is not among these places: nothing else can know of it
but through what is written.
-/

namespace ScopeFlow

/-- A part of a heap that is read or written by itself. -/
inductive Place where
  /-- What a name is bound to in a scope, if it is bound. -/
  | binding (s : ScopeId) (name : String)
  /-- The value of an item. -/
  | item (i : ItemId)
  /-- The list of sub-scopes of a scope. -/
  | children (s : ScopeId)
deriving DecidableEq

/-! ## Looking things up -/

namespace Heap

/-- The variables looked up along some scopes, up to the first one bound. -/
def searched (h : Heap) (name : String) : List ScopeId → Set Place
  | [] => ∅
  | s :: rest =>
    {.binding s name} ∪ if (h.binding? s name).isSome then ∅ else h.searched name rest

/-- All that there is below a scope: variables, bound or not, their items, and
lists of sub-scopes. -/
def contents (h : Heap) (s : ScopeId) : Set Place :=
  fun place => ∃ t, h.Below s t ∧ match place with
    | .binding u _ => u = t
    | .item i => ∃ name, h.binding? t name = some i
    | .children u => u = t

/-- The lists of sub-scopes that lead to the scopes some levels down. -/
def listed (h : Heap) : Nat → ScopeId → Set Place
  | 0, _ => ∅
  | depth + 1, s => {.children s} ∪ ⋃ c ∈ (h.scope s).children, h.listed depth c

end Heap

namespace Context

/-- The variables looked up for a name. -/
def lookups (ctx : Context) (h : Heap) (name : String) : Set Place :=
  h.searched name ctx.scopeChain

/-- What is read to find what a parameter stands for. -/
def gets (ctx : Context) (h : Heap) (parameter : String) : Set Place :=
  match ctx.resolve parameter with
  | .ok (.fixed i _) => {.item i}
  | .ok (.variable name default _) =>
    ctx.lookups h name ∪ match ctx.find? h name, default with
      | some (_, i), _ => {.item i}
      | none, some i => {.item i}
      | none, none => ∅
  | .error _ => ∅

/-- What is looked up to bind what a parameter stands for. -/
def seeks (ctx : Context) (h : Heap) (parameter : String) : Set Place :=
  match ctx.resolve parameter with
  | .ok (.variable name _ _) => ctx.lookups h name
  | _ => ∅

/-- Where a name is bound: in the nearest scope that has it, or else in the
bound scope. -/
def target (ctx : Context) (h : Heap) (name : String) : ScopeId :=
  match ctx.find? h name with
  | some (s, _) => s
  | none => ctx.scope

/-- The variable that a parameter stands for, as one to be bound. -/
def sets (ctx : Context) (h : Heap) (parameter : String) : Set Place :=
  match ctx.resolve parameter with
  | .ok (.variable name _ _) => {.binding (ctx.target h name) name}
  | _ => ∅

/-- What a counter writes: the item of its variable, or the variable if there
is none. -/
def counts (ctx : Context) (h : Heap) : Set Place :=
  match ctx.resolve "Value" with
  | .ok (.variable name _ _) =>
    match ctx.find? h name with
    | some (_, i) => {.item i}
    | none => {.binding ctx.scope name}
  | _ => ∅

/-- What is read to create variables, one after another: whether the bound
scope has them, and the defaults of those that it has not. -/
def createReads (ctx : Context) : List Parameter → Heap → Set Place
  | [], _ => ∅
  | p :: rest, h =>
    (match ctx.resolve p.name with
      | .ok (.variable name (some initial) _) =>
        {.binding ctx.scope name} ∪
          if (h.scope ctx.scope).bindings.contains name then ∅ else {.item initial}
      | _ => ∅) ∪ ctx.createReads rest (ctx.createVariables [p] h).2

/-- The variables that are created. -/
def createWrites (ctx : Context) : List Parameter → Heap → Set Place
  | [], _ => ∅
  | p :: rest, h =>
    (match ctx.resolve p.name with
      | .ok (.variable name (some _) _) =>
        if (h.scope ctx.scope).bindings.contains name then ∅ else {.binding ctx.scope name}
      | _ => ∅) ∪ ctx.createWrites rest (ctx.createVariables [p] h).2

/-- What is read to copy the sub-scope at `SubScopeIndex`. -/
def copyReads (ctx : Context) (h : Heap) : Set Place :=
  match (ctx.getInt "SubScopeIndex" h).1 with
  | .ok index =>
    match pickSubScope (h.scope ctx.scope).children index.toInt with
    | some source => h.contents source
    | none => ∅
  | .error _ => ∅

/-- The list of sub-scopes, if there are any to be appended. -/
def appendWrites (ctx : Context) (h : Heap) : Set Place :=
  match (ctx.getInt "NumberOfSubScopes" h).1 with
  | .ok n => if 0 < n then {.children ctx.scope} else ∅
  | .error _ => ∅

end Context

/-! ## Operators -/

namespace Operator

/-- What an execution of a built-in operator reads. -/
def reads (op : Operator) (ctx : Context) (h : Heap) : Set Place :=
  match op.kind with
  | .empty | .leaf _ | .sequential _ => ∅
  | .assigner => ctx.gets h "Right" ∪ ctx.seeks h "Left"
  | .counter => ctx.gets h "Increment" ∪ ctx.gets h "Value"
  | .comparator _ => ctx.gets h "Left" ∪ ctx.gets h "Right" ∪ ctx.seeks h "Result"
  | .variableCreator => ctx.createReads op.parameters.list h
  | .subScopesCreator => ctx.gets h "NumberOfSubScopes" ∪ {.children ctx.scope}
  | .subScopesRemover true => {.children ctx.scope}
  | .subScopesRemover false => ctx.gets h "SubScopeIndex" ∪ {.children ctx.scope}
  | .subScopeDuplicator =>
    ctx.gets h "SubScopeIndex" ∪ {.children ctx.scope} ∪ ctx.copyReads h
  | .subScopes _ => {.children ctx.scope} ∪ ctx.gets h "Parallel"
  | .uniformSubScopes body depth =>
    (if body.isSome then h.listed depth ctx.scope else ∅) ∪ ctx.gets h "Parallel"
  | .conditional _ _ => ctx.gets h "Condition"
  | .loop _ _ => ctx.gets h "Terminate"
  | .placeholder => ctx.gets h "Operator"

/-- What an execution of a built-in operator writes. -/
def writes (op : Operator) (ctx : Context) (h : Heap) : Set Place :=
  match op.kind with
  | .assigner => ctx.sets h "Left"
  | .counter => ctx.counts h
  | .comparator _ => ctx.sets h "Result"
  | .variableCreator => ctx.createWrites op.parameters.list h
  | .subScopesCreator => ctx.appendWrites h
  | .subScopesRemover _ | .subScopeDuplicator => {.children ctx.scope}
  | _ => ∅

end Operator

/-! ## Executions -/

/-- What an execution in the context reads. -/
def Context.reads (ctx : Context) (h : Heap) : Set Place :=
  match ctx.operator with
  | .ok op => op.reads ctx h
  | .error _ => ∅

/-- What an execution in the context writes. -/
def Context.writes (ctx : Context) (h : Heap) : Set Place :=
  match ctx.operator with
  | .ok op => op.writes ctx h
  | .error _ => ∅

namespace Effort

/-- What an execution reads in the heap that it finds. -/
def reads (x : Effort) : Set Place := x.ctx.reads x.before.world.heap

/-- What an execution writes. -/
def writes (x : Effort) : Set Place := x.ctx.writes x.before.world.heap

end Effort

end ScopeFlow
