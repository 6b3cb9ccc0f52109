import ScopeFlow.Context.Basic

/-!
# Operations

Units of work: one operator in one context, several operations one after
another, or several as branches side by side. Packing a list of operations
leaves no empty collection behind.
-/

namespace ScopeFlow

/-- A unit of work. -/
inductive Operation where
  /-- Run one operator in one context. -/
  | atomic (ctx : Context)
  /-- Run these from left to right. -/
  | sequence (ops : List Operation)
  /-- Run these as branches of their own, joined before going on. -/
  | parallel (ops : List Operation)
deriving Inhabited

namespace Operation

/-- A list as one operation, run from left to right. -/
def inSequence : List Operation → Option Operation
  | [] => none
  | [op] => some op
  | ops => some (sequence ops)

/-- A list as one operation, run as branches. -/
def inParallel : List Operation → Option Operation
  | [] => none
  | ops => some (parallel ops)

mutual

/-- The contexts of the atomic operations inside, in order. -/
def contexts : Operation → List Context
  | atomic ctx => [ctx]
  | sequence ops => contextsOfAll ops
  | parallel ops => contextsOfAll ops

/-- The contexts inside several operations. -/
def contextsOfAll : List Operation → List Context
  | [] => []
  | op :: ops => op.contexts ++ contextsOfAll ops

end

/-- The scopes that an operation holds: those that its contexts search. -/
def heldScopes (op : Operation) : List ScopeId := op.contexts.flatMap Context.scopeChain

mutual

/-- How many atomic operations there are inside. -/
def atomicCount : Operation → Nat
  | atomic _ => 1
  | sequence ops => atomicCountOfAll ops
  | parallel ops => atomicCountOfAll ops

/-- How many atomic operations there are inside several. -/
def atomicCountOfAll : List Operation → Nat
  | [] => 0
  | op :: ops => op.atomicCount + atomicCountOfAll ops

end

/-- The operation that a path of indices leads to. -/
def at? : Operation → List Nat → Option Operation
  | op, [] => some op
  | atomic _, _ :: _ => none
  | sequence ops, k :: path =>
    match ops[k]? with
    | none => none
    | some op => op.at? path
  | parallel ops, k :: path =>
    match ops[k]? with
    | none => none
    | some op => op.at? path

end Operation

end ScopeFlow
