import ScopeFlow.Control.Basic
import ScopeFlow.Operator.Work

/-!
# Execution of operators

An operator is executed in a context and a setting: the token it was given,
and the control of the engine that runs it, if one does. A leaf program runs
step by step; a request without an engine to hear it does nothing.
-/

namespace ScopeFlow

/-- What surrounds an execution. -/
structure Setting where
  token : TokenId
  /-- The control of the engine that runs the operator. -/
  control : Option ControlId
deriving DecidableEq

/-- Makes a request from inside a run. -/
def World.request (w : World) (setting : Setting) : Request → World
  | .pause => match setting.control with
    | some c => w.pause c
    | none => w
  | .stop => match setting.control with
    | some c => w.stop c
    | none => w
  | .abort => match setting.control with
    | some c => w.abort c
    | none => w
  | .cancel => w.cancel setting.token

/-- Runs a leaf program for an operator of a name. -/
def Leaf.run (name : String) (setting : Setting) (ctx : Context) : Leaf → Act World Unit
  | done => pure ()
  | fail message => Act.fail (.operatorFailed name message)
  | cancelled => Act.fail .cancelled
  | value p next => do
    let v ← World.onHeap (ctx.value p)
    (next v).run name setting ctx
  | optional p next => do
    let i ← World.onHeap (ctx.getOptional p)
    let v ← Act.see fun w => i.map w.heap.value
    (next v).run name setting ctx
  | bool p next => do
    let b ← World.onHeap (ctx.getBool p)
    (next b).run name setting ctx
  | int p next => do
    let i ← World.onHeap (ctx.getInt p)
    (next i).run name setting ctx
  | double p next => do
    let x ← World.onHeap (ctx.getDouble p)
    (next x).run name setting ctx
  | operator p next => do
    let id ← World.onHeap (ctx.getOperator p)
    (next id).run name setting ctx
  | set p v next => do
    World.onHeap (ctx.set p v)
    next.run name setting ctx
  | remove p next => do
    let _ ← World.onHeap (ctx.remove p)
    next.run name setting ctx
  | random p calls next => do
    let answers ← World.onHeap (ctx.withRandom p fun r => r.serve calls)
    (next answers).run name setting ctx
  | request r next => do
    Act.modify fun w => w.request setting r
    next.run name setting ctx
  | isCancelled next => do
    let c ← Act.see fun w => w.isCancelled setting.token
    (next c).run name setting ctx

namespace Operator

/-- The part of an execution that reaches beyond the heap. -/
def runLeaf (op : Operator) (setting : Setting) (ctx : Context) : Act World Unit :=
  match op.kind with
  | .leaf program => program.run op.name setting ctx
  | _ => pure ()

/-- Executes an operator and answers what to go on with. -/
def execute (op : Operator) (setting : Setting) (ctx : Context) :
    Act World (Option Operation) := do
  op.runLeaf setting ctx
  let cancelled ← Act.see fun w => w.isCancelled setting.token
  World.onHeap (op.work cancelled ctx)

end Operator

/-- Executes the operator that a context binds. -/
def Context.execute (ctx : Context) (setting : Setting) : Act World (Option Operation) := do
  let op ← Act.ofExcept ctx.operator
  op.execute setting ctx

end ScopeFlow
