import ScopeFlow.Engine.Config
import ScopeFlow.Operator.Execute

/-!
# The drain

An engine's pending work is a stack of operations, the next one first. The
drain takes operations off it until it is empty, a halt is due, or an operator
fails. A sequence is put back part by part; an operator is executed and what
it answers is put on the stack. Operators never call one another, so a loop or
a deep graph grows this stack and nothing else.

With branches on, a parallel collection of more than one operation is drained
branch by branch, each on a stack of its own and to its end before the next
one starts; what interrupted branches leave is put back as one collection. A
failure makes the branches after it halt before their first operation.

A halt or a failure puts the operation at hand back. Whether a drain ends at
all depends on the graph, so it is given fuel, and answers none where the fuel
does not last.
-/

namespace ScopeFlow

/-- What stays the same all through one drain. -/
structure DrainSetting where
  config : Config
  control : ControlId
deriving DecidableEq

/-- How far a drain has come. -/
structure Progress where
  world : World
  /-- Operators executed. -/
  executed : Nat
  /-- An operator has failed other than by cancellation. -/
  fault : Bool

/-- How a drain ends. -/
inductive Outcome where
  /-- The stack is empty, or a halt was due. -/
  | ended (halt : Option Halt)
  | failed (e : Failure)
deriving DecidableEq

/-- A drain at its end: with what is left on the stack. -/
structure Drained where
  outcome : Outcome
  stack : List Operation
  progress : Progress

/-- What is left of a branch. -/
structure BranchEnd where
  outcome : Outcome
  stack : List Operation

/-- Several branches joined. -/
structure Joined where
  pending : List Operation
  halt : Option Halt
  failure : Option Failure

namespace Joined

/-- No branches. -/
def empty : Joined := ⟨[], none, none⟩

/-- One branch more: what it leaves becomes one sequence, the first halt
counts, and the first failure, but a cancellation gives way to a failure that
comes after it. -/
def add (j : Joined) (b : BranchEnd) : Joined :=
  let pending := if b.stack.isEmpty then j.pending else j.pending ++ [.sequence b.stack]
  match b.outcome with
  | .ended halt => { j with pending, halt := j.halt.or halt }
  | .failed e =>
    match j.failure with
    | some e' => { j with pending, failure := some (if e'.isCancellation then e else e') }
    | none => { j with pending, failure := some e }

/-- How the branches ended together. -/
def outcome (j : Joined) : Outcome :=
  match j.failure with
  | some e => .failed e
  | none => .ended j.halt

end Joined

/-- Joins branches in order. -/
def joinBranches (ends : List BranchEnd) : Joined := ends.foldl Joined.add .empty

/-- Drains branches one after another with `run`. -/
def drainBranches (run : Operation → Progress → Option Drained) :
    List Operation → Progress → Option (List BranchEnd × Progress)
  | [], p => some ([], p)
  | op :: ops, p =>
    match run op p with
    | none => none
    | some d =>
      match drainBranches run ops d.progress with
      | none => none
      | some (ends, p) => some (⟨d.outcome, d.stack⟩ :: ends, p)

namespace DrainSetting

/-- Executes what a context binds, with `pending` operations below it on the
stack, within the bounds of the configuration. -/
def execute (r : DrainSetting) (ctx : Context) (pending : Nat) : Act World (Option Operation) :=
  if pending + 1 > r.config.maxStackDepth then
    Act.fail (.graphCycle ctx.operatorName
      ("continuation exceeds " ++ toString r.config.maxStackDepth ++ " operations"))
  else if ctx.depth > r.config.maxContextDepth then
    Act.fail (.graphCycle ctx.operatorName
      ("execution contexts nested deeper than " ++ toString r.config.maxContextDepth))
  else fun w => ctx.execute ⟨w.token r.control, some r.control⟩ w

/-- Are the branches of a collection to be drained on stacks of their own? A
drain with a budget takes one step at a time and never does. -/
def separates (r : DrainSetting) (budget : Option Nat) (ops : List Operation) : Bool :=
  budget.isNone && r.config.parallel && decide (1 < ops.length)

/-- Drains a stack, with a budget of operators to execute if one is given. -/
def drain (r : DrainSetting) :
    (fuel : Nat) → (budget : Option Nat) → List Operation → Progress → Option Drained
  | 0, _, _, _ => none
  | _ + 1, _, [], p => some ⟨.ended none, [], p⟩
  | fuel + 1, budget, op :: rest, ⟨w, executed, fault⟩ =>
    match w.halt? r.control with
    | some halt => some ⟨.ended (some halt), op :: rest, ⟨w, executed, fault⟩⟩
    | none =>
      if fault then some ⟨.ended (some .fault), op :: rest, ⟨w, executed, fault⟩⟩
      else
        match op with
        | .sequence ops => r.drain fuel budget (ops ++ rest) ⟨w, executed, fault⟩
        | .parallel ops =>
          if r.separates budget ops then
            match drainBranches (fun op p => r.drain fuel none [op] p) ops
                ⟨w, executed, fault⟩ with
            | none => none
            | some (ends, p) =>
              let joined := joinBranches ends
              let stack := (Operation.inParallel joined.pending).toList ++ rest
              match joined.outcome with
              | .ended none => r.drain fuel budget stack p
              | outcome => some ⟨outcome, stack, p⟩
          else r.drain fuel budget (ops ++ rest) ⟨w, executed, fault⟩
        | .atomic ctx =>
          match r.execute ctx rest.length w with
          | (.ok next, w) =>
            let stack := next.toList ++ rest
            match budget with
            | none => r.drain fuel none stack ⟨w, executed + 1, fault⟩
            | some steps =>
              if steps ≤ 1 then some ⟨.ended (some .budget), stack, ⟨w, executed + 1, fault⟩⟩
              else r.drain fuel (some (steps - 1)) stack ⟨w, executed + 1, fault⟩
          | (.error e, w) =>
            some ⟨.failed e, .atomic ctx :: rest, ⟨w, executed, fault || !e.isCancellation⟩⟩

end DrainSetting

end ScopeFlow
