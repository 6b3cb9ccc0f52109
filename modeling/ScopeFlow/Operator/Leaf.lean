import ScopeFlow.Value.Basic

/-!
# Leaf programs

What an operator of the user's own does when it runs: reads and writes
through its parameters, draws from random sources, and requests to the engine
that runs it. A program is a tree of such steps, each with the program that
follows on its answer. It ends by going on to the operator's successor, or by
failing; a step that fails ends it with the step's own failure.
-/

namespace ScopeFlow

/-- What an operator can ask of the run it is part of. -/
inductive Request where
  /-- Halt and keep the work that is left. -/
  | pause
  /-- Halt and discard it. -/
  | stop
  /-- Stop, and cancel what is under way. -/
  | abort
  /-- Cancel the token that the operator was given. -/
  | cancel
deriving DecidableEq, Inhabited

/-- A program over the parameters of an operator. -/
inductive Leaf where
  /-- Go on to the successor. -/
  | done
  /-- Fail with a message, in the operator's name. -/
  | fail (message : String)
  /-- Fail as cancelled. -/
  | cancelled
  /-- Read a parameter. -/
  | value (parameter : String) (next : Value → Leaf)
  /-- Read a parameter that may have neither variable nor default. -/
  | optional (parameter : String) (next : Option Value → Leaf)
  | bool (parameter : String) (next : Bool → Leaf)
  | int (parameter : String) (next : Int64 → Leaf)
  | double (parameter : String) (next : Float → Leaf)
  | operator (parameter : String) (next : OperatorId → Leaf)
  /-- Write a fresh item through a parameter. -/
  | set (parameter : String) (v : Value) (next : Leaf)
  /-- Unbind what a parameter stands for in the bound scope. -/
  | remove (parameter : String) (next : Leaf)
  /-- Put calls to the random source a parameter stands for. -/
  | random (parameter : String) (calls : List Random.Call) (next : List Random.Answer → Leaf)
  /-- Make a request to the run. -/
  | request (r : Request) (next : Leaf)
  /-- Look whether the token is cancelled. -/
  | isCancelled (next : Bool → Leaf)

end ScopeFlow
