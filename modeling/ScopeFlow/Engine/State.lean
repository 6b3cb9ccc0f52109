/-!
# Run states

The states of an engine's life. Preparation makes an engine ready; `start`
and `step` run it; a run pauses, or ends stopped, aborted or faulted. Which of
the calls on an engine are allowed depends on its state.
-/

namespace ScopeFlow

/-- Where an engine stands in its life. -/
inductive RunState where
  /-- Prepared, nothing executed yet. -/
  | ready
  /-- Draining its continuation. -/
  | running
  /-- Halted with work left; it can go on. -/
  | paused
  /-- Finished, or stopped on request; nothing is left to do. -/
  | stopped
  /-- Aborted on request; nothing is left to do. -/
  | aborted
  /-- An operator failed; it is still the next one to run. -/
  | faulted
deriving DecidableEq, Inhabited

namespace RunState

/-- The name under which a state is shown. -/
def name : RunState → String
  | ready => "ready"
  | running => "running"
  | paused => "paused"
  | stopped => "stopped"
  | aborted => "aborted"
  | faulted => "faulted"

/-- The name of a state with a capital. -/
def title : RunState → String
  | ready => "Ready"
  | running => "Running"
  | paused => "Paused"
  | stopped => "Stopped"
  | aborted => "Aborted"
  | faulted => "Faulted"

/-- The state with a given name. -/
def ofName? (s : String) : Option RunState :=
  [ready, running, paused, stopped, aborted, faulted].find? fun r => r.name == s

/-- May the engine be started or stepped? -/
def canRun : RunState → Bool
  | ready | paused => true
  | _ => false

/-- Is this a state that only a new preparation leaves for another run? -/
def isTerminal : RunState → Bool
  | stopped | aborted | faulted => true
  | _ => false

end RunState

/-- The calls on an engine that a state may refuse. -/
inductive EngineCall where
  | prepare
  | start
  | step
  | stop
deriving DecidableEq, Inhabited

namespace EngineCall

/-- The name under which a call is shown. -/
def name : EngineCall → String
  | prepare => "prepare"
  | start => "start"
  | step => "step"
  | stop => "stop"

/-- The call with a given name. -/
def ofName? (s : String) : Option EngineCall :=
  [prepare, start, step, stop].find? fun c => c.name == s

end EngineCall

end ScopeFlow
