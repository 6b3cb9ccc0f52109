import ScopeFlow.Engine.Drain

/-!
# Engines

An engine runs a graph over a scope tree. Preparing binds both and schedules
the initial operator; `start` drains the pending work; `step` executes one
operator; `stop` throws the pending work away. A paused engine goes on where
it halted. Each call answers the events that an observer of the engine gets
to see during it.
-/

namespace ScopeFlow

/-- What an observer of an engine is told. -/
inductive Event where
  /-- The engine is in a new state. -/
  | entered (state : RunState)
  /-- Time has been spent running. -/
  | timePassed
  /-- An operator failed. -/
  | failed (e : Failure)
deriving DecidableEq

/-- An engine. -/
structure Engine where
  config : Config
  state : RunState
  graph : Option SharedGraph
  scope : Option ScopeId
  /-- Pending operations, the next one first. -/
  continuation : List Operation
  control : ControlId
  /-- The failure that faulted the last run. -/
  error : Option Failure
  /-- Operators executed since preparation. -/
  executed : Nat
  /-- Has the engine run since preparation? -/
  hasRun : Bool
deriving Inhabited

/-- What a call on an engine leads to. -/
structure Reply (α : Type) where
  result : Except Failure α
  engine : Engine
  world : World
  events : List Event

namespace Engine

/-- The scopes that an engine holds: the global scope, and those that its
pending operations hold. -/
def heldScopes (e : Engine) : List ScopeId :=
  e.scope.toList ++ e.continuation.flatMap Operation.heldScopes

/-- An engine with nothing prepared. -/
def ofConfig (config : Config) (control : ControlId) : Engine :=
  ⟨config, .stopped, none, none, [], control, none, 0, false⟩

/-- An engine with a configuration, unless there is something wrong with it. -/
def create (config : Config) : Act World Engine :=
  match config.fault? with
  | some text => Act.fail (.invalidConfig text)
  | none => do
    let c ← Act.change World.newControl
    pure (ofConfig config c)

/-- The engine under the control of a caller's token. Handles made before keep
the control that the engine had. -/
def withToken (e : Engine) (t : TokenId) (w : World) : Engine × World :=
  let (c, w) := w.newControlWith t
  ({ e with control := c }, w)

/-- The refusal of a call that the state does not allow. -/
def refuse {α : Type} (e : Engine) (call : EngineCall) (w : World) : Reply α :=
  ⟨.error (.invalidState call e.state), e, w, []⟩

/-- The operations scheduled first: the graph's initial operator on the global
scope, if the graph has one. -/
def firstOperations (g : SharedGraph) (s : ScopeId) (h : Heap) : List Operation × Heap :=
  match g.graph.initial with
  | none => ([], h)
  | some initial =>
    let (root, h) := h.rootContext g s
    let (ctx, h) := h.childContext root initial s
    ([.atomic ctx], h)

/-- Binds a graph and a global scope and schedules the initial operator.
Counters, the stored failure and all requests are cleared. -/
def prepare (e : Engine) (g : SharedGraph) (s : ScopeId) (w : World) : Reply Unit :=
  if e.state = .running then e.refuse .prepare w
  else
    match g.graph.validate w.heap with
    | .error failure => ⟨.error failure, e, w, []⟩
    | .ok () =>
      let (continuation, heap) := firstOperations g s w.heap
      let w := { w with heap }.resetControl e.control
      ⟨.ok (), { e with
        state := .ready
        graph := some g
        scope := some s
        continuation
        error := none
        executed := 0
        hasRun := false }, w, [.entered .ready]⟩

/-- The state that a drain without failure ends in, and what stays pending. -/
def settle (halt : Option Halt) (stack : List Operation) : RunState × List Operation :=
  match halt with
  | some .stop | some .cancel => (.stopped, [])
  | some .abort => (.aborted, [])
  | none | some .pause | some .budget | some .fault =>
    (if stack.isEmpty then .stopped else .paused, stack)

/-- The engine after a drain. -/
def afterDrain (e : Engine) (d : Drained) : Reply RunState :=
  let w := d.progress.world
  let ran := { e with executed := d.progress.executed, hasRun := true }
  let events := [.entered .running, .timePassed]
  match d.outcome with
  | .ended halt =>
    let (state, continuation) := settle halt d.stack
    let w := if halt = some .pause then w.clearPause e.control else w
    ⟨.ok state, { ran with state, continuation }, w, events ++ [.entered state]⟩
  | .failed .cancelled =>
    let state := if (w.control e.control).abort then .aborted else .stopped
    ⟨.ok state, { ran with state, continuation := [] }, w, events ++ [.entered state]⟩
  | .failed failure =>
    ⟨.error failure,
      { ran with state := .faulted, continuation := d.stack, error := some failure }, w,
      events ++ [.failed failure, .entered .faulted]⟩

/-- Runs the engine, if its state allows. -/
def run (fuel : Nat) (call : EngineCall) (budget : Option Nat) (e : Engine) (w : World) :
    Option (Reply RunState) :=
  if e.state.canRun then
    let setting : DrainSetting := ⟨e.config, e.control⟩
    (setting.drain fuel budget e.continuation ⟨w, e.executed, false⟩).map e.afterDrain
  else some (e.refuse call w)

/-- Drains the pending work. -/
def start (fuel : Nat) (e : Engine) (w : World) : Option (Reply RunState) :=
  e.run fuel .start none w

/-- Executes one operator. -/
def step (fuel : Nat) (e : Engine) (w : World) : Option (Reply RunState) :=
  e.run fuel .step (some 1) w

/-- Throws the pending work away. The scope tree is left as it is. -/
def stop (e : Engine) (w : World) : Reply Unit :=
  match e.state with
  | .ready | .paused | .faulted =>
    ⟨.ok (), { e with state := .stopped, continuation := [] }, w, [.entered .stopped]⟩
  | .running | .stopped | .aborted => e.refuse .stop w

/-- What one of several steps led to. -/
structure StepRow where
  result : Except Failure RunState
  executed : Nat
  pending : Nat

/-- Steps at most so many times, as long as the engine pauses. -/
def stepUpTo (fuel : Nat) : Nat → Engine → World → Option (Reply (List StepRow))
  | 0, e, w => some ⟨.ok [], e, w, []⟩
  | n + 1, e, w =>
    match e.step fuel w with
    | none => none
    | some reply =>
      let row : StepRow :=
        ⟨reply.result, reply.engine.executed, reply.engine.continuation.length⟩
      match reply.result with
      | .ok .paused =>
        (stepUpTo fuel n reply.engine reply.world).map fun later =>
          { later with
            result := later.result.map fun rows => row :: rows
            events := reply.events ++ later.events }
      | _ => some ⟨.ok [row], reply.engine, reply.world, reply.events⟩

/-- An engine as text: its state, the name of its graph, and how much is
pending and executed. -/
def text (e : Engine) : String :=
  Text.recordText "Engine" [("state", e.state.title),
    ("graph", match e.graph with
      | some g => "Some(" ++ Text.quoted g.graph.name ++ ")"
      | none => "None"),
    ("continuation", toString e.continuation.length), ("executed", toString e.executed)]

end Engine

end ScopeFlow
