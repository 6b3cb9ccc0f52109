import ScopeFlow.Act
import ScopeFlow.Heap.Basic

/-!
# Run control

Tokens and requests reach a run from outside. A token is a flag that says
"cancelled"; a control gathers the requests made to one engine and the token
that its operators see. Both have an identity, since handles share them with
the engine. The world is the heap together with them.

Of several requests the strongest counts: abort, then stop, then a cancelled
token, then pause (`World.halt?`).
-/

namespace ScopeFlow

/-- The identity of a cancellation token. -/
structure TokenId where
  index : Nat
deriving DecidableEq, Inhabited

/-- The identity of a control. -/
structure ControlId where
  index : Nat
deriving DecidableEq, Inhabited

/-- The requests made to an engine. -/
structure Control where
  pause : Bool
  stop : Bool
  abort : Bool
  token : TokenId
  /-- The token belongs to a caller and is never cleared. -/
  external : Bool
deriving DecidableEq, Inhabited

/-- A control without requests. -/
def Control.fresh (token : TokenId) (external : Bool) : Control :=
  ⟨false, false, false, token, external⟩

/-- Why a drain stops taking operations. -/
inductive Halt where
  | pause
  | stop
  | abort
  /-- The token is cancelled, without an abort. -/
  | cancel
  /-- All steps asked for are done. -/
  | budget
  /-- An operator of another branch failed. -/
  | fault
deriving DecidableEq, Inhabited

/-- The heap, the tokens and the controls. -/
structure World where
  heap : Heap
  tokens : Array Bool
  controls : Array Control

namespace World

/-- The world before anything is made. -/
def empty : World := ⟨.empty, #[], #[]⟩

/-! ## Tokens -/

/-- A fresh token, not cancelled. -/
def newToken (w : World) : TokenId × World :=
  (⟨w.tokens.size⟩, { w with tokens := w.tokens.push false })

/-- Is the token cancelled? -/
def isCancelled (w : World) (t : TokenId) : Bool := (w.tokens[t.index]?).getD false

/-- Sets or clears a token. -/
def setToken (w : World) (t : TokenId) (cancelled : Bool) : World :=
  { w with tokens := w.tokens.setIfInBounds t.index cancelled }

/-- Cancels a token. -/
def cancel (w : World) (t : TokenId) : World := w.setToken t true

/-- Fails once the token is cancelled. -/
def checkToken (w : World) (t : TokenId) : Except Failure Unit :=
  if w.isCancelled t then .error .cancelled else .ok ()

/-! ## Controls -/

/-- The control of an identity. -/
def control (w : World) (c : ControlId) : Control :=
  (w.controls[c.index]?).getD (.fresh ⟨0⟩ false)

/-- Changes one control. -/
def updateControl (w : World) (c : ControlId) (f : Control → Control) : World :=
  { w with controls := w.controls.modify c.index f }

/-- A fresh control with a caller's token. -/
def newControlWith (w : World) (t : TokenId) : ControlId × World :=
  (⟨w.controls.size⟩, { w with controls := w.controls.push (.fresh t true) })

/-- A fresh control with a token of its own. -/
def newControl (w : World) : ControlId × World :=
  let (t, w) := w.newToken
  (⟨w.controls.size⟩, { w with controls := w.controls.push (.fresh t false) })

/-- A fresh control for the copy of an engine: a caller's token is kept. -/
def detachedControl (w : World) (c : ControlId) : ControlId × World :=
  if (w.control c).external then w.newControlWith (w.control c).token else w.newControl

/-- The token of a control. -/
def token (w : World) (c : ControlId) : TokenId := (w.control c).token

/-- Asks for a pause. -/
def pause (w : World) (c : ControlId) : World :=
  w.updateControl c fun k => { k with pause := true }

/-- Asks for a stop. -/
def stop (w : World) (c : ControlId) : World :=
  w.updateControl c fun k => { k with stop := true }

/-- Asks for an abort and cancels the token. -/
def abort (w : World) (c : ControlId) : World :=
  (w.updateControl c fun k => { k with abort := true }).cancel (w.token c)

/-- Takes a request for a pause back. -/
def clearPause (w : World) (c : ControlId) : World :=
  w.updateControl c fun k => { k with pause := false }

/-- Takes every request back, and clears the token unless it is a caller's. -/
def resetControl (w : World) (c : ControlId) : World :=
  let w' := w.updateControl c fun k => { k with pause := false, stop := false, abort := false }
  if (w.control c).external then w' else w'.setToken (w.token c) false

/-- The strongest request pending, if any. -/
def halt? (w : World) (c : ControlId) : Option Halt :=
  let k := w.control c
  if k.abort then some .abort
  else if k.stop then some .stop
  else if w.isCancelled k.token then some .cancel
  else if k.pause then some .pause
  else none

/-- An act on the heap, as one on the world. -/
def onHeap {α : Type} (x : Act Heap α) : Act World α := fun w =>
  let h := w.heap
  let w := { w with heap := .empty }
  let (r, h) := x h
  (r, { w with heap := h })

theorem onHeap_apply {α : Type} (x : Act Heap α) (w : World) :
    onHeap x w = ((x w.heap).1, { w with heap := (x w.heap).2 }) := rfl

end World

end ScopeFlow
