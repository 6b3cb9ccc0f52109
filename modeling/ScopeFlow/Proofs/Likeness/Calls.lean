import ScopeFlow.Proofs.Clone.States
import ScopeFlow.Proofs.Control.Pause
import ScopeFlow.Proofs.Likeness.Drain

/-!
# Calls on both sides

The same call on engines that are alike answers the same, leaves engines that
are alike, and changes on each side only what that engine reaches. Requests
are left as they are, unless one for a pause is met and taken back.
-/

namespace ScopeFlow

/-- A call on an engine. -/
inductive Call where
  | start
  | step
  | stop
deriving DecidableEq

/-- An engine after a call, and what the call answered: the state that a run
ended in, or nothing where it was to stop. -/
structure Called where
  result : Except Failure (Option RunState)
  engine : Engine
  world : World

namespace Engine

/-- Makes a call on an engine. -/
def call (fuel : Nat) (e : Engine) (w : World) : Call → Option Called
  | .start => (e.start fuel w).map fun r => ⟨r.result.map some, r.engine, r.world⟩
  | .step => (e.step fuel w).map fun r => ⟨r.result.map some, r.engine, r.world⟩
  | .stop => some ⟨(e.stop w).result.map fun _ => none, (e.stop w).engine, (e.stop w).world⟩

/-- A call is a run, or a stop, which does nothing but throw away what is pending
or is refused. -/
theorem call_cases {fuel : Nat} {e : Engine} {w : World} {c : Call} {x : Called}
    (hcall : call fuel e w c = some x) :
    (∃ entry budget reply, e.run fuel entry budget w = some reply ∧
      x.engine = reply.engine ∧ x.world = reply.world) ∨
    x.world = w ∧ (x.engine = e ∨ x.engine = { e with state := .stopped, continuation := [] }) := by
  cases c with
  | start =>
      obtain ⟨reply, hrun, rfl⟩ := Option.map_eq_some_iff.mp hcall
      exact .inl ⟨.start, none, reply, hrun, rfl, rfl⟩
  | step =>
      obtain ⟨reply, hrun, rfl⟩ := Option.map_eq_some_iff.mp hcall
      exact .inl ⟨.step, some 1, reply, hrun, rfl, rfl⟩
  | stop =>
      cases hcall
      refine .inr ?_
      dsimp only
      unfold Engine.stop
      cases e.state with
      | ready | paused | faulted => exact ⟨rfl, .inr rfl⟩
      | running | stopped | aborted => exact ⟨rfl, .inl rfl⟩

end Engine

/-- Calls that come to the same, where the second one was made in `w`. -/
structure Called.Alike (ρ : Renaming) (a b : ControlId) (w : World) (x y : Called) : Prop where
  frame : ∃ ρ', Confined ρ ρ' w.heap y.world.heap ∧ x.engine.Alike ρ' y.engine ∧
    x.world.Alike ρ' a b y.world
  result : x.result = y.result
  control : x.engine.control = a
  control' : y.engine.control = b
  requests : w.halt? b = none → w.SameRequests y.world
  controls : y.world.controls.size = w.controls.size

namespace World

variable {ρ : Renaming} {a b : ControlId} {w w' : World}

theorem Alike.clearPause (h : w.Alike ρ a b w') :
    (w.clearPause a).Alike ρ a b (w'.clearPause b) where
  heap := h.heap
  pause := by rw [control_clearPause, control_clearPause]
  stop := by
    rw [control_clearPause, control_clearPause]
    exact h.stop
  abort := by
    rw [control_clearPause, control_clearPause]
    exact h.abort
  cancelled := by
    unfold token
    rw [control_clearPause, control_clearPause]
    exact h.cancelled

end World

namespace Engine

variable {ρ : Renaming} {e e' : Engine} {w w' : World}

theorem settle_alike {stack stack' : List Operation} (h : Operation.AllAlike ρ stack stack')
    (halt : Option Halt) : (settle halt stack).1 = (settle halt stack').1 ∧
      Operation.AllAlike ρ (settle halt stack).2 (settle halt stack').2 := by
  have hempty : stack.isEmpty = stack'.isEmpty := by cases h <;> rfl
  unfold settle
  rw [hempty]
  cases halt with
  | none => exact ⟨rfl, h⟩
  | some halt => cases halt <;> first | exact ⟨rfl, h⟩ | exact ⟨rfl, .nil⟩

/-- Replies are alike if the drains that they are read off are. -/
theorem afterDrain_alike (he : e.Alike ρ e') {d d' : Drained}
    (hd : d.Alike ρ e.control e'.control w' d') :
    Called.Alike ρ e.control e'.control w'
      ⟨(e.afterDrain d).result.map some, (e.afterDrain d).engine, (e.afterDrain d).world⟩
      ⟨(e'.afterDrain d').result.map some, (e'.afterDrain d').engine,
        (e'.afterDrain d').world⟩ := by
  obtain ⟨ρ', hframe, houtcome, hstack, hp⟩ := hd
  have hw := hframe.heap.within
  have hscope := rel_imp hw.scopes he.scope
  have hgraph := rel_imp hw.graphs he.graph
  -- Without a request there is none to take back either.
  have hquiet : w'.halt? e'.control = none → d'.progress.world.halt? e'.control = none := by
    intro h
    rw [hframe.requests.halt?, h]
  unfold afterDrain
  rw [houtcome]
  cases d'.outcome with
  | ended halt =>
      obtain ⟨hstate, hrest⟩ := settle_alike hstack halt
      have halike : ∀ {s s' : RunState × List Operation}, s.1 = s'.1 →
          Operation.AllAlike ρ' s.2 s'.2 →
          Engine.Alike ρ' { e with
              executed := d.progress.executed, hasRun := true, state := s.1, continuation := s.2 }
            { e' with
              executed := d'.progress.executed, hasRun := true, state := s'.1
              continuation := s'.2 } :=
        fun hs hc => ⟨he.config, hs, hscope, hgraph, hc, he.error, hp.executed, rfl⟩
      have hsize := congrArg Array.size hframe.requests.controls
      refine ⟨⟨ρ', ?_, halike hstate hrest, ?_⟩, ?_, rfl, rfl, fun h => ?_, ?_⟩
      · dsimp only
        split
        · exact hframe.heap
        · exact hframe.heap
      · dsimp only
        split
        · exact hp.world.clearPause
        · exact hp.world
      · exact congrArg (fun s => Except.ok (some s)) hstate
      · dsimp only
        split
        · rw [World.clearPause_quiet (hquiet h)]
          exact hframe.requests
        · exact hframe.requests
      · dsimp only
        split
        · exact Array.size_modify.trans hsize
        · exact hsize
  | failed failure =>
      have hfault : ∀ failure : Failure, Called.Alike ρ e.control e'.control w'
          ⟨.error failure, { e with
            executed := d.progress.executed, hasRun := true, state := .faulted
            continuation := d.stack, error := some failure }, d.progress.world⟩
          ⟨.error failure, { e' with
            executed := d'.progress.executed, hasRun := true, state := .faulted
            continuation := d'.stack, error := some failure }, d'.progress.world⟩ :=
        fun failure => ⟨⟨ρ', hframe.heap, ⟨he.config, rfl, hscope, hgraph, hstack, rfl,
          hp.executed, rfl⟩, hp.world⟩, rfl, rfl, rfl, fun _ => hframe.requests,
          congrArg Array.size hframe.requests.controls⟩
      cases failure with
      | cancelled =>
          dsimp only
          rw [hp.world.abort]
          exact ⟨⟨ρ', hframe.heap, ⟨he.config, rfl, hscope, hgraph, .nil, he.error,
            hp.executed, rfl⟩, hp.world⟩, rfl, rfl, rfl, fun _ => hframe.requests,
          congrArg Array.size hframe.requests.controls⟩
      | _ => exact hfault _

/-- The same run of engines that are alike. -/
theorem run_alike (he : e.Alike ρ e') (hw : w.Alike ρ e.control e'.control w') (fuel : Nat)
    (call : EngineCall) (budget : Option Nat) :
    Option.Rel (Called.Alike ρ e.control e'.control w')
      ((e.run fuel call budget w).map fun r => ⟨r.result.map some, r.engine, r.world⟩)
      ((e'.run fuel call budget w').map fun r => ⟨r.result.map some, r.engine, r.world⟩) := by
  unfold run
  rw [he.state]
  split
  · have hp : Progress.Alike ρ e.control e'.control ⟨w, e.executed, false⟩ ⟨w', e'.executed, false⟩ :=
      ⟨hw, he.executed, rfl⟩
    have hconfig : DrainSetting.config ⟨e.config, e.control⟩ =
        DrainSetting.config ⟨e'.config, e'.control⟩ := he.config
    have hd : Option.Rel (Drained.Alike ρ e.control e'.control w')
        (DrainSetting.drain ⟨e.config, e.control⟩ fuel budget e.continuation
          ⟨w, e.executed, false⟩)
        (DrainSetting.drain ⟨e'.config, e'.control⟩ fuel budget e'.continuation
          ⟨w', e'.executed, false⟩) :=
      DrainSetting.drain_alike hconfig fuel he.continuation hp
    dsimp only
    generalize DrainSetting.drain ⟨e.config, e.control⟩ fuel budget e.continuation
      ⟨w, e.executed, false⟩ = x at hd ⊢
    generalize DrainSetting.drain ⟨e'.config, e'.control⟩ fuel budget e'.continuation
      ⟨w', e'.executed, false⟩ = y at hd ⊢
    cases hd with
    | none => exact .none
    | some hd => exact .some (afterDrain_alike he hd)
  · refine .some ⟨⟨ρ, .refl, he, hw⟩, ?_, rfl, rfl, fun _ => .refl, rfl⟩
    show Except.error _ = Except.error _
    rw [he.state]

/-- The same call on engines that are alike. -/
theorem call_alike (he : e.Alike ρ e') (hw : w.Alike ρ e.control e'.control w') (fuel : Nat)
    (c : Call) :
    Option.Rel (Called.Alike ρ e.control e'.control w') (e.call fuel w c) (e'.call fuel w' c) := by
  cases c with
  | start => exact run_alike he hw fuel .start none
  | step => exact run_alike he hw fuel .step (some 1)
  | stop =>
      have hrefuse : Called.Alike ρ e.control e'.control w'
          ⟨.error (.invalidState .stop e.state), e, w⟩
          ⟨.error (.invalidState .stop e'.state), e', w'⟩ :=
        ⟨⟨ρ, .refl, he, hw⟩, by rw [he.state], rfl, rfl, fun _ => .refl, rfl⟩
      have hstop : Called.Alike ρ e.control e'.control w'
          ⟨.ok none, { e with state := .stopped, continuation := [] }, w⟩
          ⟨.ok none, { e' with state := .stopped, continuation := [] }, w'⟩ :=
        ⟨⟨ρ, .refl, ⟨he.config, rfl, he.scope, he.graph, .nil, he.error, he.executed,
          he.hasRun⟩, hw⟩, rfl, rfl, rfl, fun _ => .refl, rfl⟩
      refine .some ?_
      have hstate := he.state
      unfold stop
      cases hs : e'.state with
      | ready | paused | faulted =>
          rw [hstate.trans hs]
          exact hstop
      | running | stopped | aborted =>
          rw [hstate.trans hs]
          exact hrefuse

end Engine

end ScopeFlow
