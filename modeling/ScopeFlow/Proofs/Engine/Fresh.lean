import ScopeFlow.Proofs.Control.Detached
import ScopeFlow.Proofs.Engine.Reached

/-!
# Fresh engines

An engine that has been created and prepared is at the initial operator, on the
global scope, with nothing executed and nothing asked for.

* `World.halt?_resetControl`: no request outlasts a reset;
* `Engine.AtStart` says where an engine is before its first start, and
  `Engine.prepared_atStart` that preparing gets it there.
-/

namespace ScopeFlow

namespace World

variable {w : World} {c : ControlId} {t : TokenId}

theorem isCancelled_setToken_false : (w.setToken t false).isCancelled t = false := by
  unfold isCancelled setToken
  dsimp only
  rw [Array.getElem?_setIfInBounds_self]
  split <;> rfl

/-- No request outlasts a reset, and no cancellation of the control's own token. -/
theorem halt?_resetControl (hown : (w.control c).external = false) :
    (w.resetControl c).halt? c = none := by
  have hcontrol := Engine.control_resetControl w c
  have hcancelled : (w.resetControl c).isCancelled (w.token c) = false := by
    unfold resetControl
    rw [hown]
    exact isCancelled_setToken_false
  rw [halt?_eq_none_iff, hcontrol]
  exact ⟨rfl, rfl, hcancelled, rfl⟩

end World

/-- A configuration with nothing wrong about it has room for an operator. -/
theorem Config.bounds_of_fault? {config : Config} (hconfig : config.fault? = none) :
    1 ≤ config.maxStackDepth ∧ 1 ≤ config.maxContextDepth := by
  unfold fault? at hconfig
  split at hconfig
  · cases hconfig
  · split at hconfig
    · cases hconfig
    · omega

namespace Engine

/-- An engine before its first start: at one context, with nothing executed and
nothing asked for. -/
structure AtStart (e : Engine) (config : Config) (ctx : Context) (h : Heap) (w : World) :
    Prop where
  config : e.config = config
  state : e.state = .ready
  continuation : e.continuation = [.atomic ctx]
  executed : e.executed = 0
  quiet : w.halt? e.control = none
  heap : w.heap = h

variable {config : Config} {g : SharedGraph} {start : OperatorId} {w w₀ : World}
  {ctx : Context} {h : Heap} {e : Engine} {l : List Deed} {d : Drained}

/-- The context that a run over a scope starts with. -/
def firstContext (g : SharedGraph) (start : OperatorId) (s : ScopeId) (h : Heap) : Context :=
  .frame ⟨h.contexts + 1⟩ start s [start] (.root ⟨h.contexts⟩ g s)

/-- A graph that passes its check is prepared on an engine of any valid
configuration. -/
theorem prepared_atStart (hconfig : config.fault? = none) (s : ScopeId)
    (hvalid : g.graph.validate w₀.heap = .ok ()) (hinitial : g.graph.initial = some start) :
    ∃ e₀ w₁ e w events, create config w₀ = (.ok e₀, w₁) ∧
      e₀.prepare g s w₁ = ⟨.ok (), e, w, events⟩ ∧
      e.AtStart config (firstContext g start s w₀.heap)
        { w₀.heap with contexts := w₀.heap.contexts + 2 } w := by
  have hcreate : create config w₀ =
      (.ok (ofConfig config w₀.newControl.1), w₀.newControl.2) := by
    unfold create
    rw [hconfig]
    rfl
  have hfirst : firstOperations g s w₀.newControl.2.heap =
      ([.atomic (firstContext g start s w₀.heap)],
        { w₀.heap with contexts := w₀.heap.contexts + 2 }) := by
    unfold firstOperations
    rw [hinitial]
    rfl
  have hfresh : (w₀.newControl.2.control w₀.newControl.1).external = false := by
    have hself : w₀.newControl.2.control w₀.newControl.1 = _ :=
      World.control_push_self (w := w₀.newToken.2)
    rw [hself]
    rfl
  rcases hprep : (ofConfig config w₀.newControl.1).prepare g s w₀.newControl.2 with
    ⟨result, e, w, events⟩
  have hresult :
      ((ofConfig config w₀.newControl.1).prepare g s w₀.newControl.2).result = .ok () := by
    unfold prepare
    rw [if_neg nofun, show g.graph.validate w₀.newControl.2.heap = .ok () from hvalid]
  rw [hprep] at hresult
  cases hresult
  refine ⟨_, _, e, w, events, hcreate, hprep, ?_⟩
  obtain ⟨rfl, rfl⟩ := prepare_ok hprep
  rw [hfirst]
  exact ⟨rfl, rfl, rfl, rfl, World.halt?_resetControl hfresh, (resetControl_frame _ _).1⟩

namespace AtStart

variable (he : e.AtStart config ctx h w)
include he

theorem unhalted : e.setting.halts? ⟨w, e.executed, false⟩ = none :=
  DrainSetting.halts?_eq_none_iff.mpr ⟨he.quiet, rfl⟩

/-- What the first start answers is read off how the drain ends. -/
theorem start_of_ends (hends : e.setting.Ends none e.continuation ⟨w, e.executed, false⟩ l d) :
    ∃ fuel, e.start fuel w = some (e.afterDrain d) :=
  (run_iff (by rw [he.state]; rfl)).mpr ⟨l, d, hends, rfl⟩

end AtStart

end Engine

end ScopeFlow
