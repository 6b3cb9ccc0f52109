import ScopeFlow.Engine.Basic
import ScopeFlow.Proofs.Control.Pause
import ScopeFlow.Proofs.Drain.Rules
import ScopeFlow.Proofs.Operator.Answers

/-!
# Calls as drains

A call on an engine that its state allows is a drain of the pending
operations, and the reply is read off how the drain ends; one that it does not
allow changes nothing.
-/

namespace ScopeFlow.Engine

/-- The setting of an engine's drains. -/
def setting (e : Engine) : DrainSetting := ⟨e.config, e.control⟩

variable {e : Engine} {w : World} {fuel : Nat} {call : EngineCall} {budget : Option Nat}
  {reply : Reply RunState}

/-- A call that is allowed is a drain. -/
theorem run_iff (h : e.state.canRun = true) :
    (∃ fuel, e.run fuel call budget w = some reply) ↔
      ∃ l z, e.setting.Ends budget e.continuation ⟨w, e.executed, false⟩ l z ∧
        reply = e.afterDrain z := by
  simp only [run, h, if_true, Option.map_eq_some_iff]
  constructor
  · rintro ⟨fuel, z, hz, rfl⟩
    exact ⟨_, z, ⟨fuel, hz, rfl⟩, rfl⟩
  · rintro ⟨l, z, ⟨fuel, hz, -⟩, rfl⟩
    exact ⟨fuel, z, hz, rfl⟩

/-- A call that is not allowed leaves everything as it is. -/
theorem run_refused (h : e.state.canRun = false) :
    e.run fuel call budget w = some (e.refuse call w) := by
  rw [run, h]
  rfl

theorem run_mono {fuel' : Nat} (hle : fuel ≤ fuel') (h : e.run fuel call budget w = some reply) :
    e.run fuel' call budget w = some reply := by
  cases hc : e.state.canRun with
  | false => rw [run_refused hc] at h ⊢; exact h
  | true =>
      simp only [run, hc, if_true, Option.map_eq_some_iff] at h ⊢
      obtain ⟨z, hz, rfl⟩ := h
      exact ⟨z, (DrainSetting.drain_mono hle hz).1, rfl⟩

/-- A call that returns does so with one reply. -/
theorem run_unique {fuel' : Nat} {reply' : Reply RunState}
    (h : e.run fuel call budget w = some reply) (h' : e.run fuel' call budget w = some reply') :
    reply = reply' := by
  have hmore := run_mono (Nat.le_max_left fuel fuel') h
  have hmore' := run_mono (Nat.le_max_right fuel fuel') h'
  exact Option.some.inj (hmore.symm.trans hmore')

theorem executed_afterDrain (e : Engine) (z : Drained) :
    (e.afterDrain z).engine.executed = z.progress.executed := by
  unfold afterDrain
  split <;> rfl

/-- What is pending at first is the initial operator on the global scope, if the
graph has one, right below the frame of the graph. -/
theorem mem_firstOperations {g : SharedGraph} {s : ScopeId} {h : Heap} {c : Context}
    (hc : c ∈ Operation.contextsOfAll (firstOperations g s h).1) : ∃ initial,
      g.graph.initial = some initial ∧
        c = .frame ⟨h.contexts + 1⟩ initial s [initial] (.root ⟨h.contexts⟩ g s) := by
  unfold firstOperations at hc
  cases hinitial : g.graph.initial with
  | none =>
      rw [hinitial] at hc
      cases hc
  | some initial =>
      rw [hinitial] at hc
      exact ⟨initial, rfl, List.mem_singleton.mp hc⟩

/-- The first operations run in the graph that they are of. -/
theorem firstOperations_runIn (g : SharedGraph) (s : ScopeId) (h : Heap) :
    Operation.AllRunIn (firstOperations g s h).1 g := by
  intro c hc
  obtain ⟨initial, -, rfl⟩ := mem_firstOperations hc
  rfl

/-- They search the global scope only. -/
theorem firstOperations_scopeChain {g : SharedGraph} {s t : ScopeId} {h : Heap} {c : Context}
    (hc : c ∈ Operation.contextsOfAll (firstOperations g s h).1) (ht : t ∈ c.scopeChain) :
    t = s := by
  obtain ⟨initial, -, rfl⟩ := mem_firstOperations hc
  simpa [Context.scopeChain, Context.scope] using ht

/-- No request outlasts a reset. -/
theorem control_resetControl (w : World) (c : ControlId) :
    (w.resetControl c).control c =
      { w.control c with pause := false, stop := false, abort := false } := by
  have hupdate : (w.updateControl c fun k =>
      { k with pause := false, stop := false, abort := false }).control c =
        { w.control c with pause := false, stop := false, abort := false } := by
    rcases Nat.lt_or_ge c.index w.controls.size with hlt | hle
    · rw [World.control_updateControl _ hlt]
    · rw [World.updateControl_of_le _ hle, World.control_of_le hle]
      rfl
  unfold World.resetControl
  dsimp only
  split
  · exact hupdate
  · exact hupdate

/-- What preparing comes to where it is not refused. -/
theorem prepare_ok {e₀ : Engine} {g : SharedGraph} {s : ScopeId} {w₀ : World}
    {events : List Event} (hprep : e₀.prepare g s w₀ = ⟨.ok (), e, w, events⟩) :
    e = { e₀ with
        state := .ready, graph := some g, scope := some s
        continuation := (firstOperations g s w₀.heap).1
        error := none, executed := 0, hasRun := false } ∧
      w = World.resetControl { w₀ with heap := (firstOperations g s w₀.heap).2 } e₀.control := by
  unfold prepare at hprep
  split at hprep
  · cases hprep
  · cases hvalid : g.graph.validate w₀.heap with
    | error failure =>
        rw [hvalid] at hprep
        cases hprep
    | ok u =>
        rw [hvalid] at hprep
        cases hprep
        exact ⟨rfl, rfl⟩

/-- A drain leaves the heap as it found it at its end, and pending what it
found pending, unless that is thrown away. -/
theorem afterDrain_frame (e : Engine) (d : Drained) :
    (e.afterDrain d).world.heap = d.progress.world.heap ∧
      (e.afterDrain d).engine.graph = e.graph ∧ (e.afterDrain d).engine.scope = e.scope ∧
      ((e.afterDrain d).engine.continuation = d.stack ∨
        (e.afterDrain d).engine.continuation = []) := by
  unfold afterDrain
  cases d.outcome with
  | ended halt =>
      refine ⟨?_, rfl, rfl, ?_⟩
      · dsimp only
        split <;> rfl
      · cases halt with
        | none => exact .inl rfl
        | some halt => cases halt <;> first | exact .inl rfl | exact .inr rfl
  | failed failure =>
      cases failure <;> first | exact ⟨rfl, rfl, rfl, .inl rfl⟩ | exact ⟨rfl, rfl, rfl, .inr rfl⟩

/-- A drain that fails other than by cancellation leaves the engine faulted by
that failure, with all that is pending. -/
theorem afterDrain_failed {d : Drained} {f : Failure} (hd : d.outcome = .failed f)
    (hf : f.isCancellation = false) :
    (e.afterDrain d).result = .error f ∧ (e.afterDrain d).engine.state = .faulted ∧
      (e.afterDrain d).engine.error = some f ∧
      (e.afterDrain d).engine.continuation = d.stack := by
  unfold afterDrain
  rw [hd]
  cases f with
  | cancelled => cases hf
  | _ => exact ⟨rfl, rfl, rfl, rfl⟩

end ScopeFlow.Engine
