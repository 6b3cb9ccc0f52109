import ScopeFlow.Proofs.Drain.Pool
import ScopeFlow.Proofs.Engine.Dispatch
import ScopeFlow.Proofs.Engine.Intact

/-!
# Efforts of an engine

All that an engine executes, from the preparation of a graph on, is one run of
one pool: what a call leaves pending is what the next one starts from, unless
it is thrown away.

* `Engine.callEfforts` and `Engine.efforts` are the efforts of one call and of
  several inputs, also where a call does not return;
* `Engine.Underway.works`: a state that calls lead to is the end of a run that
  started with the first operations, and what faulted it is what an effort
  failed with;
* `Engine.Underway.keeps_up` reads off it what holds of every such state and of
  every effort made from it.
-/

namespace ScopeFlow.Engine

open Operation (pool)

/-- The efforts of a call. -/
def callEfforts (fuel : Nat) (budget : Option Nat) (e : Engine) (w : World) : List Effort :=
  if e.state.canRun then
    Turn.efforts ⟨w, e.executed, false⟩
      (e.setting.turns fuel budget e.continuation ⟨w, e.executed, false⟩)
  else []

/-- The efforts of one input. -/
def inputEfforts (fuel : Nat) (e : Engine) (w : World) : Input → List Effort
  | .start => e.callEfforts fuel none w
  | .step => e.callEfforts fuel (some 1) w
  | .ask _ => []

/-- The efforts of several inputs, as far as the calls return. -/
def efforts (fuel : Nat) : List Input → Engine → World → List Effort
  | [], _, _ => []
  | i :: inputs, e, w =>
    e.inputEfforts fuel w i ++ match e.take fuel w i with
      | none => []
      | some x => efforts fuel inputs x.engine x.world

variable {e : Engine} {w : World} {fuel fuel' : Nat} {call : EngineCall} {budget : Option Nat}
  {i : Input} {inputs inputs' : List Input} {x : Taken} {reply : Reply RunState}
  {g : SharedGraph} {s : ScopeId} {w₀ : World}

/-! ## One call -/

theorem callEfforts_works (fuel : Nat) (budget : Option Nat) (e : Engine) (w : World) :
    ∃ M p, e.setting.Works (pool e.continuation) ⟨w, e.executed, false⟩
      (e.callEfforts fuel budget w) M p := by
  unfold callEfforts
  split
  · obtain ⟨M, hworks, -⟩ := e.setting.drain_works fuel budget e.continuation
      ⟨w, e.executed, false⟩
    exact ⟨M, _, hworks⟩
  · exact ⟨_, _, .idle⟩

theorem setting_afterDrain (e : Engine) (d : Drained) :
    (e.afterDrain d).engine.setting = e.setting := by
  unfold afterDrain
  split <;> rfl

/-- A call that fails leaves behind what its drain failed with. -/
theorem error_afterDrain {d : Drained} {failure : Failure}
    (herror : (e.afterDrain d).engine.error = some failure) :
    d.outcome = .failed failure ∨ e.error = some failure := by
  unfold afterDrain at herror
  split at herror
  · exact .inr herror
  · exact .inr herror
  · next h =>
    rw [h]
    exact .inl (congrArg Outcome.failed (Option.some.inj herror))

/-- A call that returns is a run of what is pending. -/
theorem run_works (hrun : e.run fuel call budget w = some reply) :
    reply.engine.setting = e.setting ∧
      ∃ p, e.setting.Works (pool e.continuation) ⟨w, e.executed, false⟩
          (e.callEfforts fuel budget w) (pool reply.engine.continuation) p ∧
        p.world.heap = reply.world.heap ∧
        ∀ failure, reply.engine.error = some failure → e.error = some failure ∨
          ∃ x ∈ e.callEfforts fuel budget w, ∃ rest w', e.setting.Fails x rest failure w' := by
  cases hc : e.state.canRun with
  | false =>
      rw [run_refused hc] at hrun
      cases hrun
      refine ⟨rfl, ⟨w, e.executed, false⟩, ?_, rfl, fun failure h => .inl h⟩
      rw [callEfforts, hc]
      exact .idle
  | true =>
      rw [Engine.run, if_pos hc, Option.map_eq_some_iff] at hrun
      obtain ⟨d, hdrain, rfl⟩ := hrun
      obtain ⟨M, hworks, hend⟩ := e.setting.drain_works fuel budget e.continuation
        ⟨w, e.executed, false⟩
      obtain ⟨rfl, hreach, hblames⟩ := hend d hdrain
      obtain ⟨hheap, -, -, hpending⟩ := e.afterDrain_frame d
      rw [hreach] at hworks
      rw [callEfforts, if_pos hc]
      have hkept : pool (e.afterDrain d).engine.continuation ≤ pool d.stack := by
        rcases hpending with hpending | hpending
        · rw [hpending]
        · rw [hpending]
          exact Multiset.zero_le _
      refine ⟨e.setting_afterDrain d, d.progress, ?_, hheap.symm, fun failure herror => ?_⟩
      · have hlast : e.setting.Works (pool d.stack) d.progress []
            (pool (e.afterDrain d).engine.continuation) d.progress :=
          .between hkept rfl .idle
        rw [← List.append_nil (Turn.efforts _ _)]
        exact hworks.trans hlast
      · rcases error_afterDrain herror with hfailed | hold
        · rw [hfailed] at hblames
          exact .inr (hblames.failed failure (List.mem_singleton_self _))
        · exact .inl hold

/-- A drain that fails other than by cancellation faults the engine. -/
theorem afterDrain_faulty {d : Drained} (h : d.outcome.Faulty) :
    ∃ failure, d.outcome = .failed failure ∧ (e.afterDrain d).result = .error failure ∧
      (e.afterDrain d).engine.state = .faulted ∧ (e.afterDrain d).engine.error = some failure := by
  obtain ⟨failure, hfailed, hother⟩ := h
  obtain ⟨hresult, hstate, herror, -⟩ := afterDrain_failed hfailed hother
  exact ⟨failure, hfailed, hresult, hstate, herror⟩

/-- An effort that fails other than by cancellation faults the engine, if the
call returns; and with what it or another effort of the call failed with. -/
theorem run_faulted {y : Effort} (hrun : e.run fuel call budget w = some reply)
    (hy : y ∈ e.callEfforts fuel budget w) (hfaults : e.setting.Faults y) :
    ∃ failure, reply.result = .error failure ∧ reply.engine.state = .faulted ∧
      reply.engine.error = some failure ∧
      ∃ z ∈ e.callEfforts fuel budget w, ∃ rest w', e.setting.Fails z rest failure w' := by
  unfold callEfforts at hy ⊢
  unfold Engine.run at hrun
  split at hy
  · next hc =>
    rw [if_pos hc] at hrun ⊢
    obtain ⟨d, hdrain, rfl⟩ := Option.map_eq_some_iff.mp hrun
    obtain ⟨M, -, hend⟩ := e.setting.drain_works fuel budget e.continuation ⟨w, e.executed, false⟩
    obtain ⟨-, -, hblames⟩ := hend d hdrain
    obtain ⟨o, ho, hfaulty⟩ := hblames.faults y hy hfaults
    rw [List.mem_singleton.mp ho] at hfaulty
    obtain ⟨failure, hfailed, hresult, hstate, herror⟩ := e.afterDrain_faulty hfaulty
    rw [hfailed] at hblames
    exact ⟨failure, hresult, hstate, herror, hblames.failed failure (List.mem_singleton_self _)⟩
  · cases hy

/-! ## Several inputs -/

theorem callEfforts_mono (hle : fuel ≤ fuel') :
    e.callEfforts fuel budget w <+: e.callEfforts fuel' budget w := by
  unfold callEfforts
  split
  · exact Turn.efforts_prefix (DrainSetting.turns_mono hle)
  · exact List.prefix_rfl

/-- A call that has returned has no more efforts with more fuel. -/
theorem callEfforts_eq (hle : fuel ≤ fuel') (hrun : e.run fuel call budget w = some reply) :
    e.callEfforts fuel' budget w = e.callEfforts fuel budget w := by
  unfold callEfforts
  cases hc : e.state.canRun with
  | false => rfl
  | true =>
      rw [Engine.run, if_pos hc, Option.map_eq_some_iff] at hrun
      obtain ⟨d, hdrain, -⟩ := hrun
      rw [show e.setting.turns fuel' budget e.continuation ⟨w, e.executed, false⟩ = _ from
        (DrainSetting.drain_mono hle hdrain).2]
      rfl

theorem inputEfforts_mono (hle : fuel ≤ fuel') :
    e.inputEfforts fuel w i <+: e.inputEfforts fuel' w i := by
  cases i with
  | start => exact callEfforts_mono hle
  | step => exact callEfforts_mono hle
  | ask r => exact List.prefix_rfl

theorem inputEfforts_eq (hle : fuel ≤ fuel') (htake : e.take fuel w i = some x) :
    e.inputEfforts fuel' w i = e.inputEfforts fuel w i := by
  cases i with
  | start =>
      obtain ⟨reply, hrun, -⟩ := Option.map_eq_some_iff.mp htake
      exact callEfforts_eq hle hrun
  | step =>
      obtain ⟨reply, hrun, -⟩ := Option.map_eq_some_iff.mp htake
      exact callEfforts_eq hle hrun
  | ask r => rfl

/-- More fuel and further inputs only add to what has been executed. -/
theorem efforts_mono (hle : fuel ≤ fuel') (hmore : inputs <+: inputs') :
    e.efforts fuel inputs w <+: e.efforts fuel' inputs' w := by
  obtain ⟨more, rfl⟩ := hmore
  induction inputs generalizing e w with
  | nil => exact List.nil_prefix
  | cons i inputs ih =>
      rw [List.cons_append, efforts, efforts]
      cases hx : e.take fuel w i with
      | none =>
          dsimp only
          rw [List.append_nil]
          exact (inputEfforts_mono hle).trans (List.prefix_append ..)
      | some x =>
          rw [(take_mono hle hx).1, inputEfforts_eq hle hx]
          exact (List.prefix_append_right_inj _).mpr ih

/-- What is executed during several inputs is one run of what is pending. -/
theorem efforts_works (fuel : Nat) (inputs : List Input) (e : Engine) (w : World) :
    ∃ M p, e.setting.Works (pool e.continuation) ⟨w, e.executed, false⟩
      (e.efforts fuel inputs w) M p := by
  induction inputs generalizing e w with
  | nil => exact ⟨_, _, .idle⟩
  | cons i inputs ih =>
      have hends : ∀ {budget}, ∃ M p, e.setting.Works (pool e.continuation) ⟨w, e.executed, false⟩
          (e.callEfforts fuel budget w ++ []) M p := by
        intro budget
        rw [List.append_nil]
        exact e.callEfforts_works fuel budget w
      have hgoes : ∀ {call budget reply}, e.run fuel call budget w = some reply →
          ∃ M p, e.setting.Works (pool e.continuation) ⟨w, e.executed, false⟩
            (e.callEfforts fuel budget w ++ reply.engine.efforts fuel inputs reply.world) M p := by
        intro call budget reply hrun
        obtain ⟨hsetting, p, hworks, hheap, -⟩ := run_works hrun
        obtain ⟨M, q, hlater⟩ := ih reply.engine reply.world
        rw [hsetting] at hlater
        exact ⟨M, q, hworks.trans (.between le_rfl hheap.symm hlater)⟩
      cases i with
      | start =>
          rw [efforts, take, start]
          cases hrun : e.run fuel .start none w with
          | none => exact hends
          | some reply => exact hgoes hrun
      | step =>
          rw [efforts, take, step]
          cases hrun : e.run fuel .step (some 1) w with
          | none => exact hends
          | some reply => exact hgoes hrun
      | ask r =>
          obtain ⟨M, p, hworks⟩ := ih e (w.request ⟨w.token e.control, some e.control⟩ r)
          exact ⟨M, p, .between le_rfl (w.request_heap _ r) hworks⟩

/-- The engine is seen faulted, by what one of some efforts failed with. -/
def SeesFault (r : DrainSetting) (xs : List Effort) (sight : Sight) : Prop :=
  ∃ failure, sight.result = some (.error failure) ∧ sight.state = .faulted ∧
    sight.error = some failure ∧ ∃ z ∈ xs, ∃ rest w, r.Fails z rest failure w

theorem take_setting (htake : e.take fuel w i = some x) : x.engine.setting = e.setting := by
  cases i with
  | start =>
      obtain ⟨reply, hrun, rfl⟩ := Option.map_eq_some_iff.mp htake
      exact (run_works hrun).1
  | step =>
      obtain ⟨reply, hrun, rfl⟩ := Option.map_eq_some_iff.mp htake
      exact (run_works hrun).1
  | ask r =>
      cases htake
      rfl

theorem take_faulted {y : Effort} (htake : e.take fuel w i = some x)
    (hy : y ∈ e.inputEfforts fuel w i) (hfaults : e.setting.Faults y) :
    SeesFault e.setting (e.inputEfforts fuel w i) x.sight := by
  cases i with
  | start =>
      obtain ⟨reply, hrun, rfl⟩ := Option.map_eq_some_iff.mp htake
      obtain ⟨failure, hresult, hstate, herror, hblamed⟩ := run_faulted hrun hy hfaults
      exact ⟨failure, congrArg some hresult, hstate, herror, hblamed⟩
  | step =>
      obtain ⟨reply, hrun, rfl⟩ := Option.map_eq_some_iff.mp htake
      obtain ⟨failure, hresult, hstate, herror, hblamed⟩ := run_faulted hrun hy hfaults
      exact ⟨failure, congrArg some hresult, hstate, herror, hblamed⟩
  | ask r => cases hy

/-- An effort that fails other than by cancellation is seen as a fault of the
engine, if the calls return. -/
theorem sights_faulted {y : Effort} (hy : y ∈ e.efforts fuel inputs w)
    (hfaults : e.setting.Faults y) {ss : List Sight} (hss : e.sights fuel inputs w = some ss) :
    ∃ sight ∈ ss, SeesFault e.setting (e.efforts fuel inputs w) sight := by
  induction inputs generalizing e w ss with
  | nil => cases hy
  | cons i inputs ih =>
      rw [efforts] at hy ⊢
      rw [sights] at hss
      cases htake : e.take fuel w i with
      | none => simp [htake] at hss
      | some x =>
          simp only [htake] at hy hss ⊢
          obtain ⟨ss, hlater, rfl⟩ := Option.map_eq_some_iff.mp hss
          rcases List.mem_append.mp hy with hy | hy
          · obtain ⟨failure, hresult, hstate, herror, z, hz, hfails⟩ :=
              take_faulted htake hy hfaults
            exact ⟨x.sight, List.mem_cons_self, failure, hresult, hstate, herror, z,
              List.mem_append_left _ hz, hfails⟩
          · rw [← take_setting htake] at hfaults ⊢
            obtain ⟨sight, hmem, failure, hresult, hstate, herror, z, hz, hfails⟩ :=
              ih hy hfaults hlater
            exact ⟨sight, List.mem_cons_of_mem _ hmem, failure, hresult, hstate, herror, z,
              List.mem_append_right _ hz, hfails⟩

/-! ## From preparation on -/

/-- All that has been executed since a graph was prepared is a run of the pool
of the first operations. -/
theorem Underway.works (hu : e.Underway g s w₀ w) : ∃ p₀ xs p,
    p₀.world.heap = (firstOperations g s w₀.heap).2 ∧
      e.setting.Works (pool (firstOperations g s w₀.heap).1) p₀ xs (pool e.continuation) p ∧
      p.world.heap = w.heap ∧
      ∀ failure, e.error = some failure →
        ∃ x ∈ xs, ∃ rest w', e.setting.Fails x rest failure w' := by
  induction hu with
  | prepared hprep =>
      obtain ⟨rfl, rfl⟩ := prepare_ok hprep
      exact ⟨⟨_, 0, false⟩, [], _, (resetControl_frame _ _).1, .idle, rfl, nofun⟩
  | @called e w fuel c x _ hcall ih =>
      obtain ⟨p₀, xs, p, hstart, hworks, hheap, herror⟩ := ih
      obtain ⟨entry, budget, reply, hrun, hengine, hworld⟩ | ⟨hworld, hengine | hengine⟩ :=
        call_cases hcall
      · obtain ⟨hsetting, q, hlater, hq, herror'⟩ := run_works hrun
        have hall := hworks.trans (.between le_rfl hheap.symm hlater)
        rw [hengine, hworld, hsetting]
        refine ⟨p₀, _, q, hstart, hall, hq, fun failure h => ?_⟩
        rcases herror' failure h with hold | ⟨x, hx, hfails⟩
        · obtain ⟨x, hx, hfails⟩ := herror failure hold
          exact ⟨x, List.mem_append_left _ hx, hfails⟩
        · exact ⟨x, List.mem_append_right _ hx, hfails⟩
      · rw [hengine, hworld]
        exact ⟨p₀, xs, p, hstart, hworks, hheap, herror⟩
      · -- What is pending is given up.
        have hnone := hworks.trans (.between (Multiset.zero_le _) rfl (.idle (M := 0) (p := p)))
        rw [List.append_nil] at hnone
        rw [hengine, hworld]
        exact ⟨p₀, xs, p, hstart, hnone, hheap, herror⟩
  | @asked e w w' _ hw ih =>
      obtain ⟨p₀, xs, p, hstart, hworks, hheap, herror⟩ := ih
      exact ⟨p₀, xs, p, hstart, hworks, hheap.trans hw.symm, herror⟩

/-- What every execution within the engine's bounds keeps up, and the first
operations have, holds of every state that calls lead to, of what is pending
there, and of every effort made from there, whether or not its call returns. -/
theorem Underway.keeps_up {Good : Heap → Prop} {Fits : Heap → Context → Prop}
    (hu : e.Underway g s w₀ w) (hr : e.setting.KeepsUp Good Fits)
    (hgood : Good (firstOperations g s w₀.heap).2)
    (hfits : ∀ c ∈ pool (firstOperations g s w₀.heap).1, Fits (firstOperations g s w₀.heap).2 c) :
    (Good w.heap ∧ ∀ c ∈ Operation.contextsOfAll e.continuation, Fits w.heap c) ∧
      (∀ fuel budget, ∀ x ∈ e.callEfforts fuel budget w, x.Keeps Good Fits) ∧
      ∀ failure, e.error = some failure → ∃ x rest w', e.setting.Fails x rest failure w' ∧
        x.Keeps Good Fits := by
  obtain ⟨p₀, xs, p, hstart, hworks, hheap, herror⟩ := hu.works
  rw [← hstart] at hgood hfits
  obtain ⟨hend, hlog⟩ := hworks.keeps hr ⟨hgood, hfits⟩
  rw [hheap] at hend
  refine ⟨⟨hend.good, fun c hc => hend.fits c (Operation.mem_pool.mpr hc)⟩, fun fuel budget => ?_,
    fun failure h => ?_⟩
  · obtain ⟨M, q, hcall⟩ := e.callEfforts_works fuel budget w
    exact (hcall.keeps hr hend).2
  · obtain ⟨x, hx, rest, w', hfails⟩ := herror failure h
    exact ⟨x, rest, w', hfails, hlog x hx⟩

end ScopeFlow.Engine
