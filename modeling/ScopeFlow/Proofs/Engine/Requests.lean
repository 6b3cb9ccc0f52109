import ScopeFlow.Proofs.Engine.Lifecycle
import ScopeFlow.Proofs.Engine.Surfacing
import ScopeFlow.Proofs.Operator.Requests

/-!
# Requests and runs

A request to an engine counts from the next time that a drain takes an
operation off a stack: nothing is executed from then on, and the strongest
request decides how the call ends. A pause alone keeps what is pending, and is
taken back by the call that halts for it; a stop, a cancelled token and an
abort throw it away.

* `Engine.callLooks` lists where a call stands each time it looks for requests;
* `Engine.Heeds` says what a call comes to that has seen one;
* `Engine.Settles` lists what takes a request for a pause back;
* `Engine.requests_heeded`: all of it, for every call and every life.
-/

namespace ScopeFlow

open Operation (contextsOfAll)

namespace Engine

/-- Where a call stands each time it takes an operation off a stack, and looks
whether something has been asked for. -/
def callLooks (fuel : Nat) (budget : Option Nat) (e : Engine) (w : World) : List Progress :=
  if e.state.canRun then e.setting.looks fuel budget e.continuation ⟨w, e.executed, false⟩
  else []

/-- What a call comes to that has seen requests in a world, with contexts left
pending. -/
structure Heeds (e : Engine) (w : World) (left : List Context) (reply : Reply RunState) :
    Prop where
  result : reply.result = .ok reply.engine.state
  aborted : (w.control e.control).abort = true →
    reply.engine.state = .aborted ∧ reply.engine.continuation = [] ∧ reply.world = w
  stopped : (w.control e.control).abort = false →
    (w.control e.control).stop = true ∨ w.isCancelled (w.token e.control) = true →
      reply.engine.state = .stopped ∧ reply.engine.continuation = [] ∧ reply.world = w
  paused : (w.control e.control).abort = false → (w.control e.control).stop = false →
    w.isCancelled (w.token e.control) = false →
      reply.engine.state = .paused ∧ contextsOfAll reply.engine.continuation = left ∧
        reply.world = w.clearPause e.control

/-- A call halts because a pause has been asked for, and nothing stronger. -/
def HaltsForPause (fuel : Nat) (budget : Option Nat) (e : Engine) (w : World) : Prop :=
  ∃ q ∈ e.callLooks fuel budget w, q.world.halt? e.control = some .pause

/-- What takes a request for a pause back that has been made to the engine: a
call that halts for it, or preparing. -/
def Settles (fuel : Nat) (e : Engine) (w : World) : Dealing → Prop
  | .prepare g s => (e.prepare g s w).result = .ok ()
  | .start => e.HaltsForPause fuel none w
  | .step => e.HaltsForPause fuel (some 1) w
  | _ => False

variable {e e' : Engine} {w w' : World} {fuel : Nat} {call : EngineCall} {budget : Option Nat}
  {x : Effort} {d : Drained} {q : Progress} {why : Halt} {c : ControlId} {left : List Context}
  {reply : Reply RunState}

/-! ## One call -/

/-- A drain that halts for a request ends as the strongest one asks. -/
theorem afterDrain_heeds (ho : d.outcome = .ended (some why)) (hstack : d.stack ≠ [])
    (hwhy : d.progress.world.halt? e.control = some why) :
    e.Heeds d.progress.world (contextsOfAll d.stack) (e.afterDrain d) := by
  obtain ⟨outcome, stack, ⟨w, executed, fault⟩⟩ := d
  obtain rfl : outcome = .ended (some why) := ho
  have hwhy : w.halt? e.control = some why := hwhy
  unfold World.halt? at hwhy
  dsimp only at hwhy hstack ⊢
  refine ⟨rfl, fun habort => ?_, fun habort hstop => ?_, fun habort hstop hcancel => ?_⟩
  · rw [if_pos habort] at hwhy
    obtain rfl : Halt.abort = why := Option.some.inj hwhy
    exact ⟨rfl, rfl, rfl⟩
  · rw [if_neg (by simp [habort])] at hwhy
    by_cases hs : (w.control e.control).stop = true
    · rw [if_pos hs] at hwhy
      obtain rfl : Halt.stop = why := Option.some.inj hwhy
      exact ⟨rfl, rfl, rfl⟩
    · have hcancel : w.isCancelled (w.control e.control).token = true := hstop.resolve_left hs
      rw [if_neg hs, if_pos hcancel] at hwhy
      obtain rfl : Halt.cancel = why := Option.some.inj hwhy
      exact ⟨rfl, rfl, rfl⟩
  · rw [if_neg (by simp [habort]), if_neg (by simp [hstop]),
      if_neg (by rw [Bool.not_eq_true]; exact hcancel)] at hwhy
    split at hwhy
    · obtain rfl : Halt.pause = why := Option.some.inj hwhy
      refine ⟨?_, rfl, rfl⟩
      show (if stack.isEmpty = true then RunState.stopped else .paused) = .paused
      rw [if_neg (by simpa using hstack)]
    · cases hwhy

/-- A call that looks while something is asked for, and in which nothing has
failed, ends there and heeds it; what it leaves pending has been kept in line. -/
theorem heeds_of_look
    (hok : ∀ x ∈ e.callEfforts fuel budget w, ∀ rest f w', ¬ e.setting.Fails x rest f w')
    (hq : q ∈ e.callLooks fuel budget w) (hhalt : q.world.halt? e.control ≠ none) :
    ∃ reply left, (∀ call, e.run fuel call budget w = some reply) ∧
      e.setting.Lined (contextsOfAll e.continuation) ⟨w, e.executed, false⟩
        (e.callEfforts fuel budget w) (some (left, q)) ∧
      e.Heeds q.world left reply := by
  unfold callLooks at hq
  split at hq
  · next hc =>
    rw [callEfforts, if_pos hc] at hok ⊢
    obtain ⟨why, hwhy⟩ := Option.ne_none_iff_exists'.mp hhalt
    have hdue : e.setting.halts? q = some why := DrainSetting.halts?_of_halt? hwhy
    obtain ⟨v, hv, rfl, b, hb, hstack, hended⟩ :=
      (e.setting.drain_course fuel budget e.continuation ⟨w, e.executed, false⟩).looked hq hdue
    obtain ⟨d, hd, rfl⟩ := Option.map_eq_some_iff.mp hv
    obtain rfl := List.mem_singleton.mp hb
    obtain ⟨hunfailed, hline⟩ := DrainSetting.drain_unfailed hd hok
    have hended : d.outcome = .ended (some why) := by
      refine hended.resolve_right ?_
      rintro ⟨f, hfailed⟩
      exact hunfailed f hfailed
    refine ⟨e.afterDrain d, _, fun call => ?_, hline, afterDrain_heeds hended hstack hwhy⟩
    rw [Engine.run, if_pos hc]
    exact Option.map_eq_some_iff.mpr ⟨d, hd, rfl⟩
  · cases hq

/-- A call made while something is asked for halts at once and heeds it. -/
theorem run_halted (hc : e.state.canRun = true) (hpending : e.continuation ≠ [])
    (hwhy : w.halt? e.control = some why) (fuel : Nat) (call : EngineCall) (budget : Option Nat) :
    e.callEfforts fuel budget w = [] ∧ ∃ d, e.run (fuel + 1) call budget w = some (e.afterDrain d) ∧
      d.progress = ⟨w, e.executed, false⟩ ∧
      e.Heeds w (contextsOfAll e.continuation) (e.afterDrain d) := by
  obtain ⟨op, ops, hcons⟩ := List.exists_cons_of_ne_nil hpending
  have hdue : e.setting.halts? ⟨w, e.executed, false⟩ = some why :=
    DrainSetting.halts?_of_halt? hwhy
  have hmove : e.setting.move budget op ⟨w, e.executed, false⟩ = .halt why :=
    DrainSetting.move_eq_halt.mpr hdue
  let d : Drained := ⟨.ended (some why), op :: ops, ⟨w, e.executed, false⟩⟩
  have hheeds : e.Heeds d.progress.world (contextsOfAll d.stack) (e.afterDrain d) :=
    afterDrain_heeds rfl nofun hwhy
  rw [callEfforts, Engine.run, if_pos hc, if_pos hc, hcons]
  refine ⟨?_, d, Option.map_eq_some_iff.mpr ⟨d, DrainSetting.drain_halt hmove fuel, rfl⟩, rfl,
    hheeds⟩
  cases fuel with
  | zero => rfl
  | succ fuel => rw [DrainSetting.turns_halt hmove]; rfl

/-- A drain that has spent its budget pauses, if anything is left. -/
theorem afterDrain_spent (ho : d.outcome = .ended (some .budget)) (hstack : d.stack ≠ []) :
    e.afterDrain d = ⟨.ok .paused, { e with
        state := .paused, continuation := d.stack, executed := d.progress.executed,
        hasRun := true }, d.progress.world,
      [.entered .running, .timePassed, .entered .paused]⟩ := by
  obtain ⟨outcome, stack, p⟩ := d
  obtain rfl : outcome = .ended (some .budget) := ho
  cases stack with
  | nil => exact absurd rfl hstack
  | cons op ops => rfl

/-- Only a drain that halts for a pause takes the request back. -/
theorem pause_afterDrain (h : (d.progress.world.control c).pause = true) :
    ((e.afterDrain d).world.control c).pause = true ∨
      c = e.control ∧ d.outcome = .ended (some .pause) := by
  unfold afterDrain
  split
  · next halt ho =>
    by_cases hpause : halt = some .pause
    · by_cases hc : c = e.control
      · exact .inr ⟨hc, by rw [ho, hpause]⟩
      · refine .inl ?_
        dsimp only
        rwa [if_pos hpause, World.clearPause,
          World.control_updateControl_of_ne _ fun heq => hc heq.symm]
    · refine .inl ?_
      dsimp only
      rwa [if_neg hpause]
  · exact .inl h
  · exact .inl h

theorem haltsForPause_of_ended (hc : e.state.canRun = true)
    (hd : e.setting.drain fuel budget e.continuation ⟨w, e.executed, false⟩ = some d)
    (ho : d.outcome = .ended (some .pause)) : e.HaltsForPause fuel budget w := by
  obtain ⟨hwhy, hlook⟩ :=
    (DrainSetting.drain_asked rfl hd ho).resolve_left fun h => nomatch h.1
  refine ⟨d.progress, ?_, hwhy⟩
  rw [callLooks, if_pos hc]
  exact hlook

/-- A request for a pause outlasts every call that does not halt for it. -/
theorem run_keeps_pause (hpause : (w.control c).pause = true)
    (hrun : e.run fuel call budget w = some reply) :
    (reply.world.control c).pause = true ∨ c = e.control ∧ e.HaltsForPause fuel budget w := by
  cases hc : e.state.canRun with
  | false =>
      rw [run_refused hc] at hrun
      cases hrun
      exact .inl hpause
  | true =>
      rw [Engine.run, if_pos hc, Option.map_eq_some_iff] at hrun
      obtain ⟨d, hd, rfl⟩ := hrun
      have hbears : d.Bears (fun w => (w.control c).pause = true) (fun _ _ => True) w :=
        DrainSetting.drain_bears (fun w ctx pending hw _ =>
          ⟨⟨DrainSetting.execute_upholds (fun t => World.upholds_pause _ c) ctx pending w hw,
            fun _ h => h⟩, fun _ _ _ _ => trivial⟩) hd hpause fun _ _ => trivial
      rcases e.pause_afterDrain hbears.world.good with hkept | ⟨hcontrol, ho⟩
      · exact .inl hkept
      · exact .inr ⟨hcontrol, haltsForPause_of_ended hc hd ho⟩

/-- So does one that is made in the call itself. -/
theorem run_keeps_pause_of_mem (hx : x ∈ e.callEfforts fuel budget w)
    (hpause : (x.progress.world.control e.control).pause = true)
    (hrun : e.run fuel call budget w = some reply) :
    (reply.world.control e.control).pause = true ∨ e.HaltsForPause fuel budget w := by
  have hc := canRun_of_mem hx
  have hdue : e.setting.halts? x.progress ≠ none := fun hnone =>
    World.halt?_ne_none hpause (DrainSetting.halts?_eq_none_iff.mp hnone).1
  -- The request is the last thing that happens in the call.
  obtain ⟨-, -, fuel', d', -, hd', hprogress, -⟩ := returns_of_due hx hdue
  rw [Engine.run, if_pos hc, Option.map_eq_some_iff] at hrun
  obtain ⟨d, hd, rfl⟩ := hrun
  obtain rfl := DrainSetting.drain_unique hd hd'
  rw [← hprogress] at hpause
  exact (e.pause_afterDrain hpause).imp_right fun h => haltsForPause_of_ended hc hd h.2

/-! ## Whole lives -/

/-- The control of something asked for has been made. -/
theorem index_lt_of_pause (hpause : (w.control c).pause = true) : c.index < w.controls.size := by
  by_contra hle
  rw [World.control_of_le (Nat.not_lt.mp hle)] at hpause
  cases hpause

theorem copy_keeps_pause (σ : Session) (hpause : (w.control c).pause = true) :
    ((e.copy σ w).2.2.control c).pause = true := by
  have hlt : c.index < w.controls.size := index_lt_of_pause hpause
  have hspec := World.detachedControl_spec
    { w with heap := ((e.copyState).run ⟨σ, w.heap⟩).2.heap } e.control
  have hkept : (e.copy σ w).2.2.control c = w.control c := hspec.control hlt
  rw [hkept, hpause]

theorem prepare_keeps_pause {g : SharedGraph} {s : ScopeId} (hpause : (w.control c).pause = true) :
    ((e.prepare g s w).world.control c).pause = true ∨
      c = e.control ∧ (e.prepare g s w).result = .ok () := by
  by_cases hs : e.state = .running
  · rw [prepare, if_pos hs]
    exact .inl hpause
  · cases hg : g.graph.validate w.heap with
    | error f =>
        rw [prepare_invalid s hs hg]
        exact .inl hpause
    | ok =>
        by_cases hc : c = e.control
        · rw [prepare, if_neg hs, hg]
          exact .inr ⟨hc, rfl⟩
        · refine .inl ?_
          rw [prepare, if_neg hs, hg]
          show ((World.resetControl { w with heap := (firstOperations g s w.heap).2 }
            e.control).control c).pause = true
          rwa [World.control_resetControl_of_ne fun heq => hc heq.symm]

/-- A request for a pause outlasts every dealing that does not settle it. -/
theorem deal_keeps_pause {dealing : Dealing} {r : Reply (Option RunState)}
    (hother : ∀ f, dealing = .meanwhile f →
      ∀ w, (w.control c).pause = true → ((f w).control c).pause = true)
    (hpause : (w.control c).pause = true) (hdeal : e.deal fuel w dealing = some r) :
    (r.world.control c).pause = true ∨ c = e.control ∧ e.Settles fuel w dealing := by
  cases dealing with
  | prepare g s =>
      cases hdeal
      exact prepare_keeps_pause hpause
  | start =>
      obtain ⟨reply, hrun, rfl⟩ := Option.map_eq_some_iff.mp hdeal
      exact run_keeps_pause hpause hrun
  | step =>
      obtain ⟨reply, hrun, rfl⟩ := Option.map_eq_some_iff.mp hdeal
      exact run_keeps_pause hpause hrun
  | stop =>
      cases hdeal
      have hworld : (e.stop w).world = w := by
        unfold stop
        split <;> rfl
      refine .inl ?_
      show ((e.stop w).world.control c).pause = true
      rw [hworld, hpause]
  | copy σ =>
      cases hdeal
      exact .inl (copy_keeps_pause σ hpause)
  | become σ =>
      cases hdeal
      exact .inl (copy_keeps_pause σ hpause)
  | ask d r =>
      cases hdeal
      exact .inl (World.pause_request _ r hpause)
  | cancel t =>
      cases hdeal
      exact .inl hpause
  | watch t =>
      cases hdeal
      have hkept : ((e.withToken t w).2.control c) = w.control c :=
        World.control_push (index_lt_of_pause hpause)
      refine .inl ?_
      show ((e.withToken t w).2.control c).pause = true
      rw [hkept, hpause]
  | meanwhile f =>
      cases hdeal
      exact .inl (hother f rfl w hpause)

/-- A request for a pause outlasts every life, up to the first dealing that
settles it. -/
theorem live_keeps_pause (ds : List Dealing) {log : List Moment}
    (hother : ∀ f, .meanwhile f ∈ ds →
      ∀ w, (w.control c).pause = true → ((f w).control c).pause = true)
    (hpause : (w.control c).pause = true) (hlive : e.live fuel ds w = some (log, e', w')) :
    (w'.control c).pause = true ∨ ∃ before d after log₁ e₁ w₁, ds = before ++ d :: after ∧
      e.live fuel before w = some (log₁, e₁, w₁) ∧ (w₁.control c).pause = true ∧
      c = e₁.control ∧ e₁.Settles fuel w₁ d := by
  induction ds generalizing e w log with
  | nil =>
      cases hlive
      exact .inl hpause
  | cons d ds ih =>
      cases hdeal : e.deal fuel w d with
      | none => simp [live, hdeal] at hlive
      | some r =>
          simp only [live, hdeal, Option.map_eq_some_iff, Prod.mk.injEq] at hlive
          obtain ⟨⟨log₂, e₂, w₂⟩, hrest, -, rfl, rfl⟩ := hlive
          rcases deal_keeps_pause (fun f hf => hother f (hf ▸ List.mem_cons_self)) hpause hdeal with
            hkept | ⟨hcontrol, hsettles⟩
          · refine (ih (fun f hf => hother f (List.mem_cons_of_mem d hf)) hkept hrest).imp_right ?_
            rintro ⟨before, d', after, log₁, e₁, w₁, rfl, hbefore, hpause₁, hcontrol, hsettles⟩
            have hlive : e.live fuel (d :: before) w =
                some (⟨d, r.result, r.events⟩ :: log₁, e₁, w₁) := by
              rw [live, hdeal]
              exact Option.map_eq_some_iff.mpr ⟨_, hbefore, rfl⟩
            exact ⟨d :: before, d', after, _, e₁, w₁, rfl, hlive, hpause₁, hcontrol, hsettles⟩
          · exact .inr ⟨[], d, ds, [], e, w, rfl, rfl, hpause, hcontrol, hsettles⟩

/-- **Requests halt runs.** No call executes anything while something is asked
for. One that looks while something is asked for, in which nothing has failed,
returns and heeds what is asked: the world is as the last operator executed has
left it, apart from a request for a pause that is taken back, and what stays
pending stays in line. A request for a pause that has been made before a call,
or by an operator in it, is still there after it, unless the call halts for it;
and it outlasts any life in which nothing takes it back. -/
theorem requests_heeded (e : Engine) (w : World) (call : EngineCall) (budget : Option Nat) :
    (∀ fuel, ∀ x ∈ e.callEfforts fuel budget w, x.before.world.halt? e.control = none) ∧
    (∀ fuel, (∀ x ∈ e.callEfforts fuel budget w, ∀ rest f w', ¬ e.setting.Fails x rest f w') →
      ∀ q ∈ e.callLooks fuel budget w, q.world.halt? e.control ≠ none →
        q.world = ((e.callEfforts fuel budget w).getLast?.map fun x => x.progress.world).getD w ∧
        ∃ reply left, e.run fuel call budget w = some reply ∧
          e.setting.Lined (contextsOfAll e.continuation) ⟨w, e.executed, false⟩
            (e.callEfforts fuel budget w) (some (left, q)) ∧
          e.Heeds q.world left reply) ∧
    (∀ fuel reply, e.run fuel call budget w = some reply →
      (w.control e.control).pause = true ∨ (∃ x ∈ e.callEfforts fuel budget w,
        (x.progress.world.control e.control).pause = true) →
      (reply.world.control e.control).pause = true ∨ e.HaltsForPause fuel budget w) ∧
    ∀ c fuel ds log e' w', (∀ f, .meanwhile f ∈ ds →
        ∀ w, (w.control c).pause = true → ((f w).control c).pause = true) →
      (w.control c).pause = true → e.live fuel ds w = some (log, e', w') →
        (w'.control c).pause = true ∨ ∃ before d after log₁ e₁ w₁, ds = before ++ d :: after ∧
          e.live fuel before w = some (log₁, e₁, w₁) ∧ (w₁.control c).pause = true ∧
          c = e₁.control ∧ e₁.Settles fuel w₁ d := by
  refine ⟨fun fuel x hx => ?_, fun fuel hok q hq hhalt => ?_, fun fuel reply hrun hasked => ?_,
    fun c fuel ds log e' w' hother hpause hlive => live_keeps_pause ds hother hpause hlive⟩
  · exact (DrainSetting.halts?_eq_none_iff.mp (unhalted_of_mem hx)).1
  · obtain ⟨reply, left, hrun, hline, hheeds⟩ := heeds_of_look hok hq hhalt
    refine ⟨?_, reply, left, hrun call, hline, hheeds⟩
    rw [← hline.progress_eq]
    cases (e.callEfforts fuel budget w).getLast? <;> rfl
  · rcases hasked with hpause | ⟨x, hx, hpause⟩
    · exact (run_keeps_pause hpause hrun).imp_right And.right
    · exact run_keeps_pause_of_mem hx hpause hrun

end Engine

namespace Sample

/-- A graph of two operators: one asks for a pause, one does nothing. -/
def pausingGraph : SharedGraph :=
  ⟨⟨0⟩, ⟨"Pauses", .empty, #[⟨"Pausing", .empty, none, .leaf (.request .pause .done)⟩,
    ⟨"Idle", .empty, none, .empty⟩], some ⟨0⟩⟩⟩

/-- An engine about to drain two branches, of which the first asks for a pause. -/
def pausingEngine : Engine :=
  { Engine.ofConfig .standard ⟨0⟩ with
    state := .ready
    continuation := [.parallel [single pausingGraph 1 0,
      .sequence [.parallel [single pausingGraph 2 1, single pausingGraph 3 1]]],
      single pausingGraph 4 1] }

/-- A world with the control of that engine. -/
def undisturbed : World := World.empty.newControl.2

/-- One operator is executed, then the start pauses with the others left in
order. A pause asked for before a stop and a copy outlasts both. -/
theorem requests_heeded_pausing :
    (∃ reply, pausingEngine.start 9 undisturbed = some reply ∧ reply.engine.state = .paused ∧
      (contextsOfAll reply.engine.continuation).map Context.operatorName =
        ["Idle", "Idle", "Idle"] ∧
      reply.world = (undisturbed.pause ⟨0⟩).clearPause ⟨0⟩) ∧
    ∃ log e w, pausingEngine.live 9 [.stop, .copy .empty, .meanwhile id] (undisturbed.pause ⟨0⟩) =
      some (log, e, w) ∧ (w.control ⟨0⟩).pause = true := by
  refine ⟨?_, ?_⟩
  · obtain ⟨-, hheeds, -⟩ := Engine.requests_heeded pausingEngine undisturbed .start none
    have hone : ∃ x, pausingEngine.callEfforts 9 none undisturbed = [x] ∧ x.stack = [] ∧
        pausingEngine.setting.Answers x [] none (undisturbed.pause ⟨0⟩) := ⟨_, rfl, rfl, rfl, rfl⟩
    obtain ⟨x, hone, hstack, hanswers⟩ := hone
    have hlook : ∃ q ∈ pausingEngine.callLooks 9 none undisturbed,
        q.world.halt? pausingEngine.control ≠ none ∧ q.world = undisturbed.pause ⟨0⟩ :=
      ⟨_, List.mem_cons_of_mem _ (List.mem_cons_of_mem _ List.mem_cons_self), nofun, rfl⟩
    obtain ⟨q, hq, hhalt, hworld⟩ := hlook
    have hok : ∀ y ∈ pausingEngine.callEfforts 9 none undisturbed, ∀ rest f w',
        ¬ pausingEngine.setting.Fails y rest f w' := by
      intro y hy rest f w'
      rw [hone, List.mem_singleton] at hy
      rw [hy]
      exact hanswers.not_fails
    -- The one effort there is answers, so the call comes back with what it had left.
    obtain ⟨-, reply, left, hrun, hline, hheeds⟩ := hheeds 9 hok q hq hhalt
    obtain ⟨hstate, hleft, hafter⟩ := hheeds.paused (by rw [hworld]; rfl) (by rw [hworld]; rfl)
      (by rw [hworld]; rfl)
    rw [hone] at hline
    obtain ⟨later, hpending, -, ⟨rest, next, w', hanswers', hidle⟩ | ⟨hnone, -⟩⟩ := hline.uncons
    · have hnext : next.toList ++ rest = [] := by
        rw [← hstack]
        exact (congrArg Turn.stack hanswers'.turn).symm
      obtain ⟨rfl, -⟩ := Prod.mk.inj (Option.some.inj hidle.of_nil)
      refine ⟨reply, hrun, hstate, ?_, by rw [hafter, hworld]; rfl⟩
      have hlater : later = (contextsOfAll pausingEngine.continuation).tail := by
        rw [hpending]
        rfl
      rw [hleft, (List.append_eq_nil_iff.mp hnext).1, hlater]
      rfl
    · cases hnone
  · obtain ⟨-, -, -, houtlasts⟩ :=
      Engine.requests_heeded pausingEngine (undisturbed.pause ⟨0⟩) .start none
    have hlive : ∃ log e w, pausingEngine.live 9 [.stop, .copy .empty, .meanwhile id]
        (undisturbed.pause ⟨0⟩) = some (log, e, w) := ⟨_, _, _, rfl⟩
    obtain ⟨log, e, w, hlive⟩ := hlive
    refine ⟨log, e, w, hlive, (houtlasts ⟨0⟩ 9 _ log e w ?_ rfl hlive).resolve_right ?_⟩
    · intro f hf w hpause
      obtain rfl : f = id := by simpa using hf
      exact hpause
    · -- None of these dealings takes a request back.
      rintro ⟨before, d, after, log₁, e₁, w₁, hsplit, -, -, -, hsettles⟩
      have hmem : d ∈ [Dealing.stop, .copy .empty, .meanwhile id] := by
        rw [hsplit]
        simp
      simp only [List.mem_cons, List.not_mem_nil, or_false] at hmem
      rcases hmem with rfl | rfl | rfl <;> exact hsettles

end Sample

end ScopeFlow
