import ScopeFlow.Proofs.Engine.Requests

/-!
# Stops made by operators

An operator can ask for a stop, or an abort, of the very run that executes it.
Nothing is executed after it. A start then throws away what is pending; a step
looks at its budget before it looks at the requests, so it answers a pause if
anything is pending, and leaves throwing it away to the next call.

* `Engine.Discards`: a call has ended the run for good;
* `Engine.stops_discard`: what becomes of an operator that asks for either.
-/

namespace ScopeFlow

theorem World.AskedToEnd.halts {w : World} {c : ControlId} (h : w.AskedToEnd c) :
    ∃ why, w.halt? c = some why :=
  Option.ne_none_iff_exists'.mp (halt?_ne_none_iff.mpr (h.imp_right .inl))

namespace Engine

/-- A call has ended the run for good, with nothing left pending and the world
as it was. -/
structure Discards (w : World) (reply : Reply RunState) : Prop where
  result : reply.result = .ok reply.engine.state
  state : reply.engine.state = .stopped ∨ reply.engine.state = .aborted
  pending : reply.engine.continuation = []
  world : reply.world = w

variable {e : Engine} {w w' : World} {fuel : Nat} {budget : Option Nat} {x : Effort}
  {d : Drained} {rest : List Operation} {next : Option Operation} {left : List Context}
  {reply : Reply RunState}

theorem Heeds.discards (h : e.Heeds w left reply) (hasked : w.AskedToEnd e.control) :
    Discards w reply := by
  cases habort : (w.control e.control).abort with
  | true =>
      obtain ⟨hstate, hpending, hworld⟩ := h.aborted habort
      exact ⟨h.result, .inr hstate, hpending, hworld⟩
  | false =>
      have hstop : (w.control e.control).stop = true :=
        hasked.resolve_left (by simp [habort])
      obtain ⟨hstate, hpending, hworld⟩ := h.stopped habort (.inl hstop)
      exact ⟨h.result, .inl hstate, hpending, hworld⟩

/-- A drain that has not been halted, and has nothing left, ends the run. -/
theorem afterDrain_dry (ho : d.outcome = .ended none ∨ d.outcome = .ended (some .budget))
    (hstack : d.stack = []) : Discards d.progress.world (e.afterDrain d) := by
  unfold afterDrain
  rcases ho with ho | ho <;> rw [ho, hstack] <;> exact ⟨rfl, .inl rfl, rfl, rfl⟩

/-- So does one that fails by cancellation. -/
theorem afterDrain_cancelled (ho : d.outcome = .failed .cancelled) :
    Discards d.progress.world (e.afterDrain d) := by
  unfold afterDrain
  rw [ho]
  refine ⟨rfl, ?_, rfl, rfl⟩
  dsimp only
  split
  · exact .inr rfl
  · exact .inl rfl

/-- In a start, an operator that asks for either ends the run, even where a
branch before it has failed by cancellation. -/
theorem start_discards (hx : x ∈ e.callEfforts fuel none w)
    (hanswers : e.setting.Answers x rest next w') (hasked : w'.AskedToEnd e.control)
    (hd : e.setting.drain fuel none e.continuation ⟨w, e.executed, false⟩ = some d)
    (hprogress : d.progress = x.progress) : Discards w' (e.afterDrain d) := by
  have hc := canRun_of_mem hx
  have hworld : d.progress.world = w' := by
    rw [hprogress]
    exact congrArg (fun t => t.progress.world) hanswers.turn
  rw [← hworld] at hasked ⊢
  obtain ⟨why, hwhy⟩ := hasked.halts
  have hdue : e.setting.halts? d.progress = some why := DrainSetting.halts?_of_halt? hwhy
  cases ho : d.outcome with
  | ended halt =>
      cases halt with
      | none => exact afterDrain_dry (.inl ho) ((DrainSetting.stack_eq_nil_iff fuel hd).mpr ho)
      | some why' =>
          have hstack : d.stack ≠ [] := by
            rw [Ne, DrainSetting.stack_eq_nil_iff fuel hd, ho]
            simp
          obtain ⟨hwhy', -⟩ := (DrainSetting.drain_halted hd ho).resolve_left fun h => h.2 rfl
          obtain rfl := Option.some.inj (hdue.symm.trans hwhy')
          exact (afterDrain_heeds ho hstack hwhy).discards hasked
  | failed f =>
      cases hf : f.isCancellation with
      | true =>
          have hcancelled : f = .cancelled := by
            cases f <;> first | rfl | cases hf
          exact afterDrain_cancelled (hcancelled ▸ ho)
      | false =>
          -- That failure would have been the last effort, in the place of this one.
          obtain ⟨y, hy, rest', w'', hfails⟩ := DrainSetting.drain_failed hd ho
          have hy' : y ∈ e.callEfforts fuel none w := by
            rw [callEfforts, if_pos hc]
            exact hy
          obtain rfl := eq_of_due hx hy' (by simp [← hprogress, hdue]) (hfails.due hf)
          exact absurd hfails hanswers.not_fails

/-- **What operators ask for counts.** An operator that asks for a stop or an
abort, and answers, is the last one of its call, and the call returns. A start
ends the run for good, and so does a step that leaves nothing pending. Any
other step answers a pause, with what is pending kept; the next call executes
nothing and ends the run. -/
theorem stops_discard (hx : x ∈ e.callEfforts fuel budget w)
    (hanswers : e.setting.Answers x rest next w') (hasked : w'.AskedToEnd e.control)
    (hbudget : budget = none ∨ budget = some 1) :
    (∃ xs, ∀ fuel', fuel ≤ fuel' → e.callEfforts fuel' budget w = xs ++ [x]) ∧
    ∃ fuel' reply, (∀ call, e.run fuel' call budget w = some reply) ∧
      (budget = none ∨ x.stack = [] → Discards w' reply) ∧
      (budget ≠ none → x.stack ≠ [] → reply.result = .ok .paused ∧
        reply.engine.state = .paused ∧ reply.engine.continuation = x.stack ∧ reply.world = w' ∧
        ∀ fuel call budget', reply.engine.callEfforts fuel budget' reply.world = [] ∧
          ∃ later, reply.engine.run (fuel + 1) call budget' reply.world = some later ∧
            Discards w' later) := by
  have hworld : x.progress.world = w' := congrArg (fun t => t.progress.world) hanswers.turn
  obtain ⟨why, hwhy⟩ := hasked.halts
  have hdue : e.setting.halts? x.progress = some why :=
    DrainSetting.halts?_of_halt? (hworld.symm ▸ hwhy)
  obtain ⟨xs, hlast, fuel', d, hle, hd, hprogress, hrun⟩ := returns_of_due hx (by simp [hdue])
  have hx' : x ∈ e.callEfforts fuel' budget w := by
    rw [hlast fuel' hle]
    exact List.mem_append_right _ (List.mem_singleton_self _)
  refine ⟨⟨xs, hlast⟩, fuel', e.afterDrain d, hrun, ?_⟩
  rcases hbudget with rfl | rfl
  · exact ⟨fun _ => start_discards hx' hanswers hasked hd hprogress, fun h => absurd rfl h⟩
  · have hmem := hx'
    rw [callEfforts, if_pos (canRun_of_mem hx)] at hmem
    -- The budget ends a step before it looks at what has been asked for.
    obtain ⟨ho, hstack⟩ := DrainSetting.drain_step hd hmem hanswers
    rw [← hprogress] at hworld
    refine ⟨fun h => ?_, fun _ hleft => ?_⟩
    · rw [← hworld]
      exact afterDrain_dry (.inr ho) (hstack.trans (h.resolve_left (Option.some_ne_none 1)))
    · rw [← hstack] at hleft ⊢
      rw [afterDrain_spent ho hleft, hworld]
      refine ⟨rfl, rfl, rfl, rfl, fun fuel call budget' => ?_⟩
      obtain ⟨hnone, later, hlater, -, hheeds⟩ := run_halted (e := { e with
        state := .paused, continuation := d.stack, executed := d.progress.executed,
        hasRun := true }) rfl hleft hwhy fuel call budget'
      exact ⟨hnone, _, hlater, hheeds.discards hasked⟩

end Engine

namespace Sample

/-- A graph of two operators: one asks for a stop, one does nothing. -/
def stoppingGraph : SharedGraph :=
  ⟨⟨0⟩, ⟨"Stops", .empty, #[⟨"Stopping", .empty, some ⟨1⟩, .leaf (.request .stop .done)⟩,
    ⟨"Idle", .empty, none, .empty⟩], some ⟨0⟩⟩⟩

/-- A start executes the operator that asks for a stop, and is over. -/
theorem stops_discard_stopping :
    ∃ e w events reply, (Engine.ofConfig .standard ⟨0⟩).prepare stoppingGraph ⟨0⟩
        loneScope.newControl.2 = ⟨.ok (), e, w, events⟩ ∧
      (e.callEfforts 9 none w).map (fun x => x.ctx.operatorName) = ["Stopping"] ∧
      (∃ fuel, e.start fuel w = some reply) ∧ reply.engine.continuation = [] ∧
      (reply.engine.state = .stopped ∨ reply.engine.state = .aborted) := by
  have hone : ∃ e w events x next w', (Engine.ofConfig .standard ⟨0⟩).prepare stoppingGraph ⟨0⟩
      loneScope.newControl.2 = ⟨.ok (), e, w, events⟩ ∧ e.callEfforts 9 none w = [x] ∧
        x.ctx.operatorName = "Stopping" ∧ e.setting.Answers x [] next w' ∧
        w'.AskedToEnd e.control := ⟨_, _, _, _, _, _, rfl, rfl, rfl, ⟨rfl, rfl⟩, .inr rfl⟩
  obtain ⟨e, w, events, x, next, w', hprep, hone, hname, hanswers, hasked⟩ := hone
  have hx : x ∈ e.callEfforts 9 none w := by
    rw [hone]
    exact List.mem_singleton_self x
  obtain ⟨-, fuel, reply, hrun, hdiscards, -⟩ :=
    Engine.stops_discard hx hanswers hasked (.inl rfl)
  obtain ⟨-, hstate, hpending, -⟩ := hdiscards (.inl rfl)
  exact ⟨e, w, events, reply, hprep, by rw [hone]; exact congrArg (fun n => [n]) hname,
    ⟨fuel, hrun .start⟩, hpending, hstate⟩

/-- A step executes it as well, and pauses with the other operator pending. -/
theorem stopping_step_pauses :
    ∃ e w events x next w' reply, (Engine.ofConfig .standard ⟨0⟩).prepare stoppingGraph ⟨0⟩
        loneScope.newControl.2 = ⟨.ok (), e, w, events⟩ ∧ e.callEfforts 9 (some 1) w = [x] ∧
      e.setting.Answers x [] next w' ∧ w'.AskedToEnd e.control ∧ e.step 9 w = some reply ∧
      reply.engine.state = .paused ∧ reply.engine.continuation ≠ [] :=
  ⟨_, _, _, _, _, _, _, rfl, rfl, ⟨rfl, rfl⟩, .inr rfl, rfl, rfl, nofun⟩

end Sample

end ScopeFlow
