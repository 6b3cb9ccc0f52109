import ScopeFlow.Proofs.Drain.Courses
import ScopeFlow.Proofs.Engine.Efforts

/-!
# How failures surface

An operator that fails ends the call that executes it, through however many
collections of branches: the branches still to come execute nothing, and what
the call answers is that failure. A failure by cancellation is the exception:
it leaves the branches after it to their own, and gives way to any other.

* `Engine.returns_of_due`: once a halt is due, nothing more is executed, and the
  call returns;
* `DrainSetting.outcome_ne_fault`: that an operator has failed is no halt of a
  whole drain, only of branches inside it;
* `Engine.run_surfaces`: what becomes of an effort that fails.
-/

namespace ScopeFlow

open Operation (contextsOfAll)

namespace DrainSetting

variable {r : DrainSetting} {fuel : Nat} {budget : Option Nat} {stack rest rest' : List Operation}
  {p : Progress} {x : Effort} {e e' : Failure} {w w' : World} {d : Drained}

theorem fault_of_halts? (h : r.halts? p = some .fault) : p.fault = true :=
  ((halts?_eq_some_iff.mp h).resolve_left World.halt?_ne.1).2.1

/-- Any other halt is due because it has been asked for. -/
theorem halt?_of_halts? {why : Halt} (h : r.halts? p = some why) (hwhy : why ≠ .fault) :
    p.world.halt? r.control = some why :=
  (halts?_eq_some_iff.mp h).resolve_right fun hfault => hwhy hfault.2.2

/-- After a failure other than by cancellation, a halt is due. -/
theorem Fails.due (hx : r.Fails x rest e w) (he : e.isCancellation = false) :
    r.halts? x.progress ≠ none := by
  intro hnone
  have hprogress : x.progress = x.before.fall e w := congrArg Turn.progress hx.turn
  have hfault := (halts?_eq_none_iff.mp hnone).2
  rw [hprogress, Progress.fall, he] at hfault
  simp at hfault

/-- The failure of an operator halts branches, but never a whole drain: that
one fails as well. -/
theorem outcome_ne_fault (hp : p.fault = false) (hd : r.drain fuel budget stack p = some d) :
    d.outcome ≠ .ended (some .fault) := by
  intro hended
  obtain ⟨M, hworks, hend⟩ := r.drain_works fuel budget stack p
  obtain ⟨-, hreach, hblames⟩ := hend d hd
  have hdue : r.halts? d.progress = some .fault :=
    ((drain_halted hd hended).resolve_left fun h => nomatch h.1).1
  have hfault := fault_of_halts? hdue
  rcases List.eq_nil_or_concat (r.turns fuel budget stack p) with hnil | ⟨ts, t, hturns⟩
  · rw [hnil] at hreach
    rw [← hreach, show Turn.reach p [] = p from rfl, hp] at hfault
    cases hfault
  · -- The last effort has been made without a fault, so it has failed itself.
    rw [List.concat_eq_append] at hturns
    have hprogress : t.progress = d.progress := by
      rw [← hreach, hturns, Turn.reach_append]
      rfl
    have hmem : (⟨t, Turn.reach p ts⟩ : Effort) ∈ Turn.efforts p (r.turns fuel budget stack p) := by
      rw [hturns, Turn.efforts_append]
      exact List.mem_append_right _ (List.mem_singleton_self _)
    have hbefore :=
      (halts?_eq_none_iff.mp ((r.drain_course fuel budget stack p).unhalted _ hmem)).2
    rw [← hprogress] at hfault
    rcases hworks.mem hmem with ⟨rest, next, w, hanswers⟩ | ⟨rest, e, w, hfails⟩
    · have hadvance : t.progress = (Turn.reach p ts).advance w :=
        congrArg Turn.progress hanswers.turn
      rw [hadvance, Progress.advance, hbefore] at hfault
      cases hfault
    · have hfall : t.progress = (Turn.reach p ts).fall e w := congrArg Turn.progress hfails.turn
      rw [hfall, Progress.fall, hbefore, Bool.false_or, Bool.not_eq_true'] at hfault
      obtain ⟨o, ho, e', he', -⟩ := hblames.faults _ hmem ⟨rest, e, w, hfails, hfault⟩
      rw [List.mem_singleton.mp ho, hended] at he'
      cases he'

/-- So a drain that halts has spent its budget, or has looked when it was asked
to halt. -/
theorem drain_asked {why : Halt} (hp : p.fault = false)
    (hd : r.drain fuel budget stack p = some d) (ho : d.outcome = .ended (some why)) :
    (why = .budget ∧ budget ≠ none) ∨
      (d.progress.world.halt? r.control = some why ∧ d.progress ∈ r.looks fuel budget stack p) := by
  refine (drain_halted hd ho).imp_right fun hdue => ⟨halt?_of_halts? hdue.1 ?_, hdue.2⟩
  rintro rfl
  exact outcome_ne_fault hp hd ho

end DrainSetting

namespace Engine

variable {e : Engine} {w w' : World} {fuel : Nat} {call : EngineCall} {budget : Option Nat}
  {x : Effort} {d : Drained} {f : Failure} {rest : List Operation}

theorem canRun_of_mem (hx : x ∈ e.callEfforts fuel budget w) : e.state.canRun = true := by
  unfold callEfforts at hx
  split at hx
  · assumption
  · cases hx

/-- Nothing is executed where a halt is due. -/
theorem unhalted_of_mem (hx : x ∈ e.callEfforts fuel budget w) :
    e.setting.halts? x.before = none := by
  have hc := canRun_of_mem hx
  rw [callEfforts, if_pos hc] at hx
  exact (e.setting.drain_course fuel budget e.continuation ⟨w, e.executed, false⟩).unhalted x hx

/-- An effort after which a halt is due is the last one of its call, and the
call returns. -/
theorem returns_of_due (hx : x ∈ e.callEfforts fuel budget w)
    (hdue : e.setting.halts? x.progress ≠ none) :
    ∃ xs, (∀ fuel', fuel ≤ fuel' → e.callEfforts fuel' budget w = xs ++ [x]) ∧
      ∃ fuel' d, fuel ≤ fuel' ∧
        e.setting.drain fuel' budget e.continuation ⟨w, e.executed, false⟩ = some d ∧
        d.progress = x.progress ∧
        ∀ call, e.run fuel' call budget w = some (e.afterDrain d) := by
  have hc := canRun_of_mem hx
  rw [callEfforts, if_pos hc] at hx
  obtain ⟨ts, -, hefforts, hreach⟩ := DrainSetting.last_of_due hx hdue
  rw [← hreach] at hdue
  obtain ⟨hsame, fuel', d, hle, hd⟩ := DrainSetting.ends_of_due hdue
  refine ⟨Turn.efforts ⟨w, e.executed, false⟩ ts, fun fuel' hle => ?_, fuel', d, hle, hd, ?_,
    fun call => ?_⟩
  · rw [callEfforts, if_pos hc, hsame fuel' hle, hefforts]
  · obtain ⟨M, -, hend⟩ := e.setting.drain_works fuel' budget e.continuation ⟨w, e.executed, false⟩
    rw [← (hend d hd).2.1, hsame fuel' hle, hreach]
  · rw [Engine.run, if_pos hc]
    exact Option.map_eq_some_iff.mpr ⟨d, hd, rfl⟩

/-- So there is only one such effort. -/
theorem eq_of_due {y : Effort} (hx : x ∈ e.callEfforts fuel budget w)
    (hy : y ∈ e.callEfforts fuel budget w) (hdue : e.setting.halts? x.progress ≠ none)
    (hdue' : e.setting.halts? y.progress ≠ none) : x = y := by
  obtain ⟨xs, hlast, -⟩ := returns_of_due hx hdue
  obtain ⟨ys, hlast', -⟩ := returns_of_due hy hdue'
  have hsame := (hlast fuel le_rfl).symm.trans (hlast' fuel le_rfl)
  exact List.singleton_inj.mp (List.append_inj' hsame rfl).2

/-- What a drain fails with, if one of its efforts fails other than by
cancellation: that effort is the last one, and no other failure is blamed. -/
theorem outcome_of_fails (hx : x ∈ e.callEfforts fuel budget w)
    (hfails : e.setting.Fails x rest f w') (hf : f.isCancellation = false)
    (hd : e.setting.drain fuel budget e.continuation ⟨w, e.executed, false⟩ = some d) :
    d.outcome = .failed f := by
  have hc := canRun_of_mem hx
  obtain ⟨M, -, hend⟩ := e.setting.drain_works fuel budget e.continuation ⟨w, e.executed, false⟩
  obtain ⟨-, -, hblames⟩ := hend d hd
  have hmem := hx
  rw [callEfforts, if_pos hc] at hmem
  obtain ⟨o, ho, f', hfailed, hf'⟩ := hblames.faults x hmem ⟨rest, f, w', hfails, hf⟩
  rw [List.mem_singleton.mp ho] at hfailed
  rw [hfailed] at hblames ⊢
  -- What is blamed has halted the drain as well, and only one effort does.
  obtain ⟨y, hy, rest', w'', hfails'⟩ := hblames.failed f' (List.mem_singleton_self _)
  have hy' : y ∈ e.callEfforts fuel budget w := by
    rw [callEfforts, if_pos hc]
    exact hy
  obtain rfl := eq_of_due hx hy' (hfails.due hf) (hfails'.due hf')
  rw [hfails.unique hfails']

/-- So the call that executes it returns with that failure. -/
theorem returns_of_fails (hx : x ∈ e.callEfforts fuel budget w)
    (hfails : e.setting.Fails x rest f w') (hf : f.isCancellation = false) :
    (∃ xs, ∀ fuel', fuel ≤ fuel' → e.callEfforts fuel' budget w = xs ++ [x]) ∧
      ∃ fuel' d, (∀ call, e.run fuel' call budget w = some (e.afterDrain d)) ∧
        d.outcome = .failed f ∧ x.ctx ∈ contextsOfAll d.stack := by
  obtain ⟨xs, hlast, fuel', d, hle, hd, -, hrun⟩ := returns_of_due hx (hfails.due hf)
  have hx' : x ∈ e.callEfforts fuel' budget w := by
    rw [hlast fuel' hle]
    exact List.mem_append_right _ (List.mem_singleton_self _)
  refine ⟨⟨xs, hlast⟩, fuel', d, hrun, outcome_of_fails hx' hfails hf hd, ?_⟩
  have hcourse := e.setting.drain_course fuel' budget e.continuation ⟨w, e.executed, false⟩
  rw [hd] at hcourse
  rw [callEfforts, if_pos (canRun_of_mem hx)] at hx'
  rw [← Upshot.contexts_upshot]
  exact hcourse.pending hx' hfails d.upshot rfl

/-- **No failure is swallowed.** An effort that fails other than by cancellation
is the last one of its call. The call returns, and what it answers and keeps is
that very failure; the engine is faulted, and what has failed is still pending.
So a call that answers a state has executed nothing that failed so, and no
drain of an engine ends because of a failure without failing itself. -/
theorem run_surfaces (e : Engine) (w : World) (call : EngineCall) (budget : Option Nat) :
    (∀ fuel, ∀ x ∈ e.callEfforts fuel budget w, ∀ rest f w', e.setting.Fails x rest f w' →
      f.isCancellation = false →
        (∃ xs, ∀ fuel', fuel ≤ fuel' → e.callEfforts fuel' budget w = xs ++ [x]) ∧
        ∃ fuel' reply, e.run fuel' call budget w = some reply ∧ reply.result = .error f ∧
          reply.engine.error = some f ∧ reply.engine.state = .faulted ∧
          x.ctx ∈ contextsOfAll reply.engine.continuation) ∧
    (∀ fuel reply s, e.run fuel call budget w = some reply → reply.result = .ok s →
      ∀ fuel', ∀ x ∈ e.callEfforts fuel' budget w, ¬ e.setting.Faults x) ∧
    ∀ fuel d, e.setting.drain fuel budget e.continuation ⟨w, e.executed, false⟩ = some d →
      d.outcome ≠ .ended (some .fault) := by
  have hsurfaces : ∀ fuel, ∀ x ∈ e.callEfforts fuel budget w, ∀ rest f w',
      e.setting.Fails x rest f w' → f.isCancellation = false →
        (∃ xs, ∀ fuel', fuel ≤ fuel' → e.callEfforts fuel' budget w = xs ++ [x]) ∧
        ∃ fuel' reply, e.run fuel' call budget w = some reply ∧ reply.result = .error f ∧
          reply.engine.error = some f ∧ reply.engine.state = .faulted ∧
          x.ctx ∈ contextsOfAll reply.engine.continuation := by
    intro fuel x hx rest f w' hfails hf
    obtain ⟨hlast, fuel', d, hrun, hfailed, hpending⟩ := returns_of_fails hx hfails hf
    obtain ⟨hresult, hstate, herror, hstack⟩ := e.afterDrain_failed hfailed hf
    exact ⟨hlast, fuel', _, hrun call, hresult, herror, hstate, hstack ▸ hpending⟩
  refine ⟨hsurfaces, fun fuel reply s hrun hresult fuel' x hx hfaults => ?_,
    fun fuel d hd => DrainSetting.outcome_ne_fault rfl hd⟩
  obtain ⟨rest, f, w', hfails, hf⟩ := hfaults
  obtain ⟨-, fuel'', reply', hrun', hresult', -⟩ := hsurfaces fuel' x hx rest f w' hfails hf
  rw [← run_unique hrun hrun', hresult] at hresult'
  cases hresult'

end Engine

namespace Sample

/-- A graph of three operators: one fails as cancelled, one does nothing, one
fails. -/
def mishapGraph : SharedGraph :=
  ⟨⟨0⟩, ⟨"Mishaps", .empty, #[⟨"Withdrawn", .empty, none, .leaf .cancelled⟩,
    ⟨"Idle", .empty, none, .empty⟩, ⟨"Broken", .empty, none, .leaf (.fail "out of order")⟩],
    some ⟨0⟩⟩⟩

/-- An operator of a graph, in a context of its own. -/
def single (g : SharedGraph) (n op : Nat) : Operation :=
  .atomic (.frame ⟨n⟩ ⟨op⟩ ⟨0⟩ [⟨op⟩] (.root ⟨0⟩ g ⟨0⟩))

/-- An engine about to drain three branches. The first fails as cancelled, the
second branches once more and fails there, and the third would do nothing. -/
def mishapEngine : Engine :=
  { Engine.ofConfig .standard ⟨0⟩ with
    state := .ready
    continuation := [.parallel [single mishapGraph 1 0,
      .sequence [.parallel [single mishapGraph 2 1, single mishapGraph 3 2]],
      single mishapGraph 4 1]] }

/-- Three operators are executed, and the start fails with what the third has
failed with. -/
theorem run_surfaces_mishap :
    (mishapEngine.callEfforts 9 none World.empty).map (fun x => x.ctx.operatorName) =
        ["Withdrawn", "Idle", "Broken"] ∧
      ∃ fuel reply, mishapEngine.start fuel World.empty = some reply ∧
        reply.result = .error (.operatorFailed "Broken" "out of order") ∧
        reply.engine.state = .faulted := by
  have hefforts : ∃ x y z rest w, mishapEngine.callEfforts 9 none World.empty = [x, y, z] ∧
      mishapEngine.setting.Fails z rest (.operatorFailed "Broken" "out of order") w := by
    refine ⟨_, _, _, [], World.empty, rfl, ?_⟩
    exact ⟨rfl, rfl⟩
  obtain ⟨x, y, z, rest, w, hefforts, hfails⟩ := hefforts
  have hmem : z ∈ mishapEngine.callEfforts 9 none World.empty := by
    rw [hefforts]
    simp
  obtain ⟨-, fuel, reply, hrun, hresult, -, hstate, -⟩ :=
    (Engine.run_surfaces mishapEngine World.empty .start none).1 9 z hmem rest _ w hfails rfl
  exact ⟨rfl, fuel, reply, hrun, hresult, hstate⟩

end Sample

end ScopeFlow
