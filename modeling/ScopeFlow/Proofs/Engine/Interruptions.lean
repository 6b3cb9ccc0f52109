import ScopeFlow.Proofs.Engine.Cuts
import ScopeFlow.Proofs.Engine.Requests

/-!
# Interrupted runs

A run that has been interrupted goes on from a stack that may be laid out in
another way: what was left of branches with stacks of their own is put on one,
and a step never gives them their own. The operators that are left stay in
line, so what is executed is the same; only the bound on the stack, which
counts each stack by itself, tells the layouts apart.

* `Lined.follows`: efforts made in line follow others from the same place,
  until one of them overflows its stack;
* `Engine.Completes`: a start that executes all there is, without a failure and
  without a request;
* `Engine.Midway`: an engine that stands where this start comes by, however its
  pending work is laid out;
* `Engine.interruptions_complete`: from there on, steps, pauses and starts come
  to the end of that start, or to an overflow.
-/

namespace ScopeFlow

open Operation (contextsOfAll)

namespace DrainSetting

variable {r : DrainSetting} {rest rest' : List Operation} {next next' : Option Operation}
  {w w' : World} {x y : Effort} {xs ys : List Effort} {line line' : List Context}
  {p q : Progress} {left : Option (List Context × Progress)}

/-- Two efforts that are answered agree, if they are made for one context from
one place; how much there is on their stacks does not count. -/
theorem Answers.agree (hx : r.Answers x rest next w) (hy : r.Answers y rest' next' w')
    (hctx : x.ctx = y.ctx) (hbefore : x.before = y.before) :
    next = next' ∧ x.progress = y.progress := by
  obtain ⟨-, -, hexec⟩ := execute_eq_ok hx.execute
  obtain ⟨-, -, hexec'⟩ := execute_eq_ok hy.execute
  rw [← hctx, ← hbefore, hexec] at hexec'
  obtain ⟨hnext, rfl⟩ := Prod.mk.inj hexec'
  have hprogress : x.progress = x.before.advance w := congrArg Turn.progress hx.turn
  have hprogress' : y.progress = y.before.advance w := congrArg Turn.progress hy.turn
  exact ⟨Except.ok.inj hnext, by rw [hprogress, hprogress', hbefore]⟩

/-- One that fails where another one is answered has overflown its stack. -/
theorem Fails.overflow {f : Failure} (hx : r.Fails x rest f w) (hy : r.Answers y rest' next' w')
    (hctx : x.ctx = y.ctx) (hbefore : x.before = y.before) : r.Overflow (.failed f) := by
  obtain ⟨hroom, -, -⟩ := execute_eq_ok hy.execute
  have hexec := hx.execute
  rcases Nat.lt_or_ge r.config.maxStackDepth (rest.length + 1) with hlt | hle
  · obtain ⟨f', hrefused, hover⟩ := execute_of_lt (r := r) x.ctx hlt x.before.world
    rw [hrefused] at hexec
    obtain rfl : f' = f := Except.error.inj (Prod.mk.inj hexec).1
    exact hover
  · rw [execute_of_le x.ctx hle hroom, hctx, hbefore, hy.execute] at hexec
    cases (Prod.mk.inj hexec).1

/-- An overflow is no cancellation. -/
theorem Overflow.isCancellation {f : Failure} (h : r.Overflow (.failed f)) :
    f.isCancellation = false := by
  obtain ⟨operator, hf⟩ := h
  cases hf
  rfl

namespace Lined

/-- What comes after the first efforts starts where these have come to. -/
theorem after (h : r.Lined line p (xs ++ ys) left) (hxs : r.Lined line p xs (some (line', q))) :
    r.Lined line' q ys left := by
  generalize hleft : some (line', q) = left' at hxs
  induction hxs with
  | idle =>
      cases hleft
      exact h
  | done hx _ ih =>
      obtain ⟨later, hline, -, ⟨_, _, _, hx', hlater⟩ | ⟨-, _, _, _, hfails⟩⟩ := h.uncons
      · obtain ⟨rfl, -⟩ := hx.agree hx' rfl rfl
        obtain rfl := (List.cons.inj hline).2
        exact ih hlater hleft
      · exact absurd hfails hx.not_fails
  | failed => cases hleft

/-- Efforts made in line follow others that are made from the same place to the
end of the line, until one of them overflows its stack. -/
theorem follows (h : r.Lined line p xs left) (hall : r.Lined line p ys (some ([], q))) :
    (∃ ys₁ ys₂, ys = ys₁ ++ ys₂ ∧ ys₁.length = xs.length ∧ left ≠ none ∧
      r.Lined line p ys₁ left) ∨
    ∃ x ∈ xs, ∃ rest f w, r.Fails x rest f w ∧ r.Overflow (.failed f) := by
  induction h generalizing ys with
  | idle => exact .inl ⟨[], ys, rfl, rfl, nofun, .idle⟩
  | @done line x xs rest next w left hx later ih =>
      cases ys with
      | nil => cases hall.of_nil
      | cons y ys =>
          obtain ⟨later', hline, hbefore, ⟨rest', next', w', hy, hlater⟩ | ⟨hnone, -⟩⟩ :=
            hall.uncons
          · obtain ⟨hctx, rfl⟩ := List.cons.inj hline
            obtain ⟨rfl, hprogress⟩ := hx.agree hy hctx hbefore
            rw [← hprogress] at hlater
            rcases ih hlater with ⟨ys₁, ys₂, rfl, hlength, hleft, hys₁⟩ | ⟨x', hx', hover⟩
            · refine .inl ⟨y :: ys₁, ys₂, rfl, by simp [hlength], hleft, ?_⟩
              rw [hctx, hbefore]
              rw [hprogress] at hys₁
              exact .done hy hys₁
            · exact .inr ⟨x', List.mem_cons_of_mem _ hx', hover⟩
          · cases hnone
  | @failed line x xs rest f w hx =>
      cases ys with
      | nil => cases hall.of_nil
      | cons y ys =>
          obtain ⟨later', hline, hbefore, ⟨rest', next', w', hy, -⟩ | ⟨hnone, -⟩⟩ := hall.uncons
          · obtain ⟨hctx, -⟩ := List.cons.inj hline
            exact .inr ⟨x, List.mem_cons_self, rest, f, w, hx, hx.overflow hy hctx hbefore⟩
          · cases hnone

/-- Efforts that start at the end of the line are none. -/
theorem at_end (h : r.Lined [] p ys (some (line', q))) : ys = [] ∧ line' = [] ∧ p = q := by
  cases ys with
  | nil =>
      cases h.of_nil
      exact ⟨rfl, rfl, rfl⟩
  | cons y ys =>
      obtain ⟨later, hline, -⟩ := h.uncons
      cases hline

/-- Between efforts in line nothing is a fault. -/
theorem fault_eq (h : r.Lined line p xs (some (line', q))) : q.fault = p.fault := by
  generalize hleft : some (line', q) = left at h
  induction h with
  | idle =>
      cases hleft
      rfl
  | done hx _ ih =>
      rw [ih hleft]
      exact congrArg (fun t => t.progress.fault) hx.turn
  | failed => cases hleft

end Lined

/-- Where efforts in line come to the end of what is pending, a drain overflows
a stack, or else ends without a failure after some of the first of them. -/
theorem drain_follows {stack : List Operation}
    (hall : r.Lined (contextsOfAll stack) p ys (some ([], q))) (budget : Option Nat) :
    (∃ fuel, ∃ x ∈ Turn.efforts p (r.turns fuel budget stack p),
      ∃ rest f w, r.Fails x rest f w ∧ r.Overflow (.failed f)) ∨
    ∃ fuel d ys₁ ys₂, r.drain fuel budget stack p = some d ∧ (∀ f, d.outcome ≠ .failed f) ∧
      ys = ys₁ ++ ys₂ ∧
      r.Lined (contextsOfAll stack) p ys₁ (some (contextsOfAll d.stack, d.progress)) := by
  by_cases hover : ∃ fuel, ∃ x ∈ Turn.efforts p (r.turns fuel budget stack p),
      ∃ rest f w, r.Fails x rest f w ∧ r.Overflow (.failed f)
  · exact .inl hover
  · have hbounded : r.Bounded ys.length budget stack p := by
      intro fuel
      obtain ⟨left, hline, -⟩ := (r.drain_course fuel budget stack p).lined
      rcases hline.follows hall with ⟨ys₁, ys₂, rfl, hlength, -⟩ | hfails
      · rw [← Turn.length_efforts p, ← hlength, List.length_append]
        exact Nat.le_add_right ..
      · exact absurd ⟨fuel, hfails⟩ hover
    obtain ⟨fuel, d, hd⟩ := ends_of_bounded r _ budget stack p hbounded
    obtain ⟨left, hline, hleft⟩ := drain_lined hd
    rcases hline.follows hall with ⟨ys₁, ys₂, rfl, -, hsome, hys₁⟩ | hfails
    · obtain rfl := hleft.resolve_left hsome
      refine .inr ⟨fuel, d, ys₁, ys₂, hd, fun f ho => ?_, rfl, hys₁⟩
      obtain ⟨x, hx, rest, w, hfails⟩ := drain_failed hd ho
      obtain ⟨rest', next, w', hanswers⟩ := hline.answers hsome x hx
      exact hanswers.not_fails hfails
    · exact absurd ⟨fuel, hfails⟩ hover

end DrainSetting

namespace Engine

/-- A start that executes all there is: it stops, nothing fails, and nothing
has been asked for by its end. -/
structure Completes (fuel : Nat) (e : Engine) (w : World) (reply : Reply RunState) : Prop where
  start : e.start fuel w = some reply
  stopped : reply.result = .ok .stopped
  quiet : reply.world.halt? e.control = none
  answers : ∀ x ∈ e.callEfforts fuel none w, ∀ rest f w', ¬ e.setting.Fails x rest f w'

/-- An engine that stands where a start of another one comes by: the same
contexts are pending in the same order, in the same world apart from a request
for a pause. The operations that they are part of need not be the same. -/
structure Midway (e : Engine) (w : World) (e' : Engine) (w' : World) : Prop where
  canRun : e'.state.canRun = true
  akin : e.Akin e'
  along : ∃ fuel xs, xs <+: e.callEfforts fuel none w ∧
    e.setting.Lined (contextsOfAll e.continuation) ⟨w, e.executed, false⟩ xs
      (some (contextsOfAll e'.continuation, ⟨w'.clearPause e.control, e'.executed, false⟩))

/-- An engine that is faulted because a stack has overflown. -/
def Overflown (e : Engine) : Prop :=
  e.state = .faulted ∧ ∃ f, e.error = some f ∧ e.setting.Overflow (.failed f)

variable {e e' e₁ : Engine} {w w' w₁ : World} {fuel : Nat} {reply : Reply RunState}
  {call : EngineCall} {budget : Option Nat} {d : Drained} {q : Progress}

/-! ## The whole start -/

/-- It is enough that every effort is counted. -/
theorem completes_of_counts (hstart : e.start fuel w = some reply)
    (hstopped : reply.result = .ok .stopped) (hquiet : reply.world.halt? e.control = none)
    (hcounts : (e.callEfforts fuel none w).all
      (fun x => x.progress.executed == x.before.executed + 1) = true) :
    e.Completes fuel w reply where
  start := hstart
  stopped := hstopped
  quiet := hquiet
  answers x hx rest f w' hfails := by
    have hcount := beq_iff_eq.mp (List.all_eq_true.mp hcounts x hx)
    rw [hfails.executed] at hcount
    omega

/-- What is heeded is still asked for afterwards, unless it is a pause. -/
theorem Heeds.quiet_or_paused {left : List Context} (h : e.Heeds w left reply)
    (hhalt : w.halt? e.control ≠ none) (hquiet : reply.world.halt? e.control = none) :
    reply.engine.state = .paused := by
  cases habort : (w.control e.control).abort with
  | true =>
      obtain ⟨-, -, hworld⟩ := h.aborted habort
      rw [hworld] at hquiet
      exact absurd hquiet hhalt
  | false =>
      by_cases hstop : (w.control e.control).stop = true ∨ w.isCancelled (w.token e.control) = true
      · obtain ⟨-, -, hworld⟩ := h.stopped habort hstop
        rw [hworld] at hquiet
        exact absurd hquiet hhalt
      · rw [not_or, Bool.not_eq_true, Bool.not_eq_true] at hstop
        exact (h.paused habort hstop.1 hstop.2).1

/-- What a start that completes has done, and how its drain has ended. -/
theorem Completes.whole (h : e.Completes fuel w reply) : ∃ q, e.state.canRun = true ∧
    e.setting.Lined (contextsOfAll e.continuation) ⟨w, e.executed, false⟩
      (e.callEfforts fuel none w) (some ([], q)) ∧
    reply = e.afterDrain ⟨.ended none, [], q⟩ ∧ q.world.halt? e.control = none := by
  have hrun := h.start
  have hstopped := h.stopped
  have hquiet := h.quiet
  have hanswers := h.answers
  cases hc : e.state.canRun with
  | false =>
      rw [Engine.start, run_refused hc] at hrun
      cases hrun
      cases hstopped
  | true =>
      rw [Engine.start, Engine.run, if_pos hc, Option.map_eq_some_iff] at hrun
      rw [callEfforts, if_pos hc] at hanswers ⊢
      obtain ⟨d, hd, rfl⟩ := hrun
      obtain ⟨hunfailed, hline⟩ := DrainSetting.drain_unfailed hd hanswers
      cases ho : d.outcome with
      | failed f => exact absurd ho (hunfailed f)
      | ended halt =>
          cases halt with
          | none =>
              have hstack : d.stack = [] := (DrainSetting.stack_eq_nil_iff fuel hd).mpr ho
              obtain ⟨outcome, stack, q⟩ := d
              obtain rfl : outcome = _ := ho
              obtain rfl : stack = [] := hstack
              exact ⟨q, rfl, hline, rfl, hquiet⟩
          | some why =>
              -- Whatever has halted the drain would still be asked for.
              have hstack : d.stack ≠ [] := by
                rw [Ne, DrainSetting.stack_eq_nil_iff fuel hd, ho]
                simp
              have hhalt : d.progress.world.halt? e.control = some why :=
                ((DrainSetting.drain_asked rfl hd ho).resolve_left fun h => h.2 rfl).1
              have hheeds := afterDrain_heeds (e := e) ho hstack hhalt
              have hpaused := hheeds.quiet_or_paused (by simp [hhalt]) hquiet
              have hresult := hheeds.result
              rw [hstopped, hpaused] at hresult
              cases hresult

/-- The rest of a start that completes, from where an engine stands midway. -/
theorem Midway.ahead (hm : e.Midway w e' w') (h : e.Completes fuel w reply) : ∃ xs ys q,
    e.callEfforts fuel none w = xs ++ ys ∧
    e.setting.Lined (contextsOfAll e.continuation) ⟨w, e.executed, false⟩ xs
      (some (contextsOfAll e'.continuation, ⟨w'.clearPause e.control, e'.executed, false⟩)) ∧
    e.setting.Lined (contextsOfAll e'.continuation)
      ⟨w'.clearPause e.control, e'.executed, false⟩ ys (some ([], q)) ∧
    reply = e.afterDrain ⟨.ended none, [], q⟩ ∧ q.world.halt? e.control = none := by
  obtain ⟨q, -, hall, hreply, hquiet⟩ := h.whole
  obtain ⟨fuel', xs, hprefix, hxs⟩ := hm.along
  have hmore : e.callEfforts fuel' none w <+: e.callEfforts fuel none w := by
    rw [← callEfforts_eq (Nat.le_max_left fuel fuel') h.start]
    exact callEfforts_mono (Nat.le_max_right fuel fuel')
  obtain ⟨ys, hys⟩ := hprefix.trans hmore
  rw [← hys] at hall
  exact ⟨xs, ys, q, hys.symm, hxs, hall.after hxs, hreply, hquiet⟩

/-- Nothing is asked for along it. -/
theorem quiet_along {xs ys : List Effort} {line : List Context} {p : Progress}
    (hall : e.callEfforts fuel none w = xs ++ ys)
    (hys : e.setting.Lined line p ys (some ([], q))) (hquiet : q.world.halt? e.control = none) :
    p.world.halt? e.control = none := by
  cases ys with
  | nil =>
      cases hys.of_nil
      exact hquiet
  | cons y ys =>
      obtain ⟨-, -, rfl, -⟩ := hys.uncons
      have hy : y ∈ e.callEfforts fuel none w := by
        rw [hall]
        exact List.mem_append_right _ List.mem_cons_self
      exact (DrainSetting.halts?_eq_none_iff.mp (unhalted_of_mem hy)).1

/-! ## One call -/

/-- A drain that neither fails nor comes to be asked for anything runs dry, or
spends its budget. -/
theorem ended_quiet
    (hd : e.setting.drain fuel budget e.continuation ⟨w, e.executed, false⟩ = some d)
    (hok : ∀ f, d.outcome ≠ .failed f) (hquiet : d.progress.world.halt? e.control = none) :
    d.outcome = .ended none ∨ d.outcome = .ended (some .budget) ∧ budget ≠ none := by
  cases ho : d.outcome with
  | failed f => exact absurd ho (hok f)
  | ended halt =>
      cases halt with
      | none => exact .inl rfl
      | some why =>
          rcases DrainSetting.drain_asked rfl hd ho with ⟨rfl, hbudget⟩ | ⟨hhalt, -⟩
          · exact .inr ⟨rfl, hbudget⟩
          · cases hquiet.symm.trans hhalt

/-- A call in which a stack overflows returns, and the engine is faulted. -/
theorem returns_overflown {x : Effort} {rest : List Operation} {f : Failure}
    (hx : x ∈ e.callEfforts fuel budget w) (hfails : e.setting.Fails x rest f w')
    (hover : e.setting.Overflow (.failed f)) (call : EngineCall) :
    ∃ fuel' reply, e.run fuel' call budget w = some reply ∧ reply.engine.Overflown := by
  obtain ⟨-, fuel', d, hrun, hfailed, -⟩ := returns_of_fails hx hfails hover.isCancellation
  obtain ⟨-, hstate, herror, -⟩ := e.afterDrain_failed hfailed hover.isCancellation
  refine ⟨fuel', _, hrun call, hstate, f, herror, ?_⟩
  rw [setting_afterDrain]
  exact hover

/-- A call that leaves nothing pending, without a failure, ends as the whole
start does. -/
theorem Midway.ends (hm : e.Midway w e' w') (hreply : reply = e.afterDrain ⟨.ended none, [], q⟩)
    (ho : d.outcome = .ended none ∨ d.outcome = .ended (some .budget)) (hstack : d.stack = [])
    (hq : d.progress = q) : e'.afterDrain d = reply := by
  obtain ⟨outcome, stack, p⟩ := d
  obtain rfl : stack = [] := hstack
  obtain rfl : p = q := hq
  rw [hm.akin.afterDrain, hreply]
  rcases ho with ho | ho
  · obtain rfl : outcome = _ := ho
    rfl
  · obtain rfl : outcome = _ := ho
    rfl

/-- A call made midway, with nothing asked for, overflows a stack, or ends as
the whole start does, or is a step to somewhere midway. -/
theorem Midway.call_unpaused (hm : e.Midway w e' w') (h : e.Completes fuel w reply)
    (hp : (w'.control e.control).pause = false) (call : EngineCall)
    (hb : budget = none ∨ budget = some 1) :
    ∃ fuel' later, e'.run fuel' call budget w' = some later ∧
      (later.engine.Overflown ∨ later = reply ∨ budget = some 1 ∧
        e.Midway w later.engine later.world ∧ (later.world.control e.control).pause = false) := by
  obtain ⟨xs, ys, q, hsplit, hxs, hys, hreply, hquiet⟩ := hm.ahead h
  rw [World.clearPause_eq_self hp] at hxs hys
  have hsetting : e'.setting = e.setting := hm.akin.setting
  have hcontrol : e'.control = e.control := hm.akin.control
  -- The stacks may differ, but the call follows what is left of the start.
  rcases DrainSetting.drain_follows hys budget with
    ⟨fuel₁, x, hx, rest, f, w₁, hfails, hover⟩ | ⟨fuel₁, d, ys₁, ys₂, hd, hok, rfl, hys₁⟩
  · rw [← hsetting] at hx hfails hover
    have hx' : x ∈ e'.callEfforts fuel₁ budget w' := by
      rw [callEfforts, if_pos hm.canRun]
      exact hx
    obtain ⟨fuel₂, later, hrun, hoverflown⟩ := returns_overflown hx' hfails hover call
    exact ⟨fuel₂, later, hrun, .inl hoverflown⟩
  · rw [← hsetting] at hd
    have hrun : e'.run fuel₁ call budget w' = some (e'.afterDrain d) := by
      rw [Engine.run, if_pos hm.canRun]
      exact Option.map_eq_some_iff.mpr ⟨d, hd, rfl⟩
    rw [← List.append_assoc] at hsplit
    have hlater := hys.after hys₁
    have hstill : d.progress.world.halt? e.control = none := quiet_along hsplit hlater hquiet
    have ho := ended_quiet hd hok (by rw [hcontrol]; exact hstill)
    refine ⟨fuel₁, _, hrun, .inr ?_⟩
    by_cases hstack : d.stack = []
    · have hq : d.progress = q := by
        rw [hstack] at hlater
        exact hlater.at_end.2.2
      exact .inl (hm.ends hreply (ho.imp_right And.left) hstack hq)
    · obtain ⟨ho, hbudget⟩ := ho.resolve_left fun hdry => hstack (DrainSetting.drain_dry hd hdry)
      have hprogress :
          (⟨d.progress.world.clearPause e.control, d.progress.executed, false⟩ : Progress) =
            d.progress := by
        rw [World.clearPause_quiet hstill, ← show d.progress.fault = false from hys₁.fault_eq]
      have hpaused : (e'.afterDrain d).result = .ok .paused := by rw [afterDrain_spent ho hstack]
      have hakin : e.Akin (e'.afterDrain d).engine := hm.akin.trans (akin_afterDrain hpaused)
      rw [afterDrain_spent ho hstack] at hakin ⊢
      refine .inr ⟨hb.resolve_left hbudget, ⟨rfl, hakin, fuel, xs ++ ys₁, ⟨ys₂, hsplit.symm⟩, ?_⟩,
        (World.halt?_eq_none_iff.mp hstill).2.2.2⟩
      dsimp only
      rw [hprogress]
      exact hxs.trans hys₁

/-- A call made midway with a request for a pause waiting takes it back and
stays there, or ends as the whole start does, if nothing is pending. -/
theorem Midway.call_paused (hm : e.Midway w e' w') (h : e.Completes fuel w reply)
    (hp : (w'.control e.control).pause = true) (call : EngineCall) (budget : Option Nat) :
    ∃ fuel' later, e'.run fuel' call budget w' = some later ∧
      (later.engine = reply.engine ∧ later.world.clearPause e.control = reply.world ∨
        e.Midway w later.engine later.world ∧ (later.world.control e.control).pause = false) := by
  obtain ⟨xs, ys, q, hsplit, hxs, hys, hreply, hquiet⟩ := hm.ahead h
  have hcontrol : e'.control = e.control := hm.akin.control
  have hcleared := quiet_along hsplit hys hquiet
  by_cases hpending : e'.continuation = []
  · rw [hpending] at hys
    obtain ⟨-, -, rfl⟩ := hys.at_end
    have hrun : e'.run 1 call budget w' =
        some (e'.afterDrain ⟨.ended none, [], ⟨w', e'.executed, false⟩⟩) := by
      rw [Engine.run, if_pos hm.canRun, hpending]
      rfl
    refine ⟨1, _, hrun, .inl ?_⟩
    rw [hm.akin.afterDrain, hreply]
    exact ⟨rfl, rfl⟩
  · obtain ⟨habort, hstop, hcancel, -⟩ := World.halt?_eq_none_iff.mp hcleared
    rw [World.control_clearPause] at habort hstop hcancel
    -- Anything else that is asked for would have been seen by the start as well.
    have hwhy : w'.halt? e'.control = some .pause := by
      rw [hcontrol]
      by_contra hother
      rw [World.halt?_clearPause, if_neg hother] at hcleared
      exact World.halt?_ne_none hp hcleared
    obtain ⟨-, d, hrun, hd, hheeds⟩ := run_halted hm.canRun hpending hwhy 0 call budget
    obtain ⟨hstate, hcontexts, hworld⟩ := hheeds.paused (by rw [hcontrol]; exact habort)
      (by rw [hcontrol]; exact hstop) (by rw [World.token, hcontrol]; exact hcancel)
    rw [hcontrol] at hworld
    refine ⟨1, _, hrun, .inr ⟨⟨by rw [hstate]; rfl, hm.akin.trans (akin_afterDrain hheeds.result),
      fuel, xs, ⟨ys, hsplit.symm⟩, ?_⟩, ?_⟩⟩
    · rw [hcontexts, hworld, World.clearPause_clearPause, executed_afterDrain, hd]
      exact hxs
    · rw [hworld, World.control_clearPause]

/-! ## Lists of calls -/

/-- How an interrupted run can end: a stack has overflown, or it has ended as
the whole start does. -/
def Finished (e : Engine) (reply : Reply RunState) (e' : Engine) (w' : World) : Prop :=
  e'.Overflown ∨ e' = reply.engine ∧ w'.clearPause e.control = reply.world

theorem Finished.canRun (hf : e.Finished reply e' w') (h : e.Completes fuel w reply) :
    e'.state.canRun = false := by
  rcases hf with ⟨hstate, -⟩ | ⟨rfl, -⟩
  · rw [hstate]
    rfl
  · obtain ⟨q, -, -, rfl, -⟩ := h.whole
    rfl

/-- A run that has ended stays as it is. -/
theorem Finished.cut (hf : e.Finished reply e' w') (h : e.Completes fuel w reply) (fuel' : Nat)
    (cuts : List Cut) :
    ∃ x, e'.cut fuel' cuts w' = some x ∧ e.Finished reply x.1 x.2 := by
  obtain ⟨w'', hcut, hw⟩ := cut_ended (hf.canRun h) fuel' cuts w'
  refine ⟨_, hcut, hf.imp_right fun ⟨hengine, hworld⟩ => ⟨hengine, ?_⟩⟩
  obtain ⟨q, -, -, hreply, -⟩ := h.whole
  have hcontrol : e'.control = e.control := by
    rw [hengine, hreply]
    rfl
  rw [hcontrol] at hw
  exact hw.trans hworld

/-- One call or request, made midway. Only a start that takes a request back
leaves the run midway. -/
theorem Midway.cutOnce (hm : e.Midway w e' w') (h : e.Completes fuel w reply) (c : Cut) :
    ∃ fuel' x, e'.cutOnce fuel' w' c = some x ∧ (e.Finished reply x.1 x.2 ∨
      e.Midway w x.1 x.2 ∧ (c = .start → (w'.control e.control).pause = true ∧
        (x.2.control e.control).pause = false)) := by
  have hcall : ∀ (call : EngineCall) {budget : Option Nat}, (budget = none ∨ budget = some 1) →
      ∃ fuel' later, e'.run fuel' call budget w' = some later ∧
        (e.Finished reply later.engine later.world ∨
          e.Midway w later.engine later.world ∧ (budget = none →
            (w'.control e.control).pause = true ∧
              (later.world.control e.control).pause = false)) := by
    intro call budget hb
    cases hp : (w'.control e.control).pause with
    | true =>
        obtain ⟨fuel', later, hrun, hends | ⟨hmid, hpause⟩⟩ := hm.call_paused h hp call budget
        · exact ⟨fuel', later, hrun, .inl (.inr hends)⟩
        · exact ⟨fuel', later, hrun, .inr ⟨hmid, fun _ => ⟨rfl, hpause⟩⟩⟩
    | false =>
        obtain ⟨fuel', later, hrun, hover | hends | ⟨hstep, hmid, -⟩⟩ :=
          hm.call_unpaused h hp call hb
        · exact ⟨fuel', later, hrun, .inl (.inl hover)⟩
        · subst hends
          exact ⟨fuel', later, hrun, .inl (.inr ⟨rfl, World.clearPause_quiet h.quiet⟩)⟩
        · exact ⟨fuel', later, hrun, .inr ⟨hmid, fun hnone => nomatch hnone.symm.trans hstep⟩⟩
  cases c with
  | pause =>
      refine ⟨0, _, rfl, .inr ⟨⟨hm.canRun, hm.akin, ?_⟩, nofun⟩⟩
      rw [hm.akin.control, World.clearPause_pause]
      exact hm.along
  | start =>
      obtain ⟨fuel', later, hrun, hends⟩ := hcall .start (.inl rfl)
      exact ⟨fuel', _, Option.map_eq_some_iff.mpr ⟨later, hrun, rfl⟩,
        hends.imp_right fun ⟨hmid, hstart⟩ => ⟨hmid, fun _ => hstart rfl⟩⟩
  | step =>
      obtain ⟨fuel', later, hrun, hends⟩ := hcall .step (.inr rfl)
      exact ⟨fuel', _, Option.map_eq_some_iff.mpr ⟨later, hrun, rfl⟩,
        hends.imp_right fun hmid => ⟨hmid.1, nofun⟩⟩

/-- All calls return, and the run stays midway until it ends. -/
theorem Midway.cut (hm : e.Midway w e' w') (h : e.Completes fuel w reply) (cuts : List Cut) :
    ∃ fuel' x, e'.cut fuel' cuts w' = some x ∧
      (e.Finished reply x.1 x.2 ∨ e.Midway w x.1 x.2) := by
  induction cuts generalizing e' w' with
  | nil => exact ⟨0, _, rfl, .inr hm⟩
  | cons c cuts ih =>
      obtain ⟨fuel₁, y, hy, hends⟩ := hm.cutOnce h c
      have hrest : ∃ fuel₂ x, y.1.cut fuel₂ cuts y.2 = some x ∧
          (e.Finished reply x.1 x.2 ∨ e.Midway w x.1 x.2) := by
        rcases hends with hf | ⟨hmid, -⟩
        · obtain ⟨x, hx, hf'⟩ := hf.cut h 0 cuts
          exact ⟨0, x, hx, .inl hf'⟩
        · exact ih hmid
      obtain ⟨fuel₂, x, hx, hstands⟩ := hrest
      exact ⟨max fuel₁ fuel₂, x, cut_cons.mpr ⟨y, cutOnce_mono (Nat.le_max_left ..) hy,
        cut_mono (Nat.le_max_right ..) hx⟩, hstands⟩

/-- Two starts end the run: the first may only take a request back. -/
theorem Midway.starts (hm : e.Midway w e' w') (h : e.Completes fuel w reply) :
    ∃ fuel' x, e'.cut fuel' [.start, .start] w' = some x ∧ e.Finished reply x.1 x.2 := by
  obtain ⟨fuel₁, y, hy, hends⟩ := hm.cutOnce h .start
  have hsecond : ∃ fuel₂ x, y.1.cut fuel₂ [.start] y.2 = some x ∧ e.Finished reply x.1 x.2 := by
    rcases hends with hf | ⟨hmid, hstart⟩
    · obtain ⟨x, hx, hf'⟩ := hf.cut h 0 [.start]
      exact ⟨0, x, hx, hf'⟩
    · obtain ⟨-, hpause⟩ := hstart rfl
      obtain ⟨fuel₂, x, hx, hf | ⟨-, hagain⟩⟩ := hmid.cutOnce h .start
      · exact ⟨fuel₂, x, cut_cons.mpr ⟨x, hx, rfl⟩, hf⟩
      · rw [(hagain rfl).1] at hpause
        cases hpause
  obtain ⟨fuel₂, x, hx, hf⟩ := hsecond
  exact ⟨max fuel₁ fuel₂, x, cut_cons.mpr ⟨y, cutOnce_mono (Nat.le_max_left ..) hy,
    cut_mono (Nat.le_max_right ..) hx⟩, hf⟩

/-- A start that completes comes by the engine that it is made on. -/
theorem Completes.midway (h : e.Completes fuel w reply) : e.Midway w e w := by
  obtain ⟨q, hc, hall, -, hquiet⟩ := h.whole
  refine ⟨hc, ⟨rfl, rfl, rfl, rfl, rfl⟩, fuel, [], List.nil_prefix, ?_⟩
  have hsplit : e.callEfforts fuel none w = [] ++ e.callEfforts fuel none w := rfl
  have hquiet' : w.halt? e.control = none := quiet_along hsplit hall hquiet
  rw [World.clearPause_quiet hquiet']
  exact .idle

/-- **An interruption changes nothing but the layout of stacks.** If a start
completes, it may be cut up by steps, pauses and starts, from the beginning or
from anywhere it comes by, however the work pending there is laid out. All calls
return, and with two more starts the run is at its end. It stays midway until
it ends; and then it has stopped, with the engine and the world of the
uninterrupted start, unless a stack has overflown. -/
theorem interruptions_complete (h : e.Completes fuel w reply) :
    e.Midway w e w ∧ ∀ e₁ w₁, e.Midway w e₁ w₁ → ∀ cuts,
      (∀ fuel' e' w', e₁.cut fuel' cuts w₁ = some (e', w') →
        e.Midway w e' w' ∨ e'.Overflown ∨
          e' = reply.engine ∧ e'.state = .stopped ∧ w'.clearPause e.control = reply.world) ∧
      ∃ fuel' e' w', e₁.cut fuel' (cuts ++ [.start, .start]) w₁ = some (e', w') ∧
        (e'.Overflown ∨
          e' = reply.engine ∧ e'.state = .stopped ∧ w'.clearPause e.control = reply.world) := by
  have hstopped : reply.engine.state = .stopped := by
    obtain ⟨q, -, -, rfl, -⟩ := h.whole
    rfl
  have hends : ∀ {e' w'}, e.Finished reply e' w' → e'.Overflown ∨
      e' = reply.engine ∧ e'.state = .stopped ∧ w'.clearPause e.control = reply.world := by
    rintro e' w' (hover | ⟨rfl, hworld⟩)
    · exact .inl hover
    · exact .inr ⟨rfl, hstopped, hworld⟩
  refine ⟨h.midway, fun e₁ w₁ hm cuts => ⟨fun fuel' e' w' hcut => ?_, ?_⟩⟩
  · obtain ⟨fuel₁, x, hx, hstands⟩ := hm.cut h cuts
    obtain rfl := cut_unique hx hcut
    exact hstands.symm.imp_right hends
  · obtain ⟨fuel₁, x, hx, hf | hmid⟩ := hm.cut h cuts
    · obtain ⟨y, hy, hf'⟩ := hf.cut h fuel₁ [.start, .start]
      refine ⟨fuel₁, y.1, y.2, ?_, hends hf'⟩
      rw [cut_append, hx]
      exact hy
    · obtain ⟨fuel₂, y, hy, hf⟩ := hmid.starts h
      refine ⟨max fuel₁ fuel₂, y.1, y.2, ?_, hends hf⟩
      rw [cut_append, cut_mono (Nat.le_max_left ..) hx]
      exact cut_mono (Nat.le_max_right ..) hy

end Engine

namespace Sample

/-- A parallel collection of two operators that do nothing. -/
def forkGraph : SharedGraph :=
  ⟨⟨0⟩, ⟨"Fork", .empty,
    #[⟨"Branches", ⟨[{ Parameter.lookup "Parallel" .bool with fixed := some ⟨0⟩ }]⟩, none,
        .subScopes [⟨1⟩, ⟨2⟩]⟩,
      ⟨"First", .empty, none, .empty⟩, ⟨"Second", .empty, none, .empty⟩],
    some ⟨0⟩⟩⟩

/-- A configuration with stacks of one operation. -/
def tight : Config := { Config.standard with maxStackDepth := 1 }

/-- A step, a request for a pause and two starts come to an end. -/
theorem interruptions_complete_fork :
    ∃ e w events reply fuel e' w', (Engine.ofConfig .standard ⟨0⟩).prepare forkGraph ⟨0⟩
        branchingWorld = ⟨.ok (), e, w, events⟩ ∧ e.Completes 9 w reply ∧
      e.cut fuel ([.step, .pause] ++ [.start, .start]) w = some (e', w') ∧
      (e'.Overflown ∨ e' = reply.engine ∧ e'.state = .stopped ∧
        w'.clearPause e.control = reply.world) := by
  have hstart : ∃ e w events reply, (Engine.ofConfig .standard ⟨0⟩).prepare forkGraph ⟨0⟩
      branchingWorld = ⟨.ok (), e, w, events⟩ ∧ e.Completes 9 w reply :=
    ⟨_, _, _, _, rfl, Engine.completes_of_counts rfl rfl rfl rfl⟩
  obtain ⟨e, w, events, reply, hprep, hcompletes⟩ := hstart
  obtain ⟨hself, hcuts⟩ := Engine.interruptions_complete hcompletes
  obtain ⟨-, fuel, e', w', hcut, hends⟩ := hcuts e w hself [.step, .pause]
  exact ⟨e, w, events, reply, fuel, e', w', hprep, hcompletes, hcut, hends⟩

/-- On stacks of one operation a start completes, since each branch has one of
its own; a step lays both on one stack, and the next step faults. -/
theorem fork_overflows :
    ∃ e w events reply e' w', (Engine.ofConfig tight ⟨0⟩).prepare forkGraph ⟨0⟩ branchingWorld =
        ⟨.ok (), e, w, events⟩ ∧ e.config.parallel = true ∧ e.Completes 9 w reply ∧
      e.cut 9 [.step, .step] w = some (e', w') ∧ e'.state = .faulted :=
  ⟨_, _, _, _, _, _, rfl, rfl, Engine.completes_of_counts rfl rfl rfl rfl, rfl, rfl⟩

end Sample

end ScopeFlow
