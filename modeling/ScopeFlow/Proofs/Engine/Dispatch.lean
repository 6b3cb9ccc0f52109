import ScopeFlow.Proofs.Drain.Lockstep
import ScopeFlow.Proofs.Engine.Calls

/-!
# Parallel and sequential dispatch

An engine that drains branches on stacks of their own and one that does not
cannot be told apart by what they execute and show: after every call and
request both have the same result, state, failure, count, pending operators
and world, and both take up the same operators in the same contexts and order.

* `Input` is a call or a request, `Sight` what is seen after one, `deeds` what
  is executed during several;
* `Packs` is the invariant, `Packs.take` that an input keeps it;
* `dispatch_agrees` follows by induction on the inputs.
-/

namespace ScopeFlow

/-- A call on an engine, or a request made to it between two calls. -/
inductive Input where
  | start
  | step
  | ask (r : Request)

/-- What is seen of an engine after an input. -/
structure Sight where
  /-- The answer, if the input was a call. -/
  result : Option (Except Failure RunState)
  state : RunState
  error : Option Failure
  executed : Nat
  /-- The contexts of the pending atomic operations, in order. -/
  pending : List Context
  world : World

/-- An input that has been taken. -/
structure Taken where
  result : Option (Except Failure RunState)
  engine : Engine
  world : World

/-- What is seen after it. -/
def Taken.sight (x : Taken) : Sight :=
  ⟨x.result, x.engine.state, x.engine.error, x.engine.executed,
    Operation.contextsOfAll x.engine.continuation, x.world⟩

/-- A reply as the end of an input. -/
def Reply.taken (reply : Reply RunState) : Taken := ⟨some reply.result, reply.engine, reply.world⟩

namespace Engine

/-- The engine with branches on stacks of their own, or without. -/
def mode (e : Engine) (parallel : Bool) : Engine := { e with config := { e.config with parallel } }

/-- Takes one input. -/
def take (fuel : Nat) (e : Engine) (w : World) : Input → Option Taken
  | .start => (e.start fuel w).map Reply.taken
  | .step => (e.step fuel w).map Reply.taken
  | .ask r => some ⟨none, e, w.request ⟨w.token e.control, some e.control⟩ r⟩

/-- What is executed during a call. -/
def callDeeds (fuel : Nat) (budget : Option Nat) (e : Engine) (w : World) : List Deed :=
  if e.state.canRun then
    (e.setting.turns fuel budget e.continuation ⟨w, e.executed, false⟩).map Turn.deed
  else []

/-- What is executed during one input. -/
def inputDeeds (fuel : Nat) (e : Engine) (w : World) : Input → List Deed
  | .start => e.callDeeds fuel none w
  | .step => e.callDeeds fuel (some 1) w
  | .ask _ => []

/-- What is seen after each of several inputs. -/
def sights (fuel : Nat) : List Input → Engine → World → Option (List Sight)
  | [], _, _ => some []
  | i :: inputs, e, w =>
    match e.take fuel w i with
    | none => none
    | some x => (sights fuel inputs x.engine x.world).map (x.sight :: ·)

/-- What is executed during several inputs, as far as the calls return. -/
def deeds (fuel : Nat) : List Input → Engine → World → List Deed
  | [], _, _ => []
  | i :: inputs, e, w =>
    e.inputDeeds fuel w i ++ match e.take fuel w i with
      | none => []
      | some x => deeds fuel inputs x.engine x.world

variable {e : Engine} {w : World} {g : SharedGraph} {fuel fuel' : Nat} {call : EngineCall}
  {budget : Option Nat} {reply : Reply RunState} {i : Input} {inputs : List Input} {x : Taken}
  {l : List Deed}

/-! ## Inputs without fuel -/

/-- An input is taken so, with these deeds. -/
def Takes (e : Engine) (w : World) (i : Input) (l : List Deed) (x : Taken) : Prop :=
  ∃ fuel, e.take fuel w i = some x ∧ e.inputDeeds fuel w i = l

theorem callDeeds_mono (hle : fuel ≤ fuel') :
    e.callDeeds fuel budget w <+: e.callDeeds fuel' budget w := by
  unfold callDeeds
  split
  · exact (DrainSetting.turns_mono hle).map _
  · exact List.prefix_rfl

/-- A call that has returned has no more deeds with more fuel. -/
theorem callDeeds_eq (hle : fuel ≤ fuel') (h : e.run fuel call budget w = some reply) :
    e.callDeeds fuel' budget w = e.callDeeds fuel budget w := by
  unfold callDeeds
  cases hc : e.state.canRun with
  | false => rfl
  | true =>
      simp only [run, hc, if_true, Option.map_eq_some_iff] at h ⊢
      obtain ⟨z, hz, -⟩ := h
      rw [show e.setting.turns fuel' budget e.continuation ⟨w, e.executed, false⟩ = _ from
        (DrainSetting.drain_mono hle hz).2]
      rfl

theorem take_mono (hle : fuel ≤ fuel') (h : e.take fuel w i = some x) :
    e.take fuel' w i = some x ∧ e.inputDeeds fuel' w i = e.inputDeeds fuel w i := by
  cases i with
  | start =>
      obtain ⟨reply, hrun, rfl⟩ := Option.map_eq_some_iff.mp h
      exact ⟨Option.map_eq_some_iff.mpr ⟨reply, run_mono hle hrun, rfl⟩, callDeeds_eq hle hrun⟩
  | step =>
      obtain ⟨reply, hrun, rfl⟩ := Option.map_eq_some_iff.mp h
      exact ⟨Option.map_eq_some_iff.mpr ⟨reply, run_mono hle hrun, rfl⟩, callDeeds_eq hle hrun⟩
  | ask r => exact ⟨h, rfl⟩

theorem inputDeeds_mono (hle : fuel ≤ fuel') :
    e.inputDeeds fuel w i <+: e.inputDeeds fuel' w i := by
  cases i with
  | start => exact callDeeds_mono hle
  | step => exact callDeeds_mono hle
  | ask r => exact List.prefix_rfl

theorem Takes.unique {l' : List Deed} {x' : Taken} (h : e.Takes w i l x)
    (h' : e.Takes w i l' x') : l = l' ∧ x = x' := by
  obtain ⟨f, hx, rfl⟩ := h
  obtain ⟨f', hx', rfl⟩ := h'
  have h₁ := take_mono (Nat.le_max_left f f') hx
  have h₂ := take_mono (Nat.le_max_right f f') hx'
  exact ⟨h₁.2.symm.trans h₂.2, Option.some.inj (h₁.1.symm.trans h₂.1)⟩

theorem sights_mono (hle : fuel ≤ fuel') {ss : List Sight} (h : e.sights fuel inputs w = some ss) :
    e.sights fuel' inputs w = some ss := by
  induction inputs generalizing e w ss with
  | nil => exact h
  | cons i inputs ih =>
      cases hx : e.take fuel w i with
      | none => rw [sights, hx] at h; cases h
      | some x =>
          rw [sights, hx] at h
          obtain ⟨ss', hss, rfl⟩ := Option.map_eq_some_iff.mp h
          rw [sights, (take_mono hle hx).1]
          exact Option.map_eq_some_iff.mpr ⟨ss', ih hss, rfl⟩

theorem sights_cons_iff {ss : List Sight} : (∃ fuel, e.sights fuel (i :: inputs) w = some ss) ↔
    ∃ l x ss', e.Takes w i l x ∧ ss = x.sight :: ss' ∧
      ∃ fuel, x.engine.sights fuel inputs x.world = some ss' := by
  constructor
  · rintro ⟨fuel, h⟩
    cases hx : e.take fuel w i with
    | none => rw [sights, hx] at h; cases h
    | some x =>
        rw [sights, hx] at h
        obtain ⟨ss', hss, rfl⟩ := Option.map_eq_some_iff.mp h
        exact ⟨_, x, ss', ⟨fuel, hx, rfl⟩, rfl, fuel, hss⟩
  · rintro ⟨l, x, ss', ⟨fuel, hx, -⟩, rfl, fuel', hss⟩
    refine ⟨max fuel fuel', ?_⟩
    rw [sights, (take_mono (Nat.le_max_left fuel fuel') hx).1]
    exact Option.map_eq_some_iff.mpr ⟨ss', sights_mono (Nat.le_max_right fuel fuel') hss, rfl⟩

theorem deeds_mono (hle : fuel ≤ fuel') : e.deeds fuel inputs w <+: e.deeds fuel' inputs w := by
  induction inputs generalizing e w with
  | nil => exact List.prefix_rfl
  | cons i inputs ih =>
      rw [deeds, deeds]
      cases hx : e.take fuel w i with
      | none =>
          dsimp only
          rw [List.append_nil]
          exact (inputDeeds_mono hle).trans (List.prefix_append ..)
      | some x =>
          rw [(take_mono hle hx).1, (take_mono hle hx).2]
          exact (List.prefix_append_right_inj _).mpr ih

theorem deeds_cons_iff : (∃ fuel, l <+: e.deeds fuel (i :: inputs) w) ↔
    (∃ fuel, l <+: e.inputDeeds fuel w i) ∨ ∃ l₁ x l₂, e.Takes w i l₁ x ∧ l = l₁ ++ l₂ ∧
      ∃ fuel, l₂ <+: x.engine.deeds fuel inputs x.world := by
  constructor
  · rintro ⟨fuel, h⟩
    rw [deeds] at h
    rcases DrainSetting.prefix_append_cases h with h' | ⟨l₂, rfl, h'⟩
    · exact .inl ⟨fuel, h'⟩
    · cases hx : e.take fuel w i with
      | none =>
          rw [hx] at h'
          rw [List.prefix_nil.mp h', List.append_nil]
          exact .inl ⟨fuel, List.prefix_rfl⟩
      | some x =>
          rw [hx] at h'
          exact .inr ⟨_, x, l₂, ⟨fuel, hx, rfl⟩, rfl, fuel, h'⟩
  · rintro (⟨fuel, h⟩ | ⟨l₁, x, l₂, ⟨fuel, hx, rfl⟩, rfl, fuel', h⟩)
    · exact ⟨fuel, h.trans (List.prefix_append ..)⟩
    · refine ⟨max fuel fuel', ?_⟩
      have hmore := take_mono (Nat.le_max_left fuel fuel') hx
      rw [deeds, hmore.1, hmore.2]
      exact (List.prefix_append_right_inj _).mpr
        (h.trans (deeds_mono (Nat.le_max_right fuel fuel')))

/-! ## One input -/

/-- The engine with branches on stacks of their own and a packed stack. -/
def packed (e : Engine) (folded : List Operation) : Engine :=
  { e.mode true with continuation := folded }

/-- The engine without them takes the same inputs as one with them and a
packed stack: what is pending is of one graph, and the control is there. -/
structure Packs (g : SharedGraph) (e : Engine) (folded : List Operation) (w : World) : Prop where
  inPlace : e.config.parallel = false
  folds : Folds folded e.continuation
  runIn : Operation.AllRunIn e.continuation g
  has : w.Has e.control

variable {folded : List Operation} {d d' : Drained} {p : Progress}

theorem takes_iff (h : e.state.canRun = true) :
    (∃ fuel, (e.run fuel call budget w).map Reply.taken = some x ∧
      e.callDeeds fuel budget w = l) ↔
      ∃ z, e.setting.Ends budget e.continuation ⟨w, e.executed, false⟩ l z ∧
        x = (e.afterDrain z).taken := by
  simp only [run, callDeeds, h, if_true, Option.map_map, Option.map_eq_some_iff]
  constructor
  · rintro ⟨fuel, ⟨z, hz, rfl⟩, rfl⟩
    exact ⟨z, ⟨fuel, hz, rfl⟩, rfl⟩
  · rintro ⟨z, ⟨fuel, hz, rfl⟩, rfl⟩
    exact ⟨fuel, ⟨z, hz, rfl⟩, rfl⟩

theorem takes_refused (h : e.state.canRun = false) :
    (∃ fuel, (e.run fuel call budget w).map Reply.taken = some x ∧
      e.callDeeds fuel budget w = l) ↔
      x = ⟨some (.error (.invalidState call e.state)), e, w⟩ ∧ l = [] := by
  simp only [run_refused h, callDeeds, h]
  constructor
  · rintro ⟨fuel, hx, hl⟩
    cases hx
    exact ⟨rfl, hl.symm⟩
  · rintro ⟨rfl, rfl⟩
    exact ⟨0, rfl, rfl⟩

namespace Packs

variable (hp : Packs g e folded w)
include hp

theorem setting_mode : e.setting.mode false = e.setting := by
  unfold DrainSetting.mode setting
  rw [← hp.inPlace]

/-- Two drains that end alike leave the engines so. -/
theorem afterDrain (hakin : DrainSetting.Akin d' d) (hrun : Operation.AllRunIn d.stack g)
    (hhas : d.progress.world.Has e.control) :
    ∃ folded', Packs g (e.afterDrain d).engine folded' (e.afterDrain d).world ∧
      ((e.packed folded).afterDrain d').taken =
        ⟨some (e.afterDrain d).result, (e.afterDrain d).engine.packed folded',
          (e.afterDrain d).world⟩ := by
  obtain ⟨o, stack', q⟩ := d'
  obtain ⟨o', stack, q'⟩ := d
  obtain ⟨ho, hq, hfold⟩ := hakin
  obtain rfl : o = o' := ho
  obtain rfl : q = q' := hq
  change Folds stack' stack at hfold
  change Operation.AllRunIn stack g at hrun
  change q.world.Has e.control at hhas
  have hempty : stack'.isEmpty = stack.isEmpty := by
    rw [Bool.eq_iff_iff, List.isEmpty_iff, List.isEmpty_iff]
    exact hfold.eq_nil_iff
  cases o with
  | ended halt =>
      have hworld : (if halt = some .pause then q.world.clearPause e.control
          else q.world).Has e.control := by
        split
        · exact hhas.clearPause
        · exact hhas
      have hkeep : ∀ state, Packs g { e with
            executed := q.executed, hasRun := true, state, continuation := stack } stack'
          (if halt = some .pause then q.world.clearPause e.control else q.world) :=
        fun state => ⟨hp.inPlace, hfold, hrun, hworld⟩
      have hdrop : ∀ state, Packs g { e with
            executed := q.executed, hasRun := true, state, continuation := [] } []
          (if halt = some .pause then q.world.clearPause e.control else q.world) :=
        fun state => ⟨hp.inPlace, .nil, Operation.allRunIn_nil, hworld⟩
      unfold Engine.afterDrain Reply.taken settle
      dsimp only
      rw [hempty]
      rcases halt with _ | _ | _ | _ | _ | _ | _
      · exact ⟨stack', hkeep _, rfl⟩
      · exact ⟨stack', hkeep _, rfl⟩
      · exact ⟨[], hdrop _, rfl⟩
      · exact ⟨[], hdrop _, rfl⟩
      · exact ⟨[], hdrop _, rfl⟩
      · exact ⟨stack', hkeep _, rfl⟩
      · exact ⟨stack', hkeep _, rfl⟩
  | failed f =>
      cases f with
      | cancelled =>
          exact ⟨[], ⟨hp.inPlace, .nil, Operation.allRunIn_nil, hhas⟩, rfl⟩
      | _ => exact ⟨stack', ⟨hp.inPlace, hfold, hrun, hhas⟩, rfl⟩

/-- A call that the state allows, given how the drains of it correspond. -/
theorem call_mirrored (hg : g.Candid) (hc : e.state.canRun = true)
    (hends : ∀ l d, e.setting.Ends budget e.continuation ⟨w, e.executed, false⟩ l d →
      ∃ d', (e.setting.mode true).Ends budget folded ⟨w, e.executed, false⟩ l d' ∧
        DrainSetting.Akin d' d)
    (h : ∃ fuel, (e.run fuel call budget w).map Reply.taken = some x ∧
      e.callDeeds fuel budget w = l) :
    ∃ folded', Packs g x.engine folded' x.world ∧ ∃ fuel,
      ((e.packed folded).run fuel call budget w).map Reply.taken =
          some ⟨x.result, x.engine.packed folded', x.world⟩ ∧
        (e.packed folded).callDeeds fuel budget w = l := by
  obtain ⟨z, hz, rfl⟩ := (takes_iff hc).mp h
  obtain ⟨z', hz', hakin⟩ := hends l z hz
  have hkeeps := DrainSetting.ends_keeps hg hz hp.runIn hp.has
  obtain ⟨folded', hp', heq⟩ := hp.afterDrain hakin hkeeps.1 hkeeps.2
  refine ⟨folded', hp', ?_⟩
  exact (takes_iff (e := e.packed folded) hc).mpr ⟨z', hz', heq.symm⟩

/-- What the drains of one call have in common, given that the one without
branches of their own does not run into the bound. -/
theorem drains (hg : g.Candid)
    (hb : budget = none ∨ budget = some 1)
    (hroom : ∀ l d, e.setting.Ends budget e.continuation ⟨w, e.executed, false⟩ l d →
      ¬ e.setting.Overflow d.outcome) :
    (∀ l d, e.setting.Ends budget e.continuation ⟨w, e.executed, false⟩ l d →
      ∃ d', (e.setting.mode true).Ends budget folded ⟨w, e.executed, false⟩ l d' ∧
        DrainSetting.Akin d' d) ∧
    (∀ l d', (e.setting.mode true).Ends budget folded ⟨w, e.executed, false⟩ l d' →
      ∃ d, e.setting.Ends budget e.continuation ⟨w, e.executed, false⟩ l d) ∧
    ∀ l, (e.setting.mode true).Begins budget folded ⟨w, e.executed, false⟩ l ↔
      e.setting.Begins budget e.continuation ⟨w, e.executed, false⟩ l := by
  rw [← hp.setting_mode] at hroom ⊢
  rcases hb with rfl | rfl
  · refine ⟨fun l d h => ?_, fun l d' h => ?_, fun l => ?_⟩
    · exact DrainSetting.folds_ends_of hg hp.folds hp.runIn hp.has hroom h
    · obtain ⟨d, hd, -⟩ := DrainSetting.folds_ends hg hp.folds hp.runIn hp.has hroom h
      exact ⟨d, hd⟩
    · exact DrainSetting.folds_begins_iff hg hp.folds hp.runIn hp.has hroom
  · obtain ⟨l₀, d₀', d₀, h', h, hakin⟩ :=
      DrainSetting.step_folds (p := ⟨w, e.executed, false⟩) e.setting hp.folds hroom
    refine ⟨fun l d hd => ?_, fun l d' hd => ?_, fun l => ?_⟩
    · obtain ⟨rfl, rfl⟩ := h.unique hd
      exact ⟨d₀', h', hakin⟩
    · obtain ⟨rfl, rfl⟩ := h'.unique hd
      exact ⟨d₀, h⟩
    · exact h'.begins_iff.trans h.begins_iff.symm

/-- A call, allowed or not. -/
theorem call_agrees (hg : g.Candid) (hb : budget = none ∨ budget = some 1)
    (hroom : ∀ l x, (∃ fuel, (e.run fuel call budget w).map Reply.taken = some x ∧
      e.callDeeds fuel budget w = l) → ∀ f, x.result = some (.error f) →
        ¬ e.setting.Overflow (.failed f)) :
    (∀ l x, (∃ fuel, (e.run fuel call budget w).map Reply.taken = some x ∧
        e.callDeeds fuel budget w = l) →
      ∃ folded', Packs g x.engine folded' x.world ∧ ∃ fuel,
        ((e.packed folded).run fuel call budget w).map Reply.taken =
            some ⟨x.result, x.engine.packed folded', x.world⟩ ∧
          (e.packed folded).callDeeds fuel budget w = l) ∧
    (∀ l x', (∃ fuel, ((e.packed folded).run fuel call budget w).map Reply.taken = some x' ∧
        (e.packed folded).callDeeds fuel budget w = l) →
      ∃ x fuel, (e.run fuel call budget w).map Reply.taken = some x ∧
        e.callDeeds fuel budget w = l) ∧
    ∀ l, (∃ fuel, l <+: (e.packed folded).callDeeds fuel budget w) ↔
      ∃ fuel, l <+: e.callDeeds fuel budget w := by
  cases hc : e.state.canRun with
  | false =>
      have hc' : (e.packed folded).state.canRun = false := hc
      refine ⟨fun l x h => ?_, fun l x' h => ?_, fun l => ?_⟩
      · obtain ⟨rfl, rfl⟩ := (takes_refused hc).mp h
        exact ⟨folded, hp, (takes_refused hc').mpr ⟨rfl, rfl⟩⟩
      · obtain ⟨-, rfl⟩ := (takes_refused hc').mp h
        exact ⟨_, (takes_refused hc).mpr ⟨rfl, rfl⟩⟩
      · unfold callDeeds
        rw [hc, hc']
        exact Iff.rfl
  | true =>
      have hc' : (e.packed folded).state.canRun = true := hc
      have hroom' : ∀ l d, e.setting.Ends budget e.continuation ⟨w, e.executed, false⟩ l d →
          ¬ e.setting.Overflow d.outcome := by
        intro l d hd hover
        have htaken : ∃ fuel, (e.run fuel call budget w).map Reply.taken =
            some (e.afterDrain d).taken ∧ e.callDeeds fuel budget w = l :=
          (takes_iff hc).mpr ⟨d, hd, rfl⟩
        obtain ⟨operator, ho⟩ := hover
        refine hroom l _ htaken _ ?_ ⟨operator, rfl⟩
        obtain ⟨o, stack, q⟩ := d
        obtain rfl : o = _ := ho
        rfl
      obtain ⟨hto, hfrom, hbegins⟩ := hp.drains hg hb hroom'
      refine ⟨fun l x h => hp.call_mirrored hg hc hto h, fun l x' h => ?_, fun l => ?_⟩
      · obtain ⟨z', hz', -⟩ := (takes_iff hc').mp h
        obtain ⟨z, hz⟩ := hfrom l z' hz'
        exact ⟨_, (takes_iff hc).mpr ⟨z, hz, rfl⟩⟩
      · simp only [callDeeds, hc, hc', if_true]
        exact hbegins l

/-- **One input.** What the engine without branches of their own takes, the
other one takes too, with the same deeds, and goes on packed; and the other
way round. -/
theorem take (hg : g.Candid) (i : Input)
    (hroom : ∀ l x, e.Takes w i l x → ∀ f, x.result = some (.error f) →
      ¬ e.setting.Overflow (.failed f)) :
    (∀ l x, e.Takes w i l x → ∃ folded', Packs g x.engine folded' x.world ∧
      (e.packed folded).Takes w i l ⟨x.result, x.engine.packed folded', x.world⟩) ∧
    (∀ l x', (e.packed folded).Takes w i l x' → ∃ x, e.Takes w i l x) ∧
    ∀ l, (∃ fuel, l <+: (e.packed folded).inputDeeds fuel w i) ↔
      ∃ fuel, l <+: e.inputDeeds fuel w i := by
  cases i with
  | start => exact hp.call_agrees hg (.inl rfl) hroom
  | step => exact hp.call_agrees hg (.inr rfl) hroom
  | ask r =>
      refine ⟨?_, ?_, fun l => Iff.rfl⟩
      · rintro l x ⟨fuel, hx, rfl⟩
        cases hx
        have hgrows := World.grows_request hp.has r
        exact ⟨folded, ⟨hp.inPlace, hp.folds, hp.runIn, hgrows.has hp.has⟩, fuel, rfl, rfl⟩
      · rintro l x' ⟨fuel, -, rfl⟩
        exact ⟨_, fuel, rfl, rfl⟩

end Packs

/-! ## Several inputs -/

/-- No call of an engine on these inputs runs into the bound on the stack. -/
def Unhit (e : Engine) (w : World) (inputs : List Input) : Prop :=
  ∀ fuel ss, e.sights fuel inputs w = some ss → ∀ s ∈ ss, ∀ f, s.result = some (.error f) →
    ¬ e.setting.Overflow (.failed f)

/-- An engine that cannot run takes every input. -/
theorem sights_of_stuck (h : e.state.canRun = false) (inputs : List Input) (w : World) :
    ∃ ss, e.sights 0 inputs w = some ss := by
  induction inputs generalizing w with
  | nil => exact ⟨[], rfl⟩
  | cons i inputs ih =>
      cases i with
      | start =>
          obtain ⟨ss, hss⟩ := ih w
          refine ⟨Taken.sight ⟨some (.error (.invalidState .start e.state)), e, w⟩ :: ss, ?_⟩
          rw [sights, Engine.take, start, run_refused h]
          exact Option.map_eq_some_iff.mpr ⟨ss, hss, rfl⟩
      | step =>
          obtain ⟨ss, hss⟩ := ih w
          refine ⟨Taken.sight ⟨some (.error (.invalidState .step e.state)), e, w⟩ :: ss, ?_⟩
          rw [sights, Engine.take, step, run_refused h]
          exact Option.map_eq_some_iff.mpr ⟨ss, hss, rfl⟩
      | ask r =>
          obtain ⟨ss, hss⟩ := ih (w.request ⟨w.token e.control, some e.control⟩ r)
          exact ⟨Taken.sight ⟨none, e, w.request ⟨w.token e.control, some e.control⟩ r⟩ :: ss,
            Option.map_eq_some_iff.mpr ⟨ss, hss, rfl⟩⟩

theorem run_setting (h : e.run fuel call budget w = some reply) :
    reply.engine.setting = e.setting := by
  unfold run at h
  split at h
  · obtain ⟨z, -, rfl⟩ := Option.map_eq_some_iff.mp h
    unfold afterDrain
    split <;> rfl
  · cases h
    rfl

theorem Takes.setting (h : e.Takes w i l x) : x.engine.setting = e.setting := by
  obtain ⟨fuel, hx, -⟩ := h
  cases i with
  | start =>
      obtain ⟨reply, hrun, rfl⟩ := Option.map_eq_some_iff.mp hx
      exact run_setting hrun
  | step =>
      obtain ⟨reply, hrun, rfl⟩ := Option.map_eq_some_iff.mp hx
      exact run_setting hrun
  | ask r => cases hx; rfl

/-- A call that runs into the bound leaves an engine that cannot run. -/
theorem run_stuck {f : Failure} (h : e.run fuel call budget w = some reply)
    (hf : reply.result = .error f) (hover : e.setting.Overflow (.failed f)) :
    reply.engine.state.canRun = false := by
  unfold run at h
  split at h
  · obtain ⟨z, -, rfl⟩ := Option.map_eq_some_iff.mp h
    obtain ⟨o, stack, q⟩ := z
    cases o with
    | ended halt => cases hf
    | failed f' => cases f' <;> first | rfl | cases hf
  · cases h
    cases hf
    obtain ⟨operator, ho⟩ := hover
    cases ho

theorem Unhit.first (h : e.Unhit w (i :: inputs)) : ∀ l x, e.Takes w i l x →
    ∀ f, x.result = some (.error f) → ¬ e.setting.Overflow (.failed f) := by
  intro l x hx f hf hover
  have hstuck : x.engine.state.canRun = false := by
    obtain ⟨fuel, htake, -⟩ := hx
    cases i with
    | start =>
        obtain ⟨reply, hrun, rfl⟩ := Option.map_eq_some_iff.mp htake
        exact run_stuck hrun (Option.some.inj hf) hover
    | step =>
        obtain ⟨reply, hrun, rfl⟩ := Option.map_eq_some_iff.mp htake
        exact run_stuck hrun (Option.some.inj hf) hover
    | ask r => cases htake; cases hf
  obtain ⟨ss, hss⟩ := sights_of_stuck hstuck inputs x.world
  obtain ⟨fuel, hall⟩ := sights_cons_iff.mpr ⟨l, x, ss, hx, rfl, 0, hss⟩
  exact h fuel _ hall x.sight List.mem_cons_self f hf hover

theorem Unhit.rest (h : e.Unhit w (i :: inputs)) (hx : e.Takes w i l x) :
    x.engine.Unhit x.world inputs := by
  intro fuel ss hss s hs f hf
  obtain ⟨fuel', hall⟩ := sights_cons_iff.mpr ⟨l, x, ss, hx, rfl, fuel, hss⟩
  rw [hx.setting]
  exact h fuel' _ hall s (List.mem_cons_of_mem _ hs) f hf

theorem packed_sight {e : Engine} {folded : List Operation} (h : Folds folded e.continuation)
    (result : Option (Except Failure RunState)) (w : World) :
    (Taken.mk result (e.packed folded) w).sight = (Taken.mk result e w).sight := by
  unfold Taken.sight packed mode
  dsimp only
  rw [h.contexts]

/-- Several inputs: the same is seen after each of them, and the same is
executed. -/
theorem Packs.agree (hg : g.Candid) (inputs : List Input) {e : Engine} {folded : List Operation}
    {w : World} (hp : Packs g e folded w) (hroom : e.Unhit w inputs) :
    (∀ ss, (∃ fuel, (e.packed folded).sights fuel inputs w = some ss) ↔
      ∃ fuel, e.sights fuel inputs w = some ss) ∧
    ∀ l, (∃ fuel, l <+: (e.packed folded).deeds fuel inputs w) ↔
      ∃ fuel, l <+: e.deeds fuel inputs w := by
  induction inputs generalizing e folded w with
  | nil => exact ⟨fun ss => Iff.rfl, fun l => Iff.rfl⟩
  | cons i inputs ih =>
      obtain ⟨hto, hfrom, hdeeds⟩ := hp.take hg i hroom.first
      have hrest : ∀ {l x}, e.Takes w i l x → ∃ folded',
          (e.packed folded).Takes w i l ⟨x.result, x.engine.packed folded', x.world⟩ ∧
          Folds folded' x.engine.continuation ∧
          (∀ ss, (∃ fuel, (x.engine.packed folded').sights fuel inputs x.world = some ss) ↔
            ∃ fuel, x.engine.sights fuel inputs x.world = some ss) ∧
          ∀ l, (∃ fuel, l <+: (x.engine.packed folded').deeds fuel inputs x.world) ↔
            ∃ fuel, l <+: x.engine.deeds fuel inputs x.world := by
        intro l x hx
        obtain ⟨folded', hp', hx'⟩ := hto l x hx
        exact ⟨folded', hx', hp'.folds, ih hp' (hroom.rest hx)⟩
      refine ⟨fun ss => ?_, fun l => ?_⟩
      · rw [sights_cons_iff, sights_cons_iff]
        constructor
        · rintro ⟨l, x', ss', hx', rfl, hss⟩
          obtain ⟨x, hx⟩ := hfrom l x' hx'
          obtain ⟨folded', hx'', hfolds, hsights, -⟩ := hrest hx
          obtain ⟨-, rfl⟩ := hx'.unique hx''
          exact ⟨l, x, ss', hx, by rw [packed_sight hfolds], (hsights ss').mp hss⟩
        · rintro ⟨l, x, ss', hx, rfl, hss⟩
          obtain ⟨folded', hx', hfolds, hsights, -⟩ := hrest hx
          exact ⟨l, _, ss', hx', by rw [packed_sight hfolds], (hsights ss').mpr hss⟩
      · rw [deeds_cons_iff, deeds_cons_iff, hdeeds]
        refine or_congr Iff.rfl ?_
        constructor
        · rintro ⟨l₁, x', l₂, hx', rfl, hl⟩
          obtain ⟨x, hx⟩ := hfrom l₁ x' hx'
          obtain ⟨folded', hx'', -, -, hlater⟩ := hrest hx
          obtain ⟨-, rfl⟩ := hx'.unique hx''
          exact ⟨l₁, x, l₂, hx, rfl, (hlater l₂).mp hl⟩
        · rintro ⟨l₁, x, l₂, hx, rfl, hl⟩
          obtain ⟨folded', hx', -, -, hlater⟩ := hrest hx
          exact ⟨l₁, _, l₂, hx', rfl, (hlater l₂).mpr hl⟩

/-! ## Prepared engines -/

/-- Preparing does not ask for the mode. -/
theorem prepare_mode (e : Engine) (parallel : Bool) (g : SharedGraph) (s : ScopeId) (w : World) :
    (e.mode parallel).prepare g s w =
      { e.prepare g s w with engine := (e.prepare g s w).engine.mode parallel } := by
  unfold prepare
  split
  · next hrunning => rw [if_pos (show e.state = .running from hrunning)]; rfl
  · next hrunning =>
      rw [if_neg (show ¬ e.state = .running from hrunning)]
      cases g.graph.validate w.heap <;> rfl

/-- A prepared engine without branches of their own, and the same one with
them: nothing is packed yet. -/
theorem prepare_packs {e₀ e : Engine} {s : ScopeId} {w₀ : World} {events : List Event}
    (hprep : (e₀.mode false).prepare g s w₀ = ⟨.ok (), e, w, events⟩) (hhas : w₀.Has e₀.control) :
    Packs g e e.continuation w := by
  obtain ⟨rfl, rfl⟩ := prepare_ok hprep
  refine ⟨rfl, .refl _, firstOperations_runIn g s w₀.heap, World.Has.resetControl ?_⟩
  exact ⟨hhas.control, hhas.token⟩

/-- **Parallel dispatch refines sequential dispatch.** Prepare an engine to
drain branches on stacks of their own, and one to drain them in place, and
give both the same calls and requests. Unless the latter runs into the bound on
the stack, the same is seen of both after each input, pending operators and
world included, and the same operators are executed in the same contexts and
order, also by calls that never return. -/
theorem dispatch_agrees {e₀ par seq : Engine} {s : ScopeId} {w₀ w w' : World}
    {events events' : List Event}
    (hpar : (e₀.mode true).prepare g s w₀ = ⟨.ok (), par, w, events⟩)
    (hseq : (e₀.mode false).prepare g s w₀ = ⟨.ok (), seq, w', events'⟩)
    (hhas : w₀.Has e₀.control) (hg : g.Candid) (inputs : List Input)
    (hroom : seq.Unhit w' inputs) :
    (∀ ss, (∃ fuel, par.sights fuel inputs w = some ss) ↔
      ∃ fuel, seq.sights fuel inputs w' = some ss) ∧
    ∀ l, (∃ fuel, l <+: par.deeds fuel inputs w) ↔
      ∃ fuel, l <+: seq.deeds fuel inputs w' := by
  have hagree := (prepare_packs hseq hhas).agree hg inputs hroom
  have hsame : par = seq.packed seq.continuation ∧ w = w' := by
    rw [prepare_mode] at hpar hseq
    generalize e₀.prepare g s w₀ = reply at hpar hseq
    obtain ⟨result, e, w₁, events₁⟩ := reply
    cases hpar
    cases hseq
    exact ⟨rfl, rfl⟩
  rw [hsame.1, hsame.2]
  exact hagree

/-- What has been seen once shows whether the bound has been hit. -/
theorem unhit_of_sights {ss : List Sight} (h : e.sights fuel inputs w = some ss)
    (hall : ∀ s ∈ ss, ∀ f, s.result ≠ some (.error f)) : e.Unhit w inputs := by
  intro fuel' ss' h' s hs f hf
  have h₁ := sights_mono (Nat.le_max_left fuel fuel') h
  have h₂ := sights_mono (Nat.le_max_right fuel fuel') h'
  obtain rfl := Option.some.inj (h₁.symm.trans h₂)
  exact absurd hf (hall s hs f)

end Engine

namespace Sample

/-- A parallel collection of two operators: the first one asks for a pause. -/
def branchingGraph : SharedGraph :=
  ⟨⟨0⟩, ⟨"Branches", .empty,
    #[⟨"Branches", ⟨[{ Parameter.lookup "Parallel" .bool with fixed := some ⟨0⟩ }]⟩, none,
        .subScopes [⟨1⟩, ⟨2⟩]⟩,
      ⟨"First", .empty, none, .leaf (.request .pause .done)⟩, ⟨"Second", .empty, none, .leaf .done⟩],
    some ⟨0⟩⟩⟩

/-- A scope with two sub-scopes, an item that holds true, and a control. -/
def branchingWorld : World :=
  { World.empty.newControl.2 with
    heap := ⟨#[.bool true],
      #[⟨"Global", .empty, [⟨1⟩, ⟨2⟩], none⟩, ⟨"A", .empty, [], some ⟨0⟩⟩,
        ⟨"B", .empty, [], some ⟨0⟩⟩], 0, 1⟩ }

/-- A pause in the first branch, a step and a start: both engines show the
same after each of them. -/
theorem dispatch_agrees_branching :
    ∃ par seq w w' events events',
      ((Engine.ofConfig .standard ⟨0⟩).mode true).prepare branchingGraph ⟨0⟩ branchingWorld =
          ⟨.ok (), par, w, events⟩ ∧
      ((Engine.ofConfig .standard ⟨0⟩).mode false).prepare branchingGraph ⟨0⟩ branchingWorld =
          ⟨.ok (), seq, w', events'⟩ ∧
      ∃ ss : List Sight, ss.map (fun s => (s.result, s.executed)) =
          [(some (.ok .paused), 2), (some (.ok .stopped), 3), (none, 3)] ∧
        (∃ fuel, par.sights fuel [.start, .step, .ask .stop] w = some ss) ∧
        ∃ fuel, seq.sights fuel [.start, .step, .ask .stop] w' = some ss := by
  have hprep : ∃ par seq w w' events events',
      ((Engine.ofConfig .standard ⟨0⟩).mode true).prepare branchingGraph ⟨0⟩ branchingWorld =
          ⟨.ok (), par, w, events⟩ ∧
      ((Engine.ofConfig .standard ⟨0⟩).mode false).prepare branchingGraph ⟨0⟩ branchingWorld =
          ⟨.ok (), seq, w', events'⟩ ∧
      (seq.sights 9 [.start, .step, .ask .stop] w').map
          (List.map fun s => (s.result, s.executed)) =
        some [(some (.ok .paused), 2), (some (.ok .stopped), 3), (none, 3)] :=
    ⟨_, _, _, _, _, _, rfl, rfl, rfl⟩
  obtain ⟨par, seq, w, w', events, events', hpar, hseq, hseen⟩ := hprep
  obtain ⟨ss, hss, hmap⟩ := Option.map_eq_some_iff.mp hseen
  have hroom : seq.Unhit w' [.start, .step, .ask .stop] := by
    refine Engine.unhit_of_sights hss fun s hs f hf => ?_
    have hmem := List.mem_map_of_mem (f := fun s : Sight => (s.result, s.executed)) hs
    rw [hmap] at hmem
    simp [hf] at hmem
  have hhas : branchingWorld.Has ⟨0⟩ := ⟨by decide, by decide⟩
  have hcandid : branchingGraph.Candid := by
    intro op hop
    simp only [branchingGraph, List.mem_toArray, List.mem_cons, List.not_mem_nil, or_false] at hop
    rcases hop with rfl | rfl | rfl <;> trivial
  have hagree := Engine.dispatch_agrees hpar hseq hhas hcandid [.start, .step, .ask .stop] hroom
  exact ⟨par, seq, w, w', events, events', hpar, hseq, ss, hmap,
    (hagree.1 ss).mpr ⟨9, hss⟩, ⟨9, hss⟩⟩

end Sample

end ScopeFlow
