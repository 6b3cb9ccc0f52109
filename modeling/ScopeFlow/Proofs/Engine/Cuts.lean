import ScopeFlow.Proofs.Control.Pause
import ScopeFlow.Proofs.Engine.Calls
import ScopeFlow.Proofs.Operator.BuiltIn

/-!
# Runs cut into pieces

A run of built-in operators may be cut into single steps and resumed starts,
with requests for a pause in between, and comes to the same as one start.

* `Along` is the invariant: the engine stands where the uninterrupted run
  stands after as many operators, apart from a request for a pause;
* `Poised.cutOnce`: each call keeps to it, or ends as the uninterrupted run ends;
* `cut_run_agrees`: so does every list of calls and requests.
-/

namespace ScopeFlow

/-- A call that a run is cut into, or a request for a pause made in between. -/
inductive Cut where
  | pause
  | start
  | step
deriving DecidableEq

namespace Engine

/-- One call or request. -/
def cutOnce (fuel : Nat) (e : Engine) (w : World) : Cut → Option (Engine × World)
  | .pause => some (e, w.pause e.control)
  | .start => (e.start fuel w).map fun reply => (reply.engine, reply.world)
  | .step => (e.step fuel w).map fun reply => (reply.engine, reply.world)

/-- Calls and requests, each on what the one before has left. -/
def cut (fuel : Nat) : List Cut → Engine → World → Option (Engine × World)
  | [], e, w => some (e, w)
  | c :: cuts, e, w =>
    match e.cutOnce fuel w c with
    | none => none
    | some (e, w) => cut fuel cuts e w

variable {e e' e'' : Engine} {w w' w'' : World} {g : SharedGraph} {fuel n : Nat}
  {call : EngineCall} {budget : Option Nat} {reply : Reply RunState} {z : Drained}

theorem cut_cons {c : Cut} {cuts : List Cut} {x : Engine × World} :
    e.cut fuel (c :: cuts) w = some x ↔
      ∃ y, e.cutOnce fuel w c = some y ∧ y.1.cut fuel cuts y.2 = some x := by
  rw [cut]
  cases e.cutOnce fuel w c with
  | none => simp
  | some y => simp

/-! ## Where an engine stands -/

/-- What a call does not depend on where the engine stands. -/
structure Akin (e e' : Engine) : Prop where
  config : e'.config = e.config
  graph : e'.graph = e.graph
  scope : e'.scope = e.scope
  control : e'.control = e.control
  error : e'.error = e.error

theorem Akin.setting (h : e.Akin e') : e'.setting = e.setting := by
  rw [Engine.setting, Engine.setting, h.config, h.control]

/-- A call that does not fail changes nothing that calls do not depend on. -/
theorem akin_afterDrain {s : RunState} (h : (e.afterDrain z).result = .ok s) :
    e.Akin (e.afterDrain z).engine := by
  unfold Engine.afterDrain at h ⊢
  split at h
  · exact ⟨rfl, rfl, rfl, rfl, rfl⟩
  · exact ⟨rfl, rfl, rfl, rfl, rfl⟩
  · cases h

theorem Akin.trans (h : e.Akin e') (h' : e'.Akin e'') : e.Akin e'' :=
  ⟨h'.config.trans h.config, h'.graph.trans h.graph, h'.scope.trans h.scope,
    h'.control.trans h.control, h'.error.trans h.error⟩

theorem Akin.afterDrain (h : e.Akin e') (z : Drained) : e'.afterDrain z = e.afterDrain z := by
  obtain ⟨config, state, graph, scope, continuation, control, error, executed, hasRun⟩ := e
  obtain ⟨config', state', graph', scope', continuation', control', error', executed', hasRun'⟩ := e'
  obtain ⟨rfl, rfl, rfl, rfl, rfl⟩ := h
  rfl

/-! ## How a run ends -/

/-- A drain that has not been asked for a pause runs dry, is stopped, or
fails. -/
inductive Final (z : Drained) : Prop
  | dry : z.outcome = .ended none → z.stack = [] → Final z
  | stopped (why : Halt) : z.outcome = .ended (some why) →
      why = .stop ∨ why = .abort ∨ why = .cancel → Final z
  | failed (failure : Failure) : z.outcome = .failed failure → Final z

theorem Final.state (h : Final z) (e : Engine) : (e.afterDrain z).engine.state.canRun = false := by
  obtain ⟨outcome, stack, p⟩ := z
  cases h with
  | dry ho hs =>
      obtain rfl : outcome = _ := ho
      obtain rfl : stack = _ := hs
      rfl
  | stopped why ho hw =>
      obtain rfl : outcome = _ := ho
      rcases hw with rfl | rfl | rfl <;> rfl
  | failed failure ho =>
      obtain rfl : outcome = _ := ho
      unfold afterDrain
      cases failure <;> first | rfl | (dsimp only; split <;> rfl)

theorem Final.world (h : Final z) (e : Engine) : (e.afterDrain z).world = z.progress.world := by
  obtain ⟨outcome, stack, p⟩ := z
  cases h with
  | dry ho hs =>
      obtain rfl : outcome = _ := ho
      rfl
  | stopped why ho hw =>
      obtain rfl : outcome = _ := ho
      rcases hw with rfl | rfl | rfl <;> rfl
  | failed failure ho =>
      obtain rfl : outcome = _ := ho
      cases failure <;> rfl

variable {r : DrainSetting} {stack : List Operation} {p : Progress}

theorem final_of_stalls (h : r.Stalls stack p z) (hp : p.fault = false)
    (hw : (p.world.control r.control).pause = false) : Final z := by
  induction h with
  | nil q => exact .dry rfl rfl
  | @halt op rest q why hm =>
      refine .stopped why rfl ?_
      obtain hh | ⟨-, hfault, -⟩ :=
        DrainSetting.halts?_eq_some_iff.mp (DrainSetting.move_eq_halt.mp hm)
      · have hne : why ≠ .pause := by
          rintro rfl
          rw [World.pause_of_halt? hh] at hw
          cases hw
        unfold World.halt? at hh
        grind
      · rw [hp] at hfault
        cases hfault
  | unpack _ _ ih => exact ih hp hw
  | error _ _ => exact .failed _ rfl

theorem final_of_runs (hg : g.BuiltIn) (h : r.Runs n stack p z)
    (hs : Operation.AllRunIn stack g) (hp : p.fault = false)
    (hw : (p.world.control r.control).pause = false) : Final z := by
  induction h with
  | stall h => exact final_of_stalls h hp hw
  | fire hf _ ih =>
      obtain ⟨hs', hw', hp'⟩ := hf.builtIn hg hs
      exact ih hs' (hp'.trans hp) (by rw [hw'.control]; exact hw)

/-! ## Along an uninterrupted run -/

/-- An engine about to run built-in operators with every collection drained in
place, and not asked for a pause. -/
structure Poised (e : Engine) (w : World) (g : SharedGraph) : Prop where
  canRun : e.state.canRun = true
  inPlace : e.config.parallel = false
  builtIn : g.BuiltIn
  pending : Operation.AllRunIn e.continuation g
  unpaused : (w.control e.control).pause = false

/-- An engine that stands where another one's uninterrupted run stands after
`n` operators, apart from a request for a pause. -/
structure Along (e : Engine) (w : World) (n : Nat) (e' : Engine) (w' : World) : Prop where
  canRun : e'.state.canRun = true
  akin : e.Akin e'
  after : e.setting.After n e.continuation ⟨w, e.executed, false⟩
    e'.continuation ⟨w'.clearPause e.control, e'.executed, false⟩

/-- An engine that has ended as another one's uninterrupted run ends. -/
structure Over (e : Engine) (w : World) (e' : Engine) (w' : World) : Prop where
  ended : e'.state.canRun = false
  run : ∃ n z, e.setting.Runs n e.continuation ⟨w, e.executed, false⟩ z ∧
    e' = (e.afterDrain z).engine ∧
    w'.clearPause e.control = (e.afterDrain z).world.clearPause e.control

/-- One where a request for a pause is waiting, and zero otherwise. -/
def waiting (e : Engine) (w : World) : Nat := (w.control e.control).pause.toNat

namespace Poised

variable (hs : e.Poised w g)
include hs

theorem setting_inPlace : e.setting.InPlace none := fun _ => hs.inPlace

theorem self : e.Along w 0 e w where
  canRun := hs.canRun
  akin := ⟨rfl, rfl, rfl, rfl, rfl⟩
  after := by
    rw [World.clearPause_eq_self hs.unpaused]
    exact DrainSetting.after_zero.mpr ⟨rfl, rfl⟩

/-- An end of the uninterrupted run, reached from where it stands. -/
theorem over_of_runs (ha : e.Along w n e' w') {m : Nat}
    (hrun : e.setting.Runs m e'.continuation ⟨w'.clearPause e.control, e'.executed, false⟩ z)
    (he : e'' = (e.afterDrain z).engine)
    (hw : w''.clearPause e.control = z.progress.world.clearPause e.control) :
    e.Over w e'' w'' := by
  have hrun' := (DrainSetting.runs_after hs.setting_inPlace ha.after).mp hrun
  have hfinal := final_of_runs hs.builtIn hrun' hs.pending rfl hs.unpaused
  exact ⟨by rw [he]; exact hfinal.state e, _, z, hrun', he, by rw [hfinal.world]; exact hw⟩

/-- A call made without a request waiting: it goes on with the uninterrupted
run, to its end or for one operator. -/
theorem call_unpaused (ha : e.Along w n e' w') (hb : budget = none ∨ budget = some 1)
    (hp : (w'.control e.control).pause = false)
    (hrun : ∃ fuel, e'.run fuel call budget w' = some reply) :
    e.Over w reply.engine reply.world ∨
      budget = some 1 ∧ e.Along w (n + 1) reply.engine reply.world ∧
        e.waiting reply.world = 0 := by
  have hself := World.clearPause_eq_self hp
  obtain ⟨l, z, hends, rfl⟩ := (run_iff ha.canRun).mp hrun
  rw [ha.akin.setting] at hends
  rw [ha.akin.afterDrain]
  have hplace : e.setting.InPlace budget := fun _ => hs.inPlace
  rcases e.setting.fires_or_stalls e'.continuation ⟨w', e'.executed, false⟩ with
    ⟨ctx, stack', p', hf⟩ | ⟨z', hst⟩
  · rcases hb with rfl | rfl
    · obtain ⟨m, hrun⟩ := (DrainSetting.ends_iff_runs hs.setting_inPlace).mp ⟨l, hends⟩
      rw [← hself] at hrun
      have hfinal : Final z := by
        have hrun' := (DrainSetting.runs_after hs.setting_inPlace ha.after).mp hrun
        exact final_of_runs hs.builtIn hrun' hs.pending rfl hs.unpaused
      exact .inl (hs.over_of_runs ha hrun rfl (by rw [hfinal.world]))
    · obtain ⟨-, rfl⟩ := hends.unique hf.ends_one
      obtain ⟨hs', hw', hp'⟩ := hf.builtIn hs.builtIn
        (ha.after.builtIn hs.builtIn hs.setting_inPlace hs.pending).1
      have hpause : (p'.world.control e.control).pause = false := by
        rw [hw'.control]
        exact hp
      have hp'' : p' = ⟨p'.world, p'.executed, false⟩ := by
        rw [← show p'.fault = false from hp']
      cases stack' with
      | nil =>
          refine .inl (hs.over_of_runs ha (m := 1) (z := ⟨.ended none, [], p'⟩) ?_ rfl rfl)
          rw [hself]
          exact .fire hf (.stall (.nil p'))
      | cons op rest =>
          refine .inr ⟨rfl, ⟨rfl, ⟨rfl, rfl, rfl, rfl, rfl⟩, ?_⟩, ?_⟩
          · show e.setting.After (n + 1) e.continuation _ (op :: rest)
              ⟨p'.world.clearPause e.control, p'.executed, false⟩
            rw [DrainSetting.after_add hs.setting_inPlace ha.after, hself,
              World.clearPause_eq_self hpause, ← hp'', hf.after_succ hs.setting_inPlace]
            exact DrainSetting.after_zero.mpr ⟨rfl, rfl⟩
          · show (p'.world.control e.control).pause.toNat = 0
            rw [hpause]
            rfl
  · obtain ⟨l', hends'⟩ := hst.ends hplace
    obtain ⟨-, rfl⟩ := hends.unique hends'
    rw [← hself] at hst
    have hrun : e.setting.Runs 0 e'.continuation _ z := .stall hst
    have hfinal := final_of_stalls hst rfl (by rw [hself]; exact hp)
    exact .inl (hs.over_of_runs ha hrun rfl (by rw [hfinal.world]))

/-- A call made with a request waiting: it halts at once, and takes the
request back if nothing stronger is asked for. -/
theorem call_paused (ha : e.Along w n e' w')
    (hp : (w'.control e.control).pause = true)
    (hrun : ∃ fuel, e'.run fuel call budget w' = some reply) :
    e.Over w reply.engine reply.world ∨
      e.Along w n reply.engine reply.world ∧ e.waiting reply.world = 0 := by
  obtain ⟨l, z, hends, rfl⟩ := (run_iff ha.canRun).mp hrun
  rw [ha.akin.setting] at hends
  rw [ha.akin.afterDrain]
  cases hstack : e'.continuation with
  | nil =>
      rw [hstack] at hends
      obtain ⟨-, rfl⟩ := DrainSetting.ends_nil.mp hends
      refine .inl (hs.over_of_runs ha (m := 0)
        (z := ⟨.ended none, [], ⟨w'.clearPause e.control, e'.executed, false⟩⟩) ?_ rfl ?_)
      · rw [hstack]
        exact .stall (.nil _)
      · exact (World.clearPause_clearPause ..).symm
  | cons op rest =>
      rw [hstack] at hends
      obtain ⟨why, hwhy⟩ := Option.ne_none_iff_exists'.mp (World.halt?_ne_none hp)
      have hm : e.setting.move budget op ⟨w', e'.executed, false⟩ = .halt why :=
        DrainSetting.move_eq_halt.mpr (DrainSetting.halts?_of_halt? hwhy)
      obtain ⟨-, rfl⟩ := (DrainSetting.ends_halt hm).mp hends
      by_cases hpause : why = .pause
      · subst hpause
        refine .inr ⟨⟨rfl, ⟨rfl, rfl, rfl, rfl, rfl⟩, ?_⟩, ?_⟩
        · show e.setting.After n e.continuation _ (op :: rest)
            ⟨(w'.clearPause e.control).clearPause e.control, e'.executed, false⟩
          rw [World.clearPause_clearPause, ← hstack]
          exact ha.after
        · show ((w'.clearPause e.control).control e.control).pause.toNat = 0
          rw [World.control_clearPause]
          rfl
      · -- Something stronger is asked for, of the uninterrupted run as well.
        have hm' : e.setting.move (some 1) op ⟨w'.clearPause e.control, e'.executed, false⟩ =
            .halt why := by
          refine DrainSetting.move_eq_halt.mpr (DrainSetting.halts?_of_halt? ?_)
          rw [show e.setting.control = e.control from rfl, World.halt?_clearPause, hwhy,
            if_neg (by simpa using hpause)]
        refine .inl (hs.over_of_runs ha (m := 0)
          (z := ⟨.ended (some why), op :: rest, ⟨w'.clearPause e.control, e'.executed, false⟩⟩)
          ?_ rfl ?_)
        · rw [hstack]
          exact .stall (.halt hm')
        · show (if some why = some Halt.pause then w'.clearPause e.control else w').clearPause
            e.control = (w'.clearPause e.control).clearPause e.control
          rw [if_neg (by simpa using hpause), World.clearPause_clearPause]

/-- A step always returns, and a start does if the uninterrupted run ends. -/
theorem call_returns (ha : e.Along w n e' w') (call : EngineCall)
    (hb : budget = some 1 ∨
      budget = none ∧ ∃ m z, e.setting.Runs m e.continuation ⟨w, e.executed, false⟩ z) :
    ∃ fuel reply, e'.run fuel call budget w' = some reply := by
  suffices h : ∃ l z, e.setting.Ends budget e'.continuation ⟨w', e'.executed, false⟩ l z by
    obtain ⟨l, z, h⟩ := h
    rw [← ha.akin.setting] at h
    have hrun : ∃ fuel, e'.run fuel call budget w' = some (e'.afterDrain z) :=
      (run_iff ha.canRun).mpr ⟨l, z, h, rfl⟩
    obtain ⟨fuel, hrun⟩ := hrun
    exact ⟨fuel, _, hrun⟩
  rcases hb with rfl | ⟨rfl, m, z, hrun⟩
  · rcases e.setting.fires_or_stalls e'.continuation ⟨w', e'.executed, false⟩ with
      ⟨ctx, stack', p', hf⟩ | ⟨z, hst⟩
    · exact ⟨_, _, hf.ends_one⟩
    · obtain ⟨l, h⟩ := hst.ends (DrainSetting.inPlace_step 1)
      exact ⟨l, z, h⟩
  · cases hp : (w'.control e.control).pause with
    | false =>
        obtain ⟨k, rfl⟩ := Nat.exists_eq_add_of_le (hrun.le hs.setting_inPlace ha.after)
        have hrest := (DrainSetting.runs_after hs.setting_inPlace ha.after).mpr hrun
        rw [World.clearPause_eq_self hp] at hrest
        obtain ⟨l, h⟩ := (DrainSetting.ends_iff_runs hs.setting_inPlace).mpr ⟨k, hrest⟩
        exact ⟨l, z, h⟩
    | true =>
        cases e'.continuation with
        | nil => exact ⟨[], _, DrainSetting.ends_nil.mpr ⟨rfl, rfl⟩⟩
        | cons op rest =>
            obtain ⟨why, hwhy⟩ := Option.ne_none_iff_exists'.mp (World.halt?_ne_none hp)
            have hm : e.setting.move none op ⟨w', e'.executed, false⟩ = .halt why :=
              DrainSetting.move_eq_halt.mpr (DrainSetting.halts?_of_halt? hwhy)
            exact ⟨[], _, (DrainSetting.ends_halt hm).mpr ⟨rfl, rfl⟩⟩

end Poised

/-! ## Lists of calls -/

/-- How many of the cuts are calls. -/
def calls (cuts : List Cut) : Nat := cuts.countP fun c => c ≠ .pause

/-- How many are requests for a pause. -/
def pauses (cuts : List Cut) : Nat := cuts.count .pause

/-- An engine that has ended stays as it is, and so does its world apart from
requests for a pause. -/
theorem cut_ended (hc : e.state.canRun = false) (fuel : Nat) (cuts : List Cut) (w : World) :
    ∃ w', e.cut fuel cuts w = some (e, w') ∧
      w'.clearPause e.control = w.clearPause e.control := by
  induction cuts generalizing w with
  | nil => exact ⟨w, rfl, rfl⟩
  | cons c cuts ih =>
      have hone : ∃ w', e.cutOnce fuel w c = some (e, w') ∧
          w'.clearPause e.control = w.clearPause e.control := by
        cases c with
        | pause => exact ⟨_, rfl, World.clearPause_pause ..⟩
        | start => exact ⟨w, by rw [Engine.cutOnce, start, run_refused hc]; rfl, rfl⟩
        | step => exact ⟨w, by rw [Engine.cutOnce, step, run_refused hc]; rfl, rfl⟩
      obtain ⟨w₁, h₁, hw₁⟩ := hone
      obtain ⟨w₂, h₂, hw₂⟩ := ih w₁
      exact ⟨w₂, cut_cons.mpr ⟨_, h₁, h₂⟩, hw₂.trans hw₁⟩

theorem Over.control (ho : e.Over w e' w') : e'.control = e.control := by
  obtain ⟨n, z, -, rfl, -⟩ := ho.run
  unfold afterDrain
  split <;> rfl

theorem Over.cut (ho : e.Over w e' w') (fuel : Nat) (cuts : List Cut) :
    ∃ w'', e'.cut fuel cuts w' = some (e', w'') ∧ e.Over w e' w'' := by
  obtain ⟨w'', hcut, hw⟩ := cut_ended ho.ended fuel cuts w'
  rw [ho.control] at hw
  exact ⟨w'', hcut, ho.ended, hw ▸ ho.run⟩

theorem cutOnce_mono {fuel' : Nat} {c : Cut} {x : Engine × World} (hle : fuel ≤ fuel')
    (h : e.cutOnce fuel w c = some x) : e.cutOnce fuel' w c = some x := by
  cases c with
  | pause => exact h
  | start =>
      obtain ⟨reply, hrun, rfl⟩ := Option.map_eq_some_iff.mp h
      exact Option.map_eq_some_iff.mpr ⟨reply, run_mono hle hrun, rfl⟩
  | step =>
      obtain ⟨reply, hrun, rfl⟩ := Option.map_eq_some_iff.mp h
      exact Option.map_eq_some_iff.mpr ⟨reply, run_mono hle hrun, rfl⟩

theorem cut_mono {fuel' : Nat} {cuts : List Cut} {x : Engine × World} (hle : fuel ≤ fuel')
    (h : e.cut fuel cuts w = some x) : e.cut fuel' cuts w = some x := by
  induction cuts generalizing e w with
  | nil => exact h
  | cons c cuts ih =>
      obtain ⟨y, hy, h⟩ := cut_cons.mp h
      exact cut_cons.mpr ⟨y, cutOnce_mono hle hy, ih h⟩

theorem cut_unique {fuel' : Nat} {cuts : List Cut} {x y : Engine × World}
    (h : e.cut fuel cuts w = some x) (h' : e.cut fuel' cuts w = some y) : x = y := by
  have hmore := cut_mono (Nat.le_max_left fuel fuel') h
  have hmore' := cut_mono (Nat.le_max_right fuel fuel') h'
  exact Option.some.inj (hmore.symm.trans hmore')

theorem cut_append (fuel : Nat) (cuts cuts' : List Cut) (e : Engine) (w : World) :
    e.cut fuel (cuts ++ cuts') w = (e.cut fuel cuts w).bind fun x => x.1.cut fuel cuts' x.2 := by
  induction cuts generalizing e w with
  | nil => rfl
  | cons c cuts ih =>
      rw [List.cons_append, cut, cut]
      cases e.cutOnce fuel w c with
      | none => rfl
      | some x => exact ih x.1 x.2

namespace Poised

variable (hs : e.Poised w g)
include hs

/-- One cut, from where the uninterrupted run stands: the run is over, or goes
on. A call that goes on has executed an operator or used a request up. -/
theorem cutOnce (ha : e.Along w n e' w') {c : Cut} {x : Engine × World}
    (h : e'.cutOnce fuel w' c = some x) : e.Over w x.1 x.2 ∨ ∃ m, e.Along w m x.1 x.2 ∧
      n + calls [c] + e.waiting x.2 ≤ m + pauses [c] + e.waiting w' := by
  have hcall : ∀ {call budget} {reply : Reply RunState}, (budget = none ∨ budget = some 1) →
      e'.run fuel call budget w' = some reply → e.Over w reply.engine reply.world ∨
        ∃ m, e.Along w m reply.engine reply.world ∧
          n + 1 + e.waiting reply.world ≤ m + e.waiting w' := by
    intro call budget reply hb hrun
    cases hp : (w'.control e.control).pause with
    | false =>
        refine (hs.call_unpaused ha hb hp ⟨fuel, hrun⟩).imp_right fun ⟨_, ha', hw⟩ => ?_
        exact ⟨n + 1, ha', by rw [hw]; omega⟩
    | true =>
        refine (hs.call_paused ha hp ⟨fuel, hrun⟩).imp_right fun ⟨ha', hw⟩ => ⟨n, ha', ?_⟩
        rw [hw, waiting, hp]
        exact Nat.le_refl _
  cases c with
  | pause =>
      cases h
      refine .inr ⟨n, ⟨ha.canRun, ha.akin, ?_⟩, ?_⟩
      · rw [ha.akin.control, World.clearPause_pause]
        exact ha.after
      · have : e.waiting (w'.pause e'.control) ≤ 1 := Bool.toNat_le _
        simp only [calls, pauses]
        simp
        omega
  | start =>
      obtain ⟨reply, hrun, rfl⟩ := Option.map_eq_some_iff.mp h
      exact hcall (.inl rfl) hrun
  | step =>
      obtain ⟨reply, hrun, rfl⟩ := Option.map_eq_some_iff.mp h
      exact hcall (.inr rfl) hrun

/-- Every list of cuts keeps along the uninterrupted run, to its end. -/
theorem cut (ha : e.Along w n e' w') {cuts : List Cut} {x : Engine × World}
    (h : e'.cut fuel cuts w' = some x) : e.Over w x.1 x.2 ∨ ∃ m, e.Along w m x.1 x.2 ∧
      n + calls cuts + e.waiting x.2 ≤ m + pauses cuts + e.waiting w' := by
  induction cuts generalizing n e' w' with
  | nil =>
      cases h
      exact .inr ⟨n, ha, Nat.le_refl _⟩
  | cons c cuts ih =>
      obtain ⟨y, hy, h⟩ := cut_cons.mp h
      rcases hs.cutOnce ha hy with ho | ⟨m, ha', hle⟩
      · obtain ⟨w₁, h₁, ho₁⟩ := ho.cut fuel cuts
        obtain rfl := Option.some.inj (h₁.symm.trans h)
        exact .inl ho₁
      · refine (ih ha' h).imp_right fun ⟨k, hk, hle'⟩ => ⟨k, hk, ?_⟩
        have hcalls : calls (c :: cuts) = calls [c] + calls cuts := by
          rw [calls, ← List.singleton_append, List.countP_append, calls, calls]
        have hpauses : pauses (c :: cuts) = pauses [c] + pauses cuts := by
          rw [pauses, ← List.singleton_append, List.count_append, pauses, pauses]
        omega

/-- Steps always return, and starts do if the uninterrupted run ends. -/
theorem cut_returns (ha : e.Along w n e' w') (cuts : List Cut)
    (hb : .start ∉ cuts ∨ ∃ m z, e.setting.Runs m e.continuation ⟨w, e.executed, false⟩ z) :
    ∃ fuel x, e'.cut fuel cuts w' = some x := by
  induction cuts generalizing n e' w' with
  | nil => exact ⟨0, _, rfl⟩
  | cons c cuts ih =>
      have hone : ∃ fuel y, e'.cutOnce fuel w' c = some y := by
        cases c with
        | pause => exact ⟨0, _, rfl⟩
        | start =>
            have hend := hb.resolve_left fun h => h List.mem_cons_self
            obtain ⟨fuel, reply, h⟩ := hs.call_returns ha .start (.inr ⟨rfl, hend⟩)
            exact ⟨fuel, _, Option.map_eq_some_iff.mpr ⟨reply, h, rfl⟩⟩
        | step =>
            obtain ⟨fuel, reply, h⟩ := hs.call_returns ha .step (.inl rfl)
            exact ⟨fuel, _, Option.map_eq_some_iff.mpr ⟨reply, h, rfl⟩⟩
      obtain ⟨fuel, y, hy⟩ := hone
      have hrest : ∃ fuel' x, y.1.cut fuel' cuts y.2 = some x := by
        rcases hs.cutOnce ha hy with ho | ⟨m, ha', -⟩
        · obtain ⟨w₁, h₁, -⟩ := ho.cut 0 cuts
          exact ⟨0, _, h₁⟩
        · exact ih ha' (hb.imp_left fun h h' => h (List.mem_cons_of_mem c h'))
      obtain ⟨fuel', x, hx⟩ := hrest
      exact ⟨max fuel fuel', x, cut_cons.mpr ⟨y, cutOnce_mono (Nat.le_max_left fuel fuel') hy,
        cut_mono (Nat.le_max_right fuel fuel') hx⟩⟩

/-- After a start with no request waiting the run is over. -/
theorem over_of_starts (ha : e.Along w n e' w') {x : Engine × World}
    (h : e'.cut fuel [.start, .start] w' = some x) : e.Over w x.1 x.2 := by
  have hstart : ∀ {n e₁ w₁} {y : Engine × World}, e.Along w n e₁ w₁ →
      e₁.cutOnce fuel w₁ .start = some y → e.Over w y.1 y.2 ∨
        e.waiting w₁ = 1 ∧ e.Along w n y.1 y.2 ∧ e.waiting y.2 = 0 := by
    intro n e₁ w₁ y ha hy
    obtain ⟨reply, hrun, rfl⟩ := Option.map_eq_some_iff.mp hy
    cases hp : (w₁.control e.control).pause with
    | false =>
        rcases hs.call_unpaused ha (.inl rfl) hp ⟨fuel, hrun⟩ with ho | ⟨hb, -⟩
        · exact .inl ho
        · cases hb
    | true =>
        refine (hs.call_paused ha hp ⟨fuel, hrun⟩).imp_right fun ⟨ha', hw⟩ => ⟨?_, ha', hw⟩
        rw [waiting, hp]
        rfl
  obtain ⟨y, hy, h⟩ := cut_cons.mp h
  rcases hstart ha hy with ho | ⟨-, ha', hw⟩
  · obtain ⟨w₁, h₁, ho₁⟩ := ho.cut fuel [.start]
    obtain rfl := Option.some.inj (h₁.symm.trans h)
    exact ho₁
  · obtain ⟨z, hz, h⟩ := cut_cons.mp h
    cases h
    exact (hstart ha' hz).resolve_right fun hno => by omega

end Poised

/-! ## From preparation on -/

/-- An engine just prepared is poised to run. -/
theorem prepare_poised {e₀ : Engine} {s : ScopeId} {w₀ : World} {events : List Event}
    (hprep : e₀.prepare g s w₀ = ⟨.ok (), e, w, events⟩) (hseq : e₀.config.parallel = false)
    (hg : g.BuiltIn) : e.Poised w g ∧ e.executed = 0 := by
  obtain ⟨rfl, rfl⟩ := prepare_ok hprep
  refine ⟨⟨rfl, hseq, hg, firstOperations_runIn g s w₀.heap, ?_⟩, rfl⟩
  show ((World.resetControl _ _).control _).pause = false
  rw [control_resetControl]

/-- **Runs may be cut anywhere.** A prepared engine that runs built-in
operators in place may be driven by any calls, with requests for a pause
between them. As long as it can run, it has pending what the uninterrupted run
has pending after as many operators, in the same world apart from a request
for a pause, and goes on like it. Once it has ended, one uninterrupted start
ends in the same engine and world. Steps always return; if the uninterrupted
start returns, so do all calls, and enough of them end the run. -/
theorem cut_run_agrees {e₀ e : Engine} {g : SharedGraph} {s : ScopeId} {w₀ w : World}
    {events : List Event} (hprep : e₀.prepare g s w₀ = ⟨.ok (), e, w, events⟩)
    (hseq : e₀.config.parallel = false) (hg : g.BuiltIn) (cuts : List Cut) :
    (∀ fuel e' w', e.cut fuel cuts w = some (e', w') →
      (e'.state.canRun = true →
        e.setting.After e'.executed e.continuation ⟨w, 0, false⟩
            e'.continuation ⟨w'.clearPause e.control, e'.executed, false⟩ ∧
          ∀ k stack p, e'.setting.After k e'.continuation
              ⟨w'.clearPause e.control, e'.executed, false⟩ stack p ↔
            e.setting.After (e'.executed + k) e.continuation ⟨w, 0, false⟩ stack p) ∧
      (e'.state.canRun = false → ∃ fuel' reply, e.start fuel' w = some reply ∧
        reply.engine = e' ∧
        reply.world.clearPause e.control = w'.clearPause e.control)) ∧
    (.start ∉ cuts → ∃ fuel x, e.cut fuel cuts w = some x) ∧
    ∀ fuel reply, e.start fuel w = some reply →
      (∃ fuel' x, e.cut fuel' cuts w = some x ∧
        (pauses cuts + reply.engine.executed < calls cuts → x.1.state.canRun = false)) ∧
      ∃ fuel' x, e.cut fuel' (cuts ++ [.start, .start]) w = some x ∧
        x.1.state.canRun = false := by
  obtain ⟨hs, hzero⟩ := prepare_poised hprep hseq hg
  have hplace := hs.setting_inPlace
  refine ⟨fun fuel e' w' hcut => ?_, fun hstart => hs.cut_returns hs.self cuts (.inl hstart), ?_⟩
  -- Either the calls have ended the run, or they stand in the middle of it, after as many
  -- operators.
  · rcases hs.cut hs.self hcut with ho | ⟨m, ha, -⟩
    · refine ⟨fun hrun => absurd (hrun.symm.trans ho.ended) (by simp), fun _ => ?_⟩
      obtain ⟨n, z, hruns, he, hw⟩ := ho.run
      obtain ⟨l, hends⟩ := (DrainSetting.ends_iff_runs hplace).mpr ⟨n, hruns⟩
      have hstart : ∃ fuel', e.start fuel' w = some (e.afterDrain z) :=
        (run_iff hs.canRun).mpr ⟨l, z, hends, rfl⟩
      obtain ⟨fuel', hstart⟩ := hstart
      exact ⟨fuel', _, hstart, he.symm, hw.symm⟩
    · have hafter := ha.after
      have hm : m = e'.executed := by
        obtain ⟨-, -, hcount⟩ := hafter
        rw [hzero, Nat.zero_add] at hcount
        exact hcount.symm
      rw [hzero, hm] at hafter
      refine ⟨fun _ => ⟨hafter, fun k stack p => ?_⟩,
        fun hrun => absurd (hrun.symm.trans ha.canRun) (by simp)⟩
      rw [ha.akin.setting, DrainSetting.after_add hplace hafter]
  · intro fuel reply hstart
    obtain ⟨l, z, hends, rfl⟩ := (run_iff hs.canRun).mp ⟨fuel, hstart⟩
    obtain ⟨N, hruns⟩ := (DrainSetting.ends_iff_runs hplace).mp ⟨l, hends⟩
    constructor
    · obtain ⟨fuel', x, hcut⟩ := hs.cut_returns hs.self cuts (.inr ⟨N, z, hruns⟩)
      refine ⟨fuel', x, hcut, fun hlt => ?_⟩
      rcases hs.cut hs.self hcut with ho | ⟨m, ha, hle⟩
      · exact ho.ended
      · have hmN := hruns.le hplace ha.after
        have hN := hruns.executed
        rw [executed_afterDrain] at hlt
        have hwait : e.waiting w = 0 := by
          rw [waiting, hs.unpaused]
          rfl
        dsimp only at hN
        omega
    · obtain ⟨fuel', x, hcut⟩ :=
        hs.cut_returns hs.self (cuts ++ [.start, .start]) (.inr ⟨N, z, hruns⟩)
      refine ⟨fuel', x, hcut, ?_⟩
      rw [cut_append, Option.bind_eq_some_iff] at hcut
      obtain ⟨y, hy, hx⟩ := hcut
      rcases hs.cut hs.self hy with ho | ⟨m, ha, -⟩
      · obtain ⟨w₁, h₁, ho₁⟩ := ho.cut fuel' [.start, .start]
        obtain rfl := Option.some.inj (h₁.symm.trans hx)
        exact ho₁.ended
      · exact (hs.over_of_starts ha hx).ended

end Engine

namespace Sample

/-- A graph of two operators, one after the other, that do nothing. -/
def chainGraph : SharedGraph :=
  ⟨⟨0⟩, ⟨"Chain", .empty, #[⟨"First", .empty, some ⟨1⟩, .empty⟩, ⟨"Second", .empty, none, .empty⟩],
    some ⟨0⟩⟩⟩

/-- A step, a request for a pause and two starts, and the run is over. -/
theorem cut_run_agrees_chain :
    ∃ e w events, (Engine.ofConfig .sequential ⟨0⟩).prepare chainGraph ⟨0⟩ World.empty.newControl.2 =
        ⟨.ok (), e, w, events⟩ ∧
      ∃ fuel x, e.cut fuel ([.step, .pause] ++ [.start, .start]) w = some x ∧
        x.1.state.canRun = false := by
  have hprep : ∃ e w events, (Engine.ofConfig .sequential ⟨0⟩).prepare chainGraph ⟨0⟩
      World.empty.newControl.2 = ⟨.ok (), e, w, events⟩ ∧ (e.start 9 w).isSome = true :=
    ⟨_, _, _, rfl, rfl⟩
  obtain ⟨e, w, events, hprep, hstart⟩ := hprep
  obtain ⟨reply, hstart⟩ := Option.isSome_iff_exists.mp hstart
  have hagree := Engine.cut_run_agrees hprep rfl (by decide) [.step, .pause]
  exact ⟨e, w, events, hprep, (hagree.2.2 9 reply hstart).2⟩

end Sample

end ScopeFlow
