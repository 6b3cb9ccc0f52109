import ScopeFlow.Engine.Clone
import ScopeFlow.Proofs.Clone.Copied
import ScopeFlow.Proofs.Drain.Courses
import ScopeFlow.Proofs.Engine.Calls

/-!
# The life of an engine

What an engine can be in after any number of calls on it, copies of it and
requests to it, and what an observer of it has been told by then.

* `Engine.deal` is one such dealing, `Engine.live` are several, with a log;
* `Engine.Passes` lists everything that one dealing can do (`deal_passes`);
* `Engine.Orderly` is what holds at any point of a life, `Moment.Leads` how
  one moment of a log leads from state to state;
* `Engine.life_orderly` follows by induction on the dealings.
-/

namespace ScopeFlow

/-! ## Dealings with an engine -/

/-- What can be done with an engine from outside. -/
inductive Dealing where
  | prepare (g : SharedGraph) (s : ScopeId)
  | start
  | step
  | stop
  /-- Copy it in a session and go on with the original. -/
  | copy (σ : Session)
  /-- Copy it in a session and go on with the copy. -/
  | become (σ : Session)
  /-- Ask for something through a handle. -/
  | ask (c : ControlId) (r : Request)
  /-- Cancel a token. -/
  | cancel (t : TokenId)
  /-- Put it under a caller's token. -/
  | watch (t : TokenId)
  /-- Something else happens to the heap, the tokens and the controls. -/
  | meanwhile (f : World → World)

/-- The call that a dealing makes, if it is one that a state can refuse. -/
def Dealing.call? : Dealing → Option EngineCall
  | prepare _ _ => some .prepare
  | start => some .start
  | step => some .step
  | stop => some .stop
  | copy _ | become _ | ask _ _ | cancel _ | watch _ | meanwhile _ => none

/-- The states that allow a call. -/
def EngineCall.allowed : EngineCall → List RunState
  | prepare => [.ready, .paused, .stopped, .aborted, .faulted]
  | start | step => [.ready, .paused]
  | stop => [.ready, .paused, .faulted]

/-- A reply with its answer changed. -/
def Reply.map {α β : Type} (f : α → β) (r : Reply α) : Reply β :=
  ⟨r.result.map f, r.engine, r.world, r.events⟩

/-- What became of a dealing: its answer, and what an observer was told. -/
structure Moment where
  dealing : Dealing
  result : Except Failure (Option RunState)
  events : List Event

namespace Engine

/-- Deals with an engine once. -/
def deal (fuel : Nat) (e : Engine) (w : World) : Dealing → Option (Reply (Option RunState))
  | .prepare g s => some ((e.prepare g s w).map fun _ => none)
  | .start => (e.start fuel w).map (Reply.map some)
  | .step => (e.step fuel w).map (Reply.map some)
  | .stop => some ((e.stop w).map fun _ => none)
  | .copy σ => some ⟨.ok none, e, (e.copy σ w).2.2, []⟩
  | .become σ => some ⟨.ok none, (e.copy σ w).1, (e.copy σ w).2.2, []⟩
  | .ask c r => some ⟨.ok none, e, w.request ⟨w.token c, some c⟩ r, []⟩
  | .cancel t => some ⟨.ok none, e, w.cancel t, []⟩
  | .watch t => some ⟨.ok none, (e.withToken t w).1, (e.withToken t w).2, []⟩
  | .meanwhile f => some ⟨.ok none, e, f w, []⟩

/-- Deals with an engine several times, and keeps a log. -/
def live (fuel : Nat) : List Dealing → Engine → World → Option (List Moment × Engine × World)
  | [], e, w => some ([], e, w)
  | d :: ds, e, w =>
    match e.deal fuel w d with
    | none => none
    | some r =>
      (live fuel ds r.engine r.world).map fun x => (⟨d, r.result, r.events⟩ :: x.1, x.2)

end Engine

/-! ## What is seen of a life -/

/-- The states that an observer is told of, in order. -/
def Event.states (events : List Event) : List RunState :=
  events.filterMap fun
    | .entered s => some s
    | _ => none

/-- All that an observer was told. -/
def Moment.heard (log : List Moment) : List Event := log.flatMap Moment.events

/-- Nothing was told. -/
def Moment.Silent (log : List Moment) : Prop := ∀ m ∈ log, m.events = []

/-- The last thing told is that a call failed in an operator, and the failure
is what that call answered. -/
def Moment.FaultedBy (f : Failure) (log : List Moment) : Prop :=
  ∃ before m after, log = before ++ m :: after ∧ (m.dealing = .start ∨ m.dealing = .step) ∧
    m.result = .error f ∧
    m.events = [.entered .running, .timePassed, .failed f, .entered .faulted] ∧ Silent after

/-- The last thing told is that the engine was stopped, next after a fault. -/
def Moment.StoppedAfter (f : Failure) (log : List Moment) : Prop :=
  ∃ before m after, log = before ++ m :: after ∧ FaultedBy f before ∧ m.dealing = .stop ∧
    m.result = .ok none ∧ m.events = [.entered .stopped] ∧ Silent after

namespace RunState

/-- The arrows of preparing, running, resuming, and of the ends of a run. -/
def diagram : List (RunState × RunState) :=
  [(stopped, ready), (ready, running), (running, paused), (paused, running), (running, stopped),
    (running, aborted), (running, faulted)]

/-- The arrows that preparing anew and stopping without running add. -/
def shortcuts : List (RunState × RunState) :=
  [(ready, ready), (paused, ready), (aborted, ready), (faulted, ready), (ready, stopped),
    (paused, stopped), (faulted, stopped)]

/-- Some states form a path along these arrows, from one state to another. -/
def Path (arrows : List (RunState × RunState)) : RunState → List RunState → RunState → Prop
  | s, [], t => s = t
  | s, next :: rest, t => (s, next) ∈ arrows ∧ Path arrows next rest t

/-- A run that has not failed can end so. -/
def EndsRun (s : RunState) : Prop := s = paused ∨ s = stopped ∨ s = aborted

end RunState

/-- How one moment leads from one state to the next. -/
inductive Moment.Leads : RunState → Moment → RunState → Prop
  | prepared {s : RunState} {g : SharedGraph} {scope : ScopeId} : s ≠ .running →
      Leads s ⟨.prepare g scope, .ok none, [.entered .ready]⟩ .ready
  /-- The graph does not pass its check. -/
  | invalid {s : RunState} {g : SharedGraph} {scope : ScopeId} {f : Failure} : s ≠ .running →
      Leads s ⟨.prepare g scope, .error f, []⟩ s
  | ended {s t : RunState} {d : Dealing} : d = .start ∨ d = .step → s.canRun = true →
      t.EndsRun →
      Leads s ⟨d, .ok (some t), [.entered .running, .timePassed, .entered t]⟩ t
  | faulted {s : RunState} {d : Dealing} {f : Failure} : d = .start ∨ d = .step →
      s.canRun = true →
      Leads s ⟨d, .error f, [.entered .running, .timePassed, .failed f, .entered .faulted]⟩
        .faulted
  | stopped {s : RunState} : s ∈ EngineCall.stop.allowed →
      Leads s ⟨.stop, .ok none, [.entered .stopped]⟩ .stopped
  | refused {s : RunState} {d : Dealing} {c : EngineCall} : d.call? = some c →
      s ∉ c.allowed → Leads s ⟨d, .error (.invalidState c s), []⟩ s
  | aside {s : RunState} {d : Dealing} : d.call? = none → Leads s ⟨d, .ok none, []⟩ s

/-- How a log leads from one state to another. -/
inductive Moment.LeadsOn : RunState → List Moment → RunState → Prop
  | nil {s : RunState} : LeadsOn s [] s
  | snoc {s t u : RunState} {log : List Moment} {m : Moment} : LeadsOn s log t →
      m.Leads t u → LeadsOn s (log ++ [m]) u

namespace Engine

variable {e e' : Engine} {w w' : World} {fuel : Nat} {d : Dealing} {f : Failure}
  {r : Reply (Option RunState)} {log : List Moment} {budget : Option Nat} {call : EngineCall}

/-- Two engines at the same point of their lives: one may be a copy of the
other. -/
structure SamePoint (e e' : Engine) : Prop where
  state : e'.state = e.state
  pending : e'.continuation = [] ↔ e.continuation = []
  error : e'.error = e.error
  executed : e'.executed = e.executed

/-- All that a dealing can do to an engine. -/
inductive Passes (e : Engine) (w : World) : Dealing → Reply (Option RunState) → Prop
  | prepared {g : SharedGraph} {s : ScopeId} {pending : List Operation} {w' : World} :
      e.state ≠ .running → g.graph.validate w.heap = .ok () →
      Passes e w (.prepare g s) ⟨.ok none, { e with
        state := .ready, graph := some g, scope := some s, continuation := pending,
        error := none, executed := 0, hasRun := false }, w', [.entered .ready]⟩
  | invalid {g : SharedGraph} {s : ScopeId} {f : Failure} : e.state ≠ .running →
      g.graph.validate w.heap = .error f → Passes e w (.prepare g s) ⟨.error f, e, w, []⟩
  | ended {d : Dealing} {t : RunState} {pending : List Operation} {n : Nat} {w' : World} :
      d = .start ∨ d = .step → e.state.canRun = true → t.EndsRun → (t = .paused ↔ pending ≠ []) →
      Passes e w d ⟨.ok (some t), { e with
        state := t, continuation := pending, executed := n, hasRun := true }, w',
        [.entered .running, .timePassed, .entered t]⟩
  | faulted {d : Dealing} {f : Failure} {pending : List Operation} {n : Nat} {w' : World} :
      d = .start ∨ d = .step → e.state.canRun = true → pending ≠ [] →
      Passes e w d ⟨.error f, { e with
        state := .faulted, continuation := pending, executed := n, hasRun := true,
        error := some f }, w',
        [.entered .running, .timePassed, .failed f, .entered .faulted]⟩
  | stopped : e.state ∈ EngineCall.stop.allowed →
      Passes e w .stop ⟨.ok none, { e with state := .stopped, continuation := [] }, w,
        [.entered .stopped]⟩
  | refused {d : Dealing} {c : EngineCall} : d.call? = some c → e.state ∉ c.allowed →
      Passes e w d ⟨.error (.invalidState c e.state), e, w, []⟩
  | aside {d : Dealing} {e' : Engine} {w' : World} : d.call? = none → e.SamePoint e' →
      Passes e w d ⟨.ok none, e', w', []⟩

/-- What holds of an engine at any point of its life, after what the log
says. -/
structure Orderly (e : Engine) (log : List Moment) : Prop where
  idle : e.state ≠ .running
  finished : e.state = .stopped ∨ e.state = .aborted → e.continuation = []
  paused : e.state = .paused → e.continuation ≠ []
  /-- The failure is still the one that the call answered. -/
  faulted : e.state = .faulted →
    e.continuation ≠ [] ∧ ∃ f, e.error = some f ∧ Moment.FaultedBy f log
  ready : e.state = .ready → e.error = none ∧ e.executed = 0
  error : ∀ f, e.error = some f →
    e.state = .faulted ∨ e.state = .stopped ∧ Moment.StoppedAfter f log
  told : Moment.LeadsOn .stopped log e.state

end Engine

namespace Engine

variable {e e' : Engine} {w w' : World} {fuel : Nat} {d : Dealing} {f : Failure}
  {r : Reply (Option RunState)} {log : List Moment} {budget : Option Nat} {call : EngineCall}

/-! ## One dealing -/

/-- What a drain without failure settles to. -/
theorem settle_spec (halt : Option Halt) (stack : List Operation) :
    (settle halt stack).1.EndsRun ∧
      ((settle halt stack).1 = .paused ↔ (settle halt stack).2 ≠ []) := by
  have hrest : (if stack.isEmpty then RunState.stopped else .paused).EndsRun ∧
      ((if stack.isEmpty then RunState.stopped else .paused) = .paused ↔ stack ≠ []) := by
    cases stack <;> simp [RunState.EndsRun]
  cases halt with
  | none => exact hrest
  | some why =>
      cases why
      case pause => exact hrest
      case budget => exact hrest
      case fault => exact hrest
      all_goals simp [settle, RunState.EndsRun]

theorem run_passes {reply : Reply RunState} (hd : d = .start ∨ d = .step)
    (hcall : d.call? = some call) (h : e.run fuel call budget w = some reply) :
    e.Passes w d (reply.map some) := by
  cases hc : e.state.canRun with
  | false =>
      rw [run_refused hc, Option.some.injEq] at h
      subst h
      refine .refused hcall ?_
      have hno : e.state ∉ [RunState.ready, .paused] := by
        intro hs
        cases he : e.state <;> simp_all [RunState.canRun]
      rcases hd with rfl | rfl
      · cases hcall
        exact hno
      · cases hcall
        exact hno
  | true =>
      simp only [run, hc, if_true, Option.map_eq_some_iff] at h
      obtain ⟨z, hz, rfl⟩ := h
      obtain ⟨outcome, stack, p⟩ := z
      cases outcome with
      | ended halt =>
          obtain ⟨hends, hpending⟩ := settle_spec halt stack
          exact .ended hd hc hends hpending
      | failed f =>
          have hstack : stack ≠ [] := DrainSetting.stack_ne_nil_of_failed hz rfl
          by_cases hf : f = .cancelled
          · -- A cancelled run is over, aborted or not.
            subst hf
            show e.Passes w d (Reply.map some ⟨.ok (if _ then _ else _), _, _, _⟩)
            split
            · exact .ended hd hc (.inr (.inr rfl)) (by simp)
            · exact .ended hd hc (.inr (.inl rfl)) (by simp)
          · cases f with
            | cancelled => exact absurd rfl hf
            | _ => exact .faulted hd hc hstack

theorem stop_passes : e.Passes w .stop ((e.stop w).map fun _ => none) := by
  have hrefused (h : e.state ∉ EngineCall.stop.allowed) :
      e.Passes w .stop ⟨.error (.invalidState .stop e.state), e, w, []⟩ := .refused rfl h
  have hstopped (h : e.state ∈ EngineCall.stop.allowed) :
      e.Passes w .stop ⟨.ok none, { e with state := .stopped, continuation := [] }, w,
        [.entered .stopped]⟩ := .stopped h
  unfold stop
  cases hs : e.state <;> rw [hs] at hrefused hstopped
  case ready => exact hstopped (by decide)
  case paused => exact hstopped (by decide)
  case faulted => exact hstopped (by decide)
  all_goals
    rw [refuse, hs]
    exact hrefused (by decide)

theorem prepare_passes (g : SharedGraph) (s : ScopeId) :
    e.Passes w (.prepare g s) ((e.prepare g s w).map fun _ => none) := by
  unfold prepare
  by_cases hs : e.state = .running
  · rw [if_pos hs]
    refine .refused rfl ?_
    rw [hs]
    decide
  · rw [if_neg hs]
    cases hg : g.graph.validate w.heap with
    | error f => exact .invalid hs hg
    | ok u => exact .prepared hs hg

/-- There are as many copies as operations. -/
theorem copyAll_length (ops : List Operation) (c : Copying) :
    (Operation.copyAll ops c).1.length = ops.length := by
  induction ops generalizing c with
  | nil => rfl
  | cons op ops ih =>
      rw [Operation.copyAll, Copy.bind_apply, Copy.bind_apply]
      show (Operation.copyAll ops (op.copy c).2).1.length + 1 = ops.length + 1
      rw [ih]

/-- A copy is at the point of its life that the original is at. -/
theorem copy_samePoint (σ : Session) : e.SamePoint (e.copy σ w).1 where
  state := rfl
  error := rfl
  executed := rfl
  pending := by
    obtain ⟨c, hc⟩ : ∃ c, (e.copy σ w).1.continuation =
        (Operation.copyAll e.continuation.reverse c).1.reverse := ⟨_, rfl⟩
    rw [hc, ← List.length_eq_zero_iff, List.length_reverse, copyAll_length,
      List.length_reverse, List.length_eq_zero_iff]

/-- Everything that a dealing can do is listed. -/
theorem deal_passes (h : e.deal fuel w d = some r) : e.Passes w d r := by
  have hself : e.SamePoint e := ⟨rfl, Iff.rfl, rfl, rfl⟩
  cases d with
  | prepare g s =>
      cases h
      exact prepare_passes g s
  | start =>
      obtain ⟨reply, hreply, rfl⟩ := Option.map_eq_some_iff.mp h
      exact run_passes (.inl rfl) rfl hreply
  | step =>
      obtain ⟨reply, hreply, rfl⟩ := Option.map_eq_some_iff.mp h
      exact run_passes (.inr rfl) rfl hreply
  | stop =>
      cases h
      exact stop_passes
  | copy σ =>
      cases h
      exact .aside rfl hself
  | become σ =>
      cases h
      exact .aside rfl (copy_samePoint σ)
  | ask c q =>
      cases h
      exact .aside rfl hself
  | cancel t =>
      cases h
      exact .aside rfl hself
  | watch t =>
      cases h
      exact .aside rfl ⟨rfl, Iff.rfl, rfl, rfl⟩
  | meanwhile f =>
      cases h
      exact .aside rfl hself

/-- What a dealing does shows in its moment. -/
theorem Passes.leads (h : e.Passes w d r) :
    Moment.Leads e.state ⟨d, r.result, r.events⟩ r.engine.state := by
  cases h with
  | prepared hs _ => exact .prepared hs
  | invalid hs _ => exact .invalid hs
  | ended hd hc ht _ => exact .ended hd hc ht
  | faulted hd hc _ => exact .faulted hd hc
  | stopped hs => exact .stopped hs
  | refused hd hc => exact .refused hd hc
  | aside hd hsame =>
      simp only [hsame.state]
      exact .aside hd

end Engine

/-! ## Logs -/

namespace RunState

variable {s t u : RunState} {l l' : List RunState} {arrows : List (RunState × RunState)}

theorem Path.append (h : Path arrows s l t) (h' : Path arrows t l' u) :
    Path arrows s (l ++ l') u := by
  induction l generalizing s with
  | nil =>
      have hst : s = t := h
      rw [hst]
      exact h'
  | cons x l ih => exact ⟨h.1, ih h.2⟩

/-- The arrows of a run are in the diagram. -/
theorem run_arrows (hs : s.canRun = true) (ht : t.EndsRun ∨ t = .faulted) :
    (s, running) ∈ diagram ++ shortcuts ∧ (running, t) ∈ diagram ++ shortcuts := by
  constructor
  · cases s <;> simp_all [canRun, diagram]
  · rcases ht with (rfl | rfl | rfl) | rfl <;> simp [diagram]

end RunState

namespace Moment

variable {s t u : RunState} {m : Moment} {log log' : List Moment} {f : Failure}

theorem Silent.nil : Silent [] := by
  simp [Silent]

theorem Silent.snoc (h : Silent log) (hm : m.events = []) : Silent (log ++ [m]) := by
  intro x hx
  rcases List.mem_append.mp hx with hx | hx
  · exact h x hx
  · rw [List.mem_singleton.mp hx]
    exact hm

/-- Silence after a fault leaves it the last thing told. -/
theorem FaultedBy.snoc (h : FaultedBy f log) (hm : m.events = []) : FaultedBy f (log ++ [m]) := by
  obtain ⟨before, x, after, rfl, hcall, hresult, hevents, hsilent⟩ := h
  exact ⟨before, x, after ++ [m], by simp, hcall, hresult, hevents, hsilent.snoc hm⟩

theorem StoppedAfter.snoc (h : StoppedAfter f log) (hm : m.events = []) :
    StoppedAfter f (log ++ [m]) := by
  obtain ⟨before, x, after, rfl, hfault, hcall, hresult, hevents, hsilent⟩ := h
  exact ⟨before, x, after ++ [m], by simp, hfault, hcall, hresult, hevents, hsilent.snoc hm⟩

/-- The states told of in one moment lead from the state before it to the one
after it. -/
theorem Leads.path (h : m.Leads s t) :
    RunState.Path (RunState.diagram ++ RunState.shortcuts) s (Event.states m.events) t := by
  cases h with
  | prepared hs =>
      have harrow : (s, RunState.ready) ∈ RunState.diagram ++ RunState.shortcuts := by
        cases s <;> simp_all [RunState.diagram, RunState.shortcuts]
      exact ⟨harrow, rfl⟩
  | invalid hs => rfl
  | ended hd hc ht =>
      obtain ⟨hstart, hend⟩ := RunState.run_arrows hc (.inl ht)
      exact ⟨hstart, hend, rfl⟩
  | faulted hd hc =>
      obtain ⟨hstart, hend⟩ := RunState.run_arrows hc (.inr rfl)
      exact ⟨hstart, hend, rfl⟩
  | stopped hs =>
      have harrow : (s, RunState.stopped) ∈ RunState.diagram ++ RunState.shortcuts := by
        cases s <;> simp_all [EngineCall.allowed, RunState.diagram, RunState.shortcuts]
      exact ⟨harrow, rfl⟩
  | refused hd hc => rfl
  | aside hd => rfl

/-- The states told of in a whole log lead from the first state to the last. -/
theorem LeadsOn.path (h : LeadsOn s log t) :
    RunState.Path (RunState.diagram ++ RunState.shortcuts) s (Event.states (heard log)) t := by
  induction h with
  | nil => rfl
  | @snoc t u log m hlog hm ih =>
      have happ : Event.states (heard (log ++ [m])) =
          Event.states (heard log) ++ Event.states m.events := by
        simp [heard, Event.states]
      rw [happ]
      exact ih.append hm.path

end Moment

namespace Engine

variable {e e₀ : Engine} {w w₀ w₁ : World} {fuel : Nat} {d : Dealing} {f : Failure}
  {r : Reply (Option RunState)} {log log' : List Moment} {config : Config}

/-! ## Whole lives -/

theorem Orderly.error_of_canRun (h : e.Orderly log) (hc : e.state.canRun = true) :
    e.error = none := by
  cases he : e.error with
  | none => rfl
  | some f =>
      rcases h.error f he with hs | ⟨hs, -⟩
      · simp [hs, RunState.canRun] at hc
      · simp [hs, RunState.canRun] at hc

/-- Where nothing is told, an engine stays at its point. -/
theorem Orderly.aside {e' : Engine} {m : Moment} (h : e.Orderly log) (hsame : e.SamePoint e')
    (hm : m.events = []) (hleads : m.Leads e.state e.state) : e'.Orderly (log ++ [m]) where
  idle := by
    rw [hsame.state]
    exact h.idle
  finished := by
    rw [hsame.state, hsame.pending]
    exact h.finished
  paused := by
    rw [hsame.state, Ne, hsame.pending]
    exact h.paused
  faulted := by
    rw [hsame.state, hsame.error, Ne, hsame.pending]
    intro hs
    obtain ⟨hpending, f, hf, hfault⟩ := h.faulted hs
    exact ⟨hpending, f, hf, hfault.snoc hm⟩
  ready := by
    rw [hsame.state, hsame.error, hsame.executed]
    exact h.ready
  error := by
    rw [hsame.state, hsame.error]
    intro f hf
    rcases h.error f hf with hs | ⟨hs, hstop⟩
    · exact .inl hs
    · exact .inr ⟨hs, hstop.snoc hm⟩
  told := by
    rw [hsame.state]
    exact h.told.snoc hleads

/-- One dealing keeps an engine orderly. -/
theorem Orderly.passes (h : e.Orderly log) (hp : e.Passes w d r) :
    r.engine.Orderly (log ++ [⟨d, r.result, r.events⟩]) := by
  have htold := h.told.snoc hp.leads
  have hsame : e.SamePoint e := ⟨rfl, Iff.rfl, rfl, rfl⟩
  cases hp with
  | prepared hs hg =>
      exact ⟨by simp, by simp, by simp, by simp, fun _ => ⟨rfl, rfl⟩, by simp, htold⟩
  | invalid hs hg => exact h.aside hsame rfl (.invalid hs)
  | @ended d t pending n w' hd hc hends hpending =>
      -- The failure of an earlier run would have kept this one from starting.
      have hno : e.error = none := h.error_of_canRun hc
      refine ⟨?_, ?_, hpending.mp, ?_, ?_, ?_, htold⟩
      · rcases hends with rfl | rfl | rfl <;> simp
      · intro ht
        have hne : t ≠ .paused := by
          rcases ht with ht | ht <;> simp_all
        rwa [Ne, hpending, not_not] at hne
      · rcases hends with rfl | rfl | rfl <;> simp
      · rcases hends with rfl | rfl | rfl <;> simp
      · intro f hf
        simp [hno] at hf
  | @faulted d f pending n w' hd hc hpending =>
      have hfault : Moment.FaultedBy f (log ++ [⟨d, .error f,
          [.entered .running, .timePassed, .failed f, .entered .faulted]⟩]) :=
        ⟨log, _, [], rfl, hd, rfl, rfl, .nil⟩
      exact ⟨by simp, by simp, by simp, fun _ => ⟨hpending, f, rfl, hfault⟩, by simp,
        fun _ _ => .inl rfl, htold⟩
  | stopped hs =>
      refine ⟨by simp, fun _ => rfl, by simp, by simp, by simp, ?_, htold⟩
      intro f hf
      rcases h.error f hf with hfaulted | ⟨hstopped, -⟩
      · obtain ⟨-, f', hf', hfault⟩ := h.faulted hfaulted
        obtain rfl : f' = f := Option.some.inj (hf'.symm.trans hf)
        exact .inr ⟨rfl, log, _, [], rfl, hfault, rfl, rfl, rfl, .nil⟩
      · rw [hstopped] at hs
        simp [EngineCall.allowed] at hs
  | refused hd hc => exact h.aside hsame rfl (.refused hd hc)
  | aside hd hsame => exact h.aside hsame rfl (.aside hd)

/-- Any number of dealings keep an engine orderly. -/
theorem Orderly.live (ds : List Dealing) (h : e₀.Orderly log)
    (hlive : e₀.live fuel ds w₀ = some (log', e, w)) : e.Orderly (log ++ log') := by
  induction ds generalizing e₀ w₀ log log' with
  | nil =>
      simp only [Engine.live, Option.some.injEq, Prod.mk.injEq] at hlive
      obtain ⟨rfl, rfl, rfl⟩ := hlive
      simpa using h
  | cons d ds ih =>
      cases hdeal : e₀.deal fuel w₀ d with
      | none => simp [Engine.live, hdeal] at hlive
      | some r =>
          simp only [Engine.live, hdeal, Option.map_eq_some_iff, Prod.mk.injEq] at hlive
          obtain ⟨⟨log₁, e₁, w₁⟩, hrest, rfl, rfl, rfl⟩ := hlive
          have hnext := h.passes (deal_passes hdeal)
          have hall := ih hnext hrest
          simpa using hall

theorem created_orderly (h : create config w₀ = (.ok e₀, w₁)) : e₀.Orderly [] := by
  unfold create at h
  cases hconfig : config.fault? with
  | some text =>
      simp only [hconfig] at h
      cases h
  | none =>
      simp only [hconfig] at h
      cases h
      exact ⟨by simp [ofConfig], fun _ => rfl, by simp [ofConfig], by simp [ofConfig],
        by simp [ofConfig], by simp [ofConfig], .nil⟩

/-- A call in which nothing is told is one that the state does not allow. -/
theorem Passes.not_allowed {c : EngineCall} (h : e.Passes w d r) (hd : d.call? = some c)
    (hc : c ≠ .prepare) (hevents : r.events = []) : e.state ∉ c.allowed := by
  cases h with
  | invalid hs hg =>
      cases hd
      exact absurd rfl hc
  | refused hd' hno =>
      rw [hd] at hd'
      cases hd'
      exact hno
  | aside hd' hsame =>
      rw [hd] at hd'
      cases hd'
  | _ => cases hevents

/-- A call is refused exactly where the state does not allow it, and then it
changes nothing and nothing is told. -/
theorem refused_iff {c : EngineCall} (hd : d.call? = some c) (hc : c ≠ .prepare) :
    e.deal fuel w d = some ⟨.error (.invalidState c e.state), e, w, []⟩ ↔ e.state ∉ c.allowed := by
  constructor
  · intro h
    exact (deal_passes h).not_allowed hd hc rfl
  · intro hno
    have hrun (hs : e.state ∉ EngineCall.start.allowed) : e.state.canRun = false := by
      cases he : e.state <;> simp_all [EngineCall.allowed, RunState.canRun]
    cases d with
    | start =>
        cases hd
        simp only [deal, start, run_refused (hrun hno)]
        rfl
    | step =>
        cases hd
        simp only [deal, step, run_refused (hrun hno)]
        rfl
    | stop =>
        cases hd
        cases he : e.state <;> simp_all [EngineCall.allowed, deal, stop, refuse, Reply.map, Except.map]
    | prepare g s =>
        cases hd
        exact absurd rfl hc
    | _ => cases hd

/-- A graph that does not pass its check is not prepared, and nothing changes. -/
theorem prepare_invalid {g : SharedGraph} (s : ScopeId) (hs : e.state ≠ .running)
    (hg : g.graph.validate w.heap = .error f) : e.prepare g s w = ⟨.error f, e, w, []⟩ := by
  rw [prepare, if_neg hs, hg]

/-- After any dealings with a fresh engine it is orderly; what was told is a
path of the diagram and its shortcuts; and what it refuses, or what it cannot
prepare, changes nothing. -/
theorem life_orderly (hnew : create config w₀ = (.ok e₀, w₁)) (ds : List Dealing)
    (hlive : e₀.live fuel ds w₁ = some (log, e, w)) :
    e.Orderly log ∧
      RunState.Path (RunState.diagram ++ RunState.shortcuts) .stopped
        (Event.states (Moment.heard log)) e.state ∧
      (∀ fuel d c, d.call? = some c → c ≠ .prepare →
        (e.deal fuel w d = some ⟨.error (.invalidState c e.state), e, w, []⟩ ↔
          e.state ∉ c.allowed)) ∧
      ∀ g s f, g.graph.validate w.heap = .error f → e.prepare g s w = ⟨.error f, e, w, []⟩ := by
  have horderly : e.Orderly log := (created_orderly hnew).live ds hlive
  refine ⟨horderly, horderly.told.path, ?_, ?_⟩
  · intro fuel d c hd hc
    exact refused_iff hd hc
  · intro g s f hg
    exact prepare_invalid s horderly.idle hg

end Engine

namespace Sample

/-- A scope and nothing else. -/
def loneScope : World := { World.empty with heap := ⟨#[], #[.named "Global"], 0, 2⟩ }

/-- A graph of one operator, which fails. -/
def failingGraph : SharedGraph :=
  ⟨⟨1⟩, ⟨"Failing", .empty, #[⟨"Broken", .empty, none, .leaf (.fail "out of order")⟩], some ⟨0⟩⟩⟩

/-- A failed run, a request, and a copy: the copy is faulted, with the failure
that the run answered. -/
theorem life_orderly_failing :
    ∃ e₀ w₁ log e w, Engine.create .standard loneScope = (.ok e₀, w₁) ∧
      e₀.live 2 [.prepare failingGraph ⟨0⟩, .start, .ask ⟨0⟩ .pause, .become .empty] w₁ =
        some (log, e, w) ∧
      e.state = .faulted ∧ e.continuation ≠ [] ∧
      ∃ f, e.error = some f ∧ Moment.FaultedBy f log := by
  have hnew : Engine.create .standard loneScope =
      (.ok (.ofConfig .standard ⟨0⟩), loneScope.newControl.2) := rfl
  have hstates : ((Engine.ofConfig .standard ⟨0⟩).live 2
      [.prepare failingGraph ⟨0⟩, .start, .ask ⟨0⟩ .pause, .become .empty]
      loneScope.newControl.2).map (fun x => x.2.1.state) = some .faulted := by
    decide +kernel
  obtain ⟨⟨log, e, w⟩, hlive, hstate⟩ := Option.map_eq_some_iff.mp hstates
  have horderly := (Engine.life_orderly hnew _ hlive).1
  exact ⟨_, _, log, e, w, hnew, hlive, hstate, horderly.faulted hstate⟩

/-- An engine that is stopped before it has run leaves the diagram. -/
theorem stop_off_diagram :
    ∃ e₀ w₁ log e w, Engine.create .standard loneScope = (.ok e₀, w₁) ∧
      e₀.live 1 [.prepare idleGraph ⟨0⟩, .stop] w₁ = some (log, e, w) ∧
      Event.states (Moment.heard log) = [.ready, .stopped] ∧
      ∀ t, ¬ RunState.Path RunState.diagram .stopped (Event.states (Moment.heard log)) t := by
  refine ⟨_, _, _, _, _, rfl, rfl, rfl, ?_⟩
  intro t hpath
  have harrow : (RunState.ready, RunState.stopped) ∈ RunState.diagram := hpath.2.1
  simp [RunState.diagram] at harrow

end Sample

end ScopeFlow
