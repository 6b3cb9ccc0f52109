import ScopeFlow.Proofs.Engine.Controls
import ScopeFlow.Proofs.Engine.Requests

/-!
# Prepared anew

Preparing an engine makes it forget everything: from then on it cannot be told
from a new one of the same configuration, under the same caller's token, that
is prepared in its place. Only the token of a caller remembers: it is not
cleared, and stops the next run if it is cancelled.

* `Engine.Lived` are the engines that there can be, after any dealings, and
  `Seated` is what is used of them;
* `Engine.anew` makes a new engine in the place of another, and `Anew` says
  what that comes to;
* `Engine.prepare_forgets` is the theorem.
-/

namespace ScopeFlow

variable {w w' : World} {e e' : Engine} {fuel : Nat} {t t' : TokenId}

/-! ## Engines that there can be -/

/-- Nothing that has been made is lost, and no control changes its token. -/
structure World.Retains (w w' : World) : Prop where
  controls : w.controls.size ≤ w'.controls.size
  tokens : w.tokens.size ≤ w'.tokens.size
  token : ∀ c : ControlId, c.index < w.controls.size → w'.token c = w.token c

/-- A dealing that can be made in a world: the token of a caller has been made,
and others take nothing away. -/
def Dealing.Possible (w : World) : Dealing → Prop
  | .watch t => t.index < w.tokens.size
  | .meanwhile f => w.Retains (f w)
  | _ => True

namespace Engine

/-- The engines that there can be, each with a world that it is in. -/
inductive Lived : Engine → World → Prop
  | created {config : Config} {w w' : World} {e : Engine} :
      create config w = (.ok e, w') → Lived e w'
  | dealt {e : Engine} {w : World} {fuel : Nat} {d : Dealing} {r : Reply (Option RunState)} :
      Lived e w → d.Possible w → e.deal fuel w d = some r → Lived r.engine r.world

/-- The configuration has passed its check, and the control and its token have
been made. -/
structure Seated (e : Engine) (w : World) : Prop where
  config : e.config.fault? = none
  control : e.control.index < w.controls.size
  token : (w.token e.control).index < w.tokens.size

end Engine

namespace World.Retains

theorem refl : w.Retains w := ⟨Nat.le_refl _, Nat.le_refl _, fun _ _ => rfl⟩

theorem trans {w'' : World} (h : w.Retains w') (h' : w'.Retains w'') : w.Retains w'' :=
  ⟨h.controls.trans h'.controls, h.tokens.trans h'.tokens, fun c hc =>
    (h'.token c (Nat.lt_of_lt_of_le hc h.controls)).trans (h.token c hc)⟩

theorem updateControl (w : World) (c : ControlId) {f : Control → Control}
    (hf : ∀ k, (f k).token = k.token) : w.Retains (w.updateControl c f) where
  controls := by simp [World.updateControl]
  tokens := Nat.le_refl _
  token d _ := control_keeps (fun k => k.token = w.token d) (fun k hk => (hf k).trans hk) rfl

theorem setToken (w : World) (t : TokenId) (cancelled : Bool) :
    w.Retains (w.setToken t cancelled) :=
  ⟨Nat.le_refl _, by simp [World.setToken], fun _ _ => rfl⟩

theorem pushControls (w : World) (k : Control) :
    w.Retains { w with controls := w.controls.push k } :=
  ⟨by simp, Nat.le_refl _, fun _ hc => congrArg Control.token (control_push hc)⟩

theorem pushTokens (w : World) : w.Retains { w with tokens := w.tokens.push false } :=
  ⟨Nat.le_refl _, by simp, fun _ _ => rfl⟩

theorem request (w : World) (setting : Setting) (r : Request) :
    w.Retains (w.request setting r) := by
  obtain ⟨t, engine⟩ := setting
  cases engine with
  | none => cases r <;> first | exact .refl | exact setToken w t true
  | some c =>
    cases r with
    | pause => exact updateControl w c fun _ => rfl
    | stop => exact updateControl w c fun _ => rfl
    | abort =>
      have hupdate := updateControl w c (f := fun k => { k with abort := true }) fun _ => rfl
      exact hupdate.trans (setToken _ _ true)
    | cancel => exact setToken w t true

theorem resetControl (w : World) (c : ControlId) : w.Retains (w.resetControl c) := by
  have hupdate := updateControl w c
    (f := fun k => { k with pause := false, stop := false, abort := false }) fun _ => rfl
  unfold World.resetControl
  dsimp only
  split
  · exact hupdate
  · exact hupdate.trans (setToken _ _ false)

theorem detachedControl (w : World) (c : ControlId) : w.Retains (w.detachedControl c).2 := by
  unfold World.detachedControl
  split
  · exact pushControls w _
  · exact (pushTokens w).trans (pushControls _ _)

end World.Retains

namespace Engine

/-- No run loses anything. -/
theorem run_retains {call : EngineCall} {budget : Option Nat} {reply : Reply RunState}
    (h : e.run fuel call budget w = some reply) :
    w.Retains reply.world ∧ reply.engine.control = e.control ∧ reply.engine.config = e.config := by
  cases hc : e.state.canRun with
  | false =>
    rw [run_refused hc] at h
    cases h
    exact ⟨.refl, rfl, rfl⟩
  | true =>
    rw [run, if_pos hc, Option.map_eq_some_iff] at h
    obtain ⟨d, hd, rfl⟩ := h
    have hupholds : ∀ t : TokenId, Setting.Upholds ⟨t, some e.control⟩ w.Retains := fun t =>
      { same := fun hsame hw => hw.trans
          ⟨by rw [hsame.controls], by rw [hsame.tokens], fun c _ => by
            rw [World.token, World.token, hsame.control]⟩
        request := fun r hw => hw.trans (.request _ _ r) }
    have hbears : d.Bears w.Retains (fun _ _ => True) w :=
      DrainSetting.drain_bears (fun v ctx pending hv _ =>
        ⟨⟨DrainSetting.execute_upholds hupholds ctx pending v hv, fun _ h => h⟩,
          fun _ _ _ _ => trivial⟩) hd .refl fun _ _ => trivial
    have hkept := hbears.world.good
    unfold afterDrain
    split
    · refine ⟨?_, rfl, rfl⟩
      dsimp only
      split
      · exact hkept.trans (.updateControl _ _ fun _ => rfl)
      · exact hkept
    · exact ⟨hkept, rfl, rfl⟩
    · exact ⟨hkept, rfl, rfl⟩

theorem Seated.retains (h : e.Seated w) (hw : w.Retains w') (hcontrol : e'.control = e.control)
    (hconfig : e'.config = e.config) : e'.Seated w' where
  config := hconfig ▸ h.config
  control := hcontrol ▸ Nat.lt_of_lt_of_le h.control hw.controls
  token := by
    rw [hcontrol, hw.token _ h.control]
    exact Nat.lt_of_lt_of_le h.token hw.tokens

/-- An engine under a new control. -/
theorem Seated.pushed (hconfig : e.config.fault? = none) (hcontrol : e.control = ⟨w.controls.size⟩)
    {k : Control} (htoken : k.token.index < w.tokens.size) :
    e.Seated { w with controls := w.controls.push k } where
  config := hconfig
  control := by simp [hcontrol]
  token := by
    rw [hcontrol, World.token, World.control_push_self]
    exact htoken

theorem Seated.copy (h : e.Seated w) (σ : Session) : (e.copy σ w).1.Seated (e.copy σ w).2.2 := by
  let v : World := { w with heap := (e.copyState.run ⟨σ, w.heap⟩).2.heap }
  have hcopy : ((e.copy σ w).1.control, (e.copy σ w).2.2) = v.detachedControl e.control := rfl
  have hconfig : (e.copy σ w).1.config.fault? = none := h.config
  have htoken : (v.control e.control).token.index < v.tokens.size := h.token
  unfold World.detachedControl at hcopy
  split at hcopy
  · obtain ⟨hcontrol, hworld⟩ := Prod.mk.inj hcopy
    rw [hworld]
    exact .pushed hconfig hcontrol htoken
  · obtain ⟨hcontrol, hworld⟩ := Prod.mk.inj hcopy
    rw [hworld]
    exact .pushed (w := v.newToken.2) hconfig hcontrol (by simp [World.newToken, Control.fresh])

theorem copy_retains (e : Engine) (σ : Session) (w : World) : w.Retains (e.copy σ w).2.2 := by
  let v : World := { w with heap := (e.copyState.run ⟨σ, w.heap⟩).2.heap }
  have hheap : w.Retains v := ⟨Nat.le_refl _, Nat.le_refl _, fun _ _ => rfl⟩
  exact hheap.trans (.detachedControl v e.control)

theorem Seated.prepare (h : e.Seated w) (g : SharedGraph) (s : ScopeId) :
    (e.prepare g s w).engine.Seated (e.prepare g s w).world := by
  unfold Engine.prepare
  split
  · exact h
  · cases g.graph.validate w.heap with
    | error failure => exact h
    | ok u =>
      let v : World := { w with heap := (firstOperations g s w.heap).2 }
      have hheap : w.Retains v := ⟨Nat.le_refl _, Nat.le_refl _, fun _ _ => rfl⟩
      exact h.retains (hheap.trans (.resetControl v e.control)) rfl rfl

/-- An engine stays seated whatever is done with it. -/
theorem Seated.deal {d : Dealing} {r : Reply (Option RunState)} (h : e.Seated w)
    (hd : d.Possible w) (hdeal : e.deal fuel w d = some r) : r.engine.Seated r.world := by
  cases d with
  | prepare g s =>
    cases hdeal
    exact h.prepare g s
  | start =>
    obtain ⟨reply, hrun, rfl⟩ := Option.map_eq_some_iff.mp hdeal
    obtain ⟨hw, hcontrol, hconfig⟩ := run_retains hrun
    exact h.retains hw hcontrol hconfig
  | step =>
    obtain ⟨reply, hrun, rfl⟩ := Option.map_eq_some_iff.mp hdeal
    obtain ⟨hw, hcontrol, hconfig⟩ := run_retains hrun
    exact h.retains hw hcontrol hconfig
  | stop =>
    cases hdeal
    show (e.stop w).engine.Seated (e.stop w).world
    unfold Engine.stop
    split <;> exact h.retains .refl rfl rfl
  | copy σ =>
    cases hdeal
    exact h.retains (copy_retains e σ w) rfl rfl
  | become σ =>
    cases hdeal
    exact h.copy σ
  | ask c q =>
    cases hdeal
    exact h.retains (World.Retains.request w ⟨w.token c, some c⟩ q) rfl rfl
  | cancel t =>
    cases hdeal
    exact h.retains (.setToken w t true) rfl rfl
  | watch t =>
    cases hdeal
    have hconfig : (e.withToken t w).1.config.fault? = none := h.config
    exact .pushed (k := .fresh t true) hconfig rfl hd
  | meanwhile f =>
    cases hdeal
    exact h.retains hd rfl rfl

/-- Every engine that there can be is seated. -/
theorem Lived.seated (h : e.Lived w) : e.Seated w := by
  induction h with
  | @created config w w' e hcreate =>
    unfold create at hcreate
    cases hfault : config.fault? with
    | some text =>
      rw [hfault] at hcreate
      cases hcreate
    | none =>
      rw [hfault] at hcreate
      cases hcreate
      exact .pushed (w := w.newToken.2) hfault rfl (by simp [World.newToken, Control.fresh])
  | dealt _ hd hdeal ih => exact ih.deal hd hdeal

/-- A life leads from engine to engine that there can be. -/
theorem Lived.live {ds : List Dealing} {log : List Moment} (h : e.Lived w)
    (hds : ∀ d ∈ ds, ∀ w, d.Possible w) (hlive : e.live fuel ds w = some (log, e', w')) :
    e'.Lived w' := by
  induction ds generalizing e w log with
  | nil =>
    cases hlive
    exact h
  | cons d ds ih =>
    cases hdeal : e.deal fuel w d with
    | none => simp [Engine.live, hdeal] at hlive
    | some r =>
      simp only [Engine.live, hdeal, Option.map_eq_some_iff, Prod.mk.injEq] at hlive
      obtain ⟨⟨log₁, e₁, w₁⟩, hrest, -, rfl, rfl⟩ := hlive
      exact ih (h.dealt (hds d List.mem_cons_self w) hdeal)
        (fun d' hd' => hds d' (List.mem_cons_of_mem d hd')) hrest

/-! ## Prepared anew -/

/-- A new engine with the configuration of another one, and under the same
caller's token if that has one. -/
def anew (e : Engine) : Act World Engine := do
  let f ← create e.config
  let k ← Act.see fun w => w.control e.control
  if k.external then Act.change fun w => f.withToken k.token w else pure f

/-- What a new engine in the place of another comes to, from the seat that it
is given. -/
structure Anew (e : Engine) (w : World) (b : Seat) (w' : World) : Prop where
  made : e.anew w = (.ok (ofConfig e.config b.control), w')
  heap : w'.heap = w.heap
  seat : b.In w'
  fresh : w'.control b.control = .fresh b.token (w.control e.control).external
  tokens : w.tokens.size ≤ w'.tokens.size
  token : b.token.index < w'.tokens.size
  cancelled : ∀ t, w'.isCancelled t = w.isCancelled t
  owner : (w.control e.control).external = true ∧ b.token = w.token e.control ∨
    (w.control e.control).external = false ∧ b.token = ⟨w.tokens.size⟩

theorem Seated.anew (h : e.Seated w) : ∃ b w', e.Anew w b w' := by
  let v : World := { w.newToken.2 with
    controls := w.controls.push (.fresh ⟨w.tokens.size⟩ false) }
  have hcreate : create e.config w = (.ok (ofConfig e.config ⟨w.controls.size⟩), v) := by
    unfold create
    rw [h.config]
    rfl
  have hsame : v.control e.control = w.control e.control :=
    World.control_push (w := w.newToken.2) h.control
  have hanew : e.anew w = (if (w.control e.control).external then
      Act.change fun w' => (ofConfig e.config ⟨w.controls.size⟩).withToken
        (w.control e.control).token w' else pure (ofConfig e.config ⟨w.controls.size⟩)) v := by
    unfold Engine.anew
    rw [Act.bind_apply, hcreate]
    dsimp only
    rw [Act.bind_apply, Act.see_apply, hsame]
  have hcancelled : ∀ t, v.isCancelled t = w.isCancelled t := fun t =>
    World.isCancelled_newToken (w := w)
  have htokens : v.tokens.size = w.tokens.size + 1 := Array.size_push _
  have hbound := h.token
  cases hexternal : (w.control e.control).external with
  | true =>
    rw [hexternal, if_pos rfl] at hanew
    let u : World := { v with controls := v.controls.push (.fresh (w.token e.control) true) }
    have hpush : u.control ⟨v.controls.size⟩ = .fresh (w.token e.control) true :=
      World.control_push_self
    have hsize : u.tokens.size = w.tokens.size + 1 := htokens
    exact ⟨⟨⟨v.controls.size⟩, w.token e.control⟩, u, hanew, rfl,
      ⟨by simp [u], by rw [World.token, hpush]; rfl⟩, by rw [hexternal]; exact hpush,
      Nat.le_of_lt (by omega), Nat.lt_of_lt_of_le hbound (by omega), hcancelled,
      .inl ⟨hexternal, rfl⟩⟩
  | false =>
    rw [hexternal, if_neg Bool.false_ne_true] at hanew
    have hpush := World.control_push_self (w := w.newToken.2)
      (k := .fresh ⟨w.tokens.size⟩ false)
    exact ⟨⟨⟨w.controls.size⟩, ⟨w.tokens.size⟩⟩, v, hanew, rfl,
      ⟨by simp [v], congrArg Control.token hpush⟩, by rw [hexternal]; exact hpush,
      Nat.le_of_lt (by omega), by simp [htokens], hcancelled, .inr ⟨hexternal, rfl⟩⟩

/-- After a reset an own token is not cancelled; other tokens are as they were. -/
theorem isCancelled_resetControl {c : ControlId} (h : (w.token c).index < w.tokens.size)
    (t : TokenId) : (w.resetControl c).isCancelled t =
      if (w.control c).external = false ∧ w.token c = t then false else w.isCancelled t := by
  unfold World.resetControl
  dsimp only
  cases (w.control c).external with
  | true => simp [World.updateControl, World.isCancelled]
  | false =>
    rw [if_neg Bool.false_ne_true, World.isCancelled_setToken]
    have hsize : (w.token c).index < (w.updateControl c fun k =>
      { k with pause := false, stop := false, abort := false }).tokens.size := h
    simp only [hsize, and_true, true_and]
    rfl

/-- What an accepted preparation comes to. -/
theorem prepare_of_ok {g : SharedGraph} {s : ScopeId} (h : (e.prepare g s w).result = .ok ()) :
    g.graph.validate w.heap = .ok () ∧ e.prepare g s w = ⟨.ok (), { e with
        state := .ready, graph := some g, scope := some s
        continuation := (firstOperations g s w.heap).1
        error := none, executed := 0, hasRun := false },
      World.resetControl { w with heap := (firstOperations g s w.heap).2 } e.control,
      [.entered .ready]⟩ := by
  unfold prepare at h ⊢
  split at h
  · cases h
  · next hrunning =>
    rw [if_neg hrunning]
    cases hvalid : g.graph.validate w.heap with
    | error failure =>
      rw [hvalid] at h
      cases h
    | ok u => exact ⟨rfl, rfl⟩

/-- A token in the eyes of a new engine: its own is in the place of the other
engine's own. -/
def renamed (e : Engine) (w : World) (own t : TokenId) : TokenId :=
  if t = w.token e.control then own else t

namespace Anew

variable {b : Seat} {g : SharedGraph} {s : ScopeId}

theorem renamed_lt (h : e.Anew w b w') (ht : t.index < w.tokens.size) :
    (e.renamed w b.token t).index < w'.tokens.size := by
  unfold renamed
  split
  · exact h.token
  · exact Nat.lt_of_lt_of_le ht h.tokens

/-- The new engine's own token is new, and a caller's is the same. -/
theorem token_ne (h : e.Anew w b w') (ht : t.index < w.tokens.size)
    (hne : t ≠ w.token e.control) : b.token ≠ t := by
  rintro rfl
  rcases h.owner with ⟨-, hsame⟩ | ⟨-, hnew⟩
  · exact hne hsame
  · rw [hnew] at ht
    exact Nat.lt_irrefl _ ht

theorem renamed_inj {u : TokenId} (h : e.Anew w b w') (ht : t.index < w.tokens.size)
    (hu : u.index < w.tokens.size) : t = u ↔ e.renamed w b.token t = e.renamed w b.token u := by
  refine ⟨fun heq => heq ▸ rfl, fun heq => ?_⟩
  unfold renamed at heq
  split at heq
  · next hown =>
    split at heq
    · next hown' => rw [hown, hown']
    · next hne => exact absurd heq (h.token_ne hu hne)
  · next hne =>
    split at heq
    · exact absurd heq.symm (h.token_ne ht hne)
    · exact heq

/-- Both engines' own tokens are cleared, and a caller's is as it was. -/
theorem renamed_cancelled (h : e.Anew w b w') (hseated : e.Seated w) (heap : Heap)
    (ht : t.index < w.tokens.size) :
    (World.resetControl { w' with heap } b.control).isCancelled (e.renamed w b.token t) =
      (World.resetControl { w with heap } e.control).isCancelled t := by
  have hright : (World.token { w' with heap } b.control).index < w'.tokens.size :=
    h.seat.has ▸ h.token
  refine (isCancelled_resetControl (w := { w' with heap }) hright _).trans
    (.trans ?_ (isCancelled_resetControl (w := { w with heap }) hseated.token _).symm)
  show (if (w'.control b.control).external = false ∧
      w'.token b.control = e.renamed w b.token t then false
      else w'.isCancelled (e.renamed w b.token t)) =
    if (w.control e.control).external = false ∧ w.token e.control = t then false
      else w.isCancelled t
  have hexternal : (w'.control b.control).external = (w.control e.control).external := by
    rw [h.fresh]
    rfl
  simp only [hexternal, h.seat.has, h.cancelled]
  by_cases hown : t = w.token e.control
  · rw [renamed, if_pos hown, hown]
    rcases h.owner with ⟨hexternal, hsame⟩ | ⟨hexternal, -⟩
    · simp only [hexternal, hsame]
    · simp only [hexternal, and_self, if_true]
  · have hleft : ¬ w.token e.control = t := fun heq => hown heq.symm
    simp only [renamed, hown, if_false, hleft, h.token_ne ht hown, and_false]

/-- After a preparation, the two engines' worlds match. -/
theorem reset (h : e.Anew w b w') (hseated : e.Seated w) (heap : Heap) :
    World.Matches (fun t t' => t.index < w.tokens.size ∧ t' = e.renamed w b.token t)
      ⟨e.control, w.token e.control⟩ b (World.resetControl { w with heap } e.control)
      (World.resetControl { w' with heap } b.control) := by
  have hleft := World.Retains.resetControl { w with heap } e.control
  have hright := World.Retains.resetControl { w' with heap } b.control
  exact {
    heap := (resetControl_frame { w' with heap } b.control).1.trans
      (resetControl_frame { w with heap } e.control).1.symm
    left := ⟨Nat.lt_of_lt_of_le hseated.control hleft.controls, hleft.token _ hseated.control⟩
    right := ⟨Nat.lt_of_lt_of_le h.seat.control hright.controls,
      (hright.token _ h.seat.control).trans h.seat.has⟩
    requests := by
      rw [control_resetControl, control_resetControl]
      show ({ w'.control b.control with
        pause := false, stop := false, abort := false } : Control) = _
      rw [h.fresh]
      rfl
    own := ⟨hseated.token, (if_pos rfl).symm⟩
    made := by
      rintro t t' ⟨ht, rfl⟩
      exact ⟨Nat.lt_of_lt_of_le ht hleft.tokens,
        Nat.lt_of_lt_of_le (h.renamed_lt ht) hright.tokens⟩
    cancelled := by
      rintro t t' ⟨ht, rfl⟩
      exact h.renamed_cancelled hseated heap ht
    single := by
      rintro t t' u u' ⟨ht, rfl⟩ ⟨hu, rfl⟩
      exact h.renamed_inj ht hu }

/-- The preparation of an engine and that of a new one in its place. -/
theorem prepared (h : e.Anew w b w') (hseated : e.Seated w)
    (hprep : (e.prepare g s w).result = .ok ()) :
    Reply.Matches (fun t t' => t.index < w.tokens.size ∧ t' = e.renamed w b.token t)
      ⟨e.control, w.token e.control⟩ b (e.prepare g s w)
      ((ofConfig e.config b.control).prepare g s w') := by
  obtain ⟨hvalid, hprepared⟩ := prepare_of_ok hprep
  have hstopped : (ofConfig e.config b.control).state ≠ .running := by simp [ofConfig]
  rw [hprepared, prepare, if_neg hstopped, h.heap, hvalid]
  exact ⟨rfl, rfl, rfl, rfl, h.reset hseated _⟩

end Anew

/-- Any run of the engine stops before it has executed anything. -/
def StopsAtOnce (e : Engine) (w : World) : Prop :=
  ∀ fuel call budget, e.callEfforts (fuel + 1) budget w = [] ∧ ∃ reply,
    e.run (fuel + 1) call budget w = some reply ∧ reply.result = .ok .stopped ∧
      reply.engine.executed = e.executed ∧ reply.world = w

theorem stopsAtOnce_of_cancelled (hc : e.state.canRun = true)
    (habort : (w.control e.control).abort = false)
    (hcancel : w.isCancelled (w.token e.control) = true) : e.StopsAtOnce w := by
  intro fuel call budget
  have hwhy : w.halt? e.control ≠ none := World.halt?_ne_none_iff.mpr (.inr (.inr (.inl hcancel)))
  by_cases hpending : e.continuation = []
  · rw [callEfforts, run, if_pos hc, if_pos hc, hpending]
    exact ⟨rfl, _, rfl, rfl, rfl, rfl⟩
  · obtain ⟨why, hwhy⟩ := Option.ne_none_iff_exists'.mp hwhy
    obtain ⟨hnothing, -⟩ := run_halted hc hpending hwhy (fuel + 1) call budget
    obtain ⟨-, d, hrun, hprogress, hheeds⟩ := run_halted hc hpending hwhy fuel call budget
    obtain ⟨hstate, -, hworld⟩ := hheeds.stopped habort (.inr hcancel)
    refine ⟨hnothing, _, hrun, ?_, ?_, hworld⟩
    · rw [hheeds.result, hstate]
    · rw [executed_afterDrain, hprogress]

/-- **Preparing erases the past.** Let an engine, whatever has become of it,
accept a preparation. A new engine with its configuration, under its caller's
token if it has one, accepts the same preparation, and whatever is done from
then on shows the same of both: answers, events, states, failures, counts,
pending operations, tokens, and the heap with the scope tree. A caller's token
is as it was, and if it is cancelled, the next run stops before it executes
anything; of an engine with a token of its own nothing is asked any more. -/
theorem prepare_forgets {g : SharedGraph} {s : ScopeId} (h : e.Lived w)
    (hprep : (e.prepare g s w).result = .ok ()) :
    (∃ f w', e.anew w = (.ok f, w') ∧ (f.prepare g s w').result = .ok () ∧
      ∀ fuel script, (∀ l ∈ script, ∀ t, l.token? = some t → t.index < w.tokens.size) →
        f.shows fuel (.prepare g s :: script.map (.retoken (e.renamed w (w'.token f.control)))) w' =
          e.shows fuel (.prepare g s :: script) w) ∧
    ((w.control e.control).external = true →
      (e.prepare g s w).world.isCancelled (w.token e.control) =
        w.isCancelled (w.token e.control) ∧
      (w.isCancelled (w.token e.control) = true →
        (e.prepare g s w).engine.StopsAtOnce (e.prepare g s w).world)) ∧
    ((w.control e.control).external = false → (e.prepare g s w).world.halt? e.control = none) := by
  have hseated := h.seated
  obtain ⟨-, hprepared⟩ := prepare_of_ok hprep
  let v : World := { w with heap := (firstOperations g s w.heap).2 }
  have hcontrol := control_resetControl v e.control
  have hcancelled := isCancelled_resetControl (w := v) hseated.token (w.token e.control)
  refine ⟨?_, fun hexternal => ?_, fun hown => ?_⟩
  · obtain ⟨b, w', hnew⟩ := hseated.anew
    have hmatches := hnew.prepared hseated hprep
    refine ⟨_, w', hnew.made, hmatches.result.trans hprep, fun fuel script hscript => ?_⟩
    have hshows := shows_matches fuel script hmatches.engine
      (f := e.renamed w b.token) fun l hl t ht => ⟨hscript l hl t ht, rfl⟩
    have hown : w'.token (ofConfig e.config b.control).control = b.token := hnew.seat.has
    rw [hown]
    exact congrArg₂ (fun r shows => Option.map (r :: ·) shows) (hmatches.map _).shown hshows
  · have hkept : (e.prepare g s w).world.isCancelled (w.token e.control) =
        w.isCancelled (w.token e.control) := by
      rw [hprepared]
      refine hcancelled.trans (if_neg fun hown => ?_)
      exact absurd (hexternal.symm.trans hown.1) (by decide)
    refine ⟨hkept, fun hcancel => ?_⟩
    rw [hprepared] at hkept ⊢
    refine stopsAtOnce_of_cancelled rfl (congrArg Control.abort hcontrol) ?_
    rw [World.token, hcontrol]
    exact hkept.trans hcancel
  · rw [hprepared]
    refine World.halt?_eq_none_iff.mpr ?_
    rw [hcontrol]
    exact ⟨rfl, rfl, hcancelled.trans (if_pos ⟨hown, rfl⟩), rfl⟩

end Engine

namespace Sample

/-- An engine has failed and has been aborted. Prepared once more it runs as a
new one does, to its end. -/
theorem prepare_forgets_aborted :
    ∃ log e w, (Engine.ofConfig .standard ⟨0⟩).live 2
        [.prepare failingGraph ⟨0⟩, .start, .ask ⟨0⟩ .abort] loneScope.newControl.2 =
          some (log, e, w) ∧
      e.state = .faulted ∧ w.halt? e.control = some .abort ∧
      (e.prepare idleGraph ⟨0⟩ w).world.halt? e.control = none ∧
      ∃ f w', e.anew w = (.ok f, w') ∧
        f.shows 2 [.prepare idleGraph ⟨0⟩, .start] w' =
          e.shows 2 [.prepare idleGraph ⟨0⟩, .start] w := by
  have hnew : (Engine.ofConfig .standard ⟨0⟩).Lived loneScope.newControl.2 :=
    .created (show Engine.create .standard loneScope = _ from rfl)
  have hstates : ((Engine.ofConfig .standard ⟨0⟩).live 2
      [.prepare failingGraph ⟨0⟩, .start, .ask ⟨0⟩ .abort] loneScope.newControl.2).map
        (fun x => (x.2.1.state, x.2.2.halt? x.2.1.control,
          (x.2.2.control x.2.1.control).external)) = some (.faulted, some .abort, false) := by
    decide +kernel
  obtain ⟨⟨log, e, w⟩, hlive, hfacts⟩ := Option.map_eq_some_iff.mp hstates
  simp only [Prod.mk.injEq] at hfacts
  obtain ⟨hstate, hhalt, hown⟩ := hfacts
  have hlived : e.Lived w := hnew.live (by simp [Dealing.Possible]) hlive
  have hprep : (e.prepare idleGraph ⟨0⟩ w).result = .ok () := by
    rw [Engine.prepare, hstate]
    rfl
  obtain ⟨⟨f, w', hanew, -, hshows⟩, -, hcleared⟩ := Engine.prepare_forgets hlived hprep
  exact ⟨log, e, w, hlive, hstate, hhalt, hcleared hown, f, w', hanew,
    hshows 2 [.start] (by simp [Later.token?])⟩

end Sample

end ScopeFlow
