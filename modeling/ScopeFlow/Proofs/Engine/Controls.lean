import ScopeFlow.Proofs.Drain.Controls
import ScopeFlow.Proofs.Engine.Lifecycle

/-!
# Engines under another control

Two engines that differ in their controls alone, in worlds that match from
there, show the same whatever is done with them.

* `Later` is what can be done with an engine, and `Engine.shows` is what is
  seen of it meanwhile;
* `Engine.Matches` compares two engines;
* what is done with one of them leads to the same with the other
  (`deal_matches`), and so does all that is done one after another
  (`shows_matches`).
-/

namespace ScopeFlow

/-! ## What is done and seen later -/

/-- What can be done with an engine later on. -/
inductive Later where
  | prepare (g : SharedGraph) (s : ScopeId)
  | start
  | step
  | stop
  /-- Copy it in a session and go on with the original. -/
  | copy (σ : Session)
  /-- Copy it in a session and go on with the copy. -/
  | become (σ : Session)
  /-- Ask for something through a handle of it. -/
  | ask (r : Request)
  /-- Cancel a token. -/
  | cancel (t : TokenId)
  /-- Put it under a caller's token. -/
  | watch (t : TokenId)
  /-- Others change the heap. -/
  | edit (f : Heap → Heap)

namespace Later

/-- The dealing with an engine under a control. -/
def dealing (c : ControlId) : Later → Dealing
  | prepare g s => .prepare g s
  | start => .start
  | step => .step
  | stop => .stop
  | copy σ => .copy σ
  | become σ => .become σ
  | ask r => .ask c r
  | cancel t => .cancel t
  | watch t => .watch t
  | edit f => .meanwhile fun w => { w with heap := f w.heap }

/-- The same with other tokens. -/
def retoken (f : TokenId → TokenId) : Later → Later
  | cancel t => cancel (f t)
  | watch t => watch (f t)
  | l => l

/-- The token that is named, if one is. -/
def token? : Later → Option TokenId
  | cancel t | watch t => some t
  | _ => none

end Later

/-- What is seen of an engine after something has been done with it. -/
structure Shown where
  result : Except Failure (Option RunState)
  events : List Event
  state : RunState
  error : Option Failure
  executed : Nat
  continuation : List Operation
  /-- Is the token cancelled that its operators are given? -/
  cancelled : Bool
  heap : Heap

/-- What is seen after a reply. -/
def Reply.shown (r : Reply (Option RunState)) : Shown :=
  ⟨r.result, r.events, r.engine.state, r.engine.error, r.engine.executed, r.engine.continuation,
    r.world.isCancelled (r.world.token r.engine.control), r.world.heap⟩

namespace Engine

/-- What is seen of an engine while one thing is done with it after another. -/
def shows (fuel : Nat) : List Later → Engine → World → Option (List Shown)
  | [], _, _ => some []
  | l :: script, e, w =>
    match e.deal fuel w (l.dealing e.control) with
    | none => none
    | some r => (shows fuel script r.engine r.world).map (r.shown :: ·)

end Engine

variable {θ θ' : TokenPairs} {a b : Seat} {w w' : World} {e e' : Engine} {fuel : Nat}
  {t t' : TokenId}

/-! ## New controls and tokens -/

namespace World

theorem isCancelled_push (w : World) (t : TokenId) :
    ({ w with tokens := w.tokens.push false } : World).isCancelled t = w.isCancelled t :=
  isCancelled_newToken (w := w)

/-- A new control on either side changes nothing for the old ones. -/
theorem Matches.pushControls (h : w.Matches θ a b w') (k k' : Control) :
    World.Matches θ a b { w with controls := w.controls.push k }
      { w' with controls := w'.controls.push k' } := by
  have hleft := control_push (k := k) h.left.control
  have hright := control_push (k := k') h.right.control
  exact { h with
    left := ⟨Nat.lt_of_lt_of_le h.left.control (by simp),
      (congrArg Control.token hleft).trans h.left.has⟩
    right := ⟨Nat.lt_of_lt_of_le h.right.control (by simp),
      (congrArg Control.token hright).trans h.right.has⟩
    requests := by rw [hleft, hright, h.requests] }

/-- The two new controls match if their tokens are paired. -/
theorem Matches.pushSeats (h : w.Matches θ a b w') (ht : θ t t') (external : Bool) :
    World.Matches θ ⟨⟨w.controls.size⟩, t⟩ ⟨⟨w'.controls.size⟩, t'⟩
      { w with controls := w.controls.push (.fresh t external) }
      { w' with controls := w'.controls.push (.fresh t' external) } where
  heap := h.heap
  left := ⟨by simp, congrArg Control.token control_push_self⟩
  right := ⟨by simp, congrArg Control.token control_push_self⟩
  requests := by
    rw [control_push_self, control_push_self]
    rfl
  own := ht
  made := h.made
  cancelled := h.cancelled
  single := h.single

/-- Some tokens paired, and a new one of either world. -/
def pairNew (θ : TokenPairs) (w w' : World) : TokenPairs := fun t t' =>
  θ t t' ∨ t = ⟨w.tokens.size⟩ ∧ t' = ⟨w'.tokens.size⟩

/-- A new token on both sides is paired with the other one. -/
theorem Matches.pushTokens (h : w.Matches θ a b w') :
    World.Matches (pairNew θ w w') a b { w with tokens := w.tokens.push false }
      { w' with tokens := w'.tokens.push false } := by
  have hsize : (w.tokens.push false).size = w.tokens.size + 1 := Array.size_push _
  have hsize' : (w'.tokens.push false).size = w'.tokens.size + 1 := Array.size_push _
  exact { h with
    left := ⟨h.left.control, h.left.has⟩
    right := ⟨h.right.control, h.right.has⟩
    own := .inl h.own
    made := by
      rintro t t' (ht | ⟨rfl, rfl⟩)
      · have := h.made ht
        dsimp only
        omega
      · dsimp only
        omega
    cancelled := by
      rintro t t' (ht | ⟨rfl, rfl⟩)
      · rw [isCancelled_push, isCancelled_push, h.cancelled ht]
      · rw [isCancelled_push, isCancelled_push]
        simp [isCancelled]
    single := by
      rintro t t' u u' (ht | ⟨rfl, rfl⟩) (hu | ⟨rfl, rfl⟩)
      · exact h.single ht hu
      · have := h.made ht
        exact ⟨fun heq => absurd this.1 (by simp [heq]), fun heq => absurd this.2 (by simp [heq])⟩
      · have := h.made hu
        exact ⟨fun heq => absurd this.1 (by simp [← heq]),
          fun heq => absurd this.2 (by simp [← heq])⟩
      · exact ⟨fun _ => rfl, fun _ => rfl⟩ }

end World

/-! ## Engines that match -/

/-- Two engines that differ in their controls alone, in worlds that match. -/
structure Engine.Matches (θ : TokenPairs) (a b : Seat) (w w' : World) (e e' : Engine) : Prop where
  engine : e' = { e with control := b.control }
  control : e.control = a.control
  world : w.Matches θ a b w'

/-- Replies that show the same, of engines that match afterwards. -/
structure Reply.Matches {α : Type} (θ : TokenPairs) (a b : Seat) (r r' : Reply α) : Prop where
  result : r'.result = r.result
  events : r'.events = r.events
  engine : Engine.Matches θ a b r.world r'.world r.engine r'.engine

theorem Reply.Matches.map {α β : Type} {r r' : Reply α} (h : r.Matches θ a b r') (f : α → β) :
    (r.map f).Matches θ a b (r'.map f) :=
  ⟨congrArg (Except.map f) h.result, h.events, h.engine⟩

theorem Reply.Matches.shown {r r' : Reply (Option RunState)} (h : r.Matches θ a b r') :
    r'.shown = r.shown := by
  have hw := h.engine.world
  unfold Reply.shown
  rw [h.result, h.events, h.engine.engine, hw.heap, h.engine.control, hw.left.has]
  dsimp only
  rw [hw.right.has, hw.cancelled hw.own]

namespace Engine

theorem resetControl_matches (h : w.Matches θ a b w') :
    (w.resetControl a.control).Matches θ a b (w'.resetControl b.control) := by
  have hreset := h.updateControl
    (fun k => { k with pause := false, stop := false, abort := false }) fun _ _ => rfl
  have hexternal : (w'.control b.control).external = (w.control a.control).external := by
    rw [h.requests]
  unfold World.resetControl
  rw [hexternal, h.left.has, h.right.has]
  dsimp only
  split
  · exact hreset
  · exact hreset.setToken h.own false

theorem prepare_matches (h : e.Matches θ a b w w' e') (g : SharedGraph) (s : ScopeId) :
    (e.prepare g s w).Matches θ a b (e'.prepare g s w') := by
  obtain ⟨rfl, hcontrol, hw⟩ := h
  unfold prepare
  dsimp only
  split
  · exact ⟨rfl, rfl, rfl, hcontrol, hw⟩
  · rw [hw.heap, hcontrol]
    cases g.graph.validate w.heap with
    | error failure => exact ⟨rfl, rfl, rfl, hcontrol, hw⟩
    | ok u => exact ⟨rfl, rfl, rfl, rfl, resetControl_matches (hw.withHeap _)⟩

theorem afterDrain_matches (he : e' = { e with control := b.control })
    (hcontrol : e.control = a.control) {d d' : Drained} (h : d.Matches θ a b d') :
    (e.afterDrain d).Matches θ a b (e'.afterDrain d') := by
  subst he
  obtain ⟨outcome, stack, ⟨w, executed, fault⟩⟩ := d
  obtain ⟨outcome', stack', ⟨w', executed', fault'⟩⟩ := d'
  obtain ⟨rfl, rfl, hw, rfl, rfl⟩ := h
  dsimp only at hw
  cases outcome' with
  | ended halt =>
    refine ⟨rfl, rfl, rfl, hcontrol, ?_⟩
    show (if halt = some .pause then w.clearPause e.control else w).Matches θ a b
      (if halt = some .pause then w'.clearPause b.control else w')
    split
    · rw [hcontrol]
      exact hw.updateControl _ fun _ _ => rfl
    · exact hw
  | failed failure =>
    have habort : (w'.control b.control).abort = (w.control e.control).abort := by
      rw [hw.requests, hcontrol]
    cases failure with
    | cancelled =>
      unfold afterDrain
      dsimp only
      rw [habort]
      exact ⟨rfl, rfl, rfl, hcontrol, hw⟩
    | _ => exact ⟨rfl, rfl, rfl, hcontrol, hw⟩

theorem run_matches (h : e.Matches θ a b w w' e') (fuel : Nat) (call : EngineCall)
    (budget : Option Nat) :
    Option.Rel (Reply.Matches θ a b) (e.run fuel call budget w) (e'.run fuel call budget w') := by
  obtain ⟨rfl, hcontrol, hw⟩ := h
  unfold run
  dsimp only
  split
  · have hp : Progress.Matches θ a b ⟨w, e.executed, false⟩ ⟨w', e.executed, false⟩ :=
      ⟨hw, rfl, rfl⟩
    have hd : Option.Rel (Drained.Matches θ a b)
        (DrainSetting.drain ⟨e.config, e.control⟩ fuel budget e.continuation
          ⟨w, e.executed, false⟩)
        (DrainSetting.drain ⟨e.config, b.control⟩ fuel budget e.continuation
          ⟨w', e.executed, false⟩) := by
      have hconfig : DrainSetting.config ⟨e.config, e.control⟩ =
          DrainSetting.config ⟨e.config, b.control⟩ := rfl
      exact DrainSetting.drain_matches hconfig hcontrol rfl fuel _ _ hp
    generalize DrainSetting.drain ⟨e.config, e.control⟩ fuel budget e.continuation
      ⟨w, e.executed, false⟩ = x at hd ⊢
    generalize DrainSetting.drain ⟨e.config, b.control⟩ fuel budget e.continuation
      ⟨w', e.executed, false⟩ = y at hd ⊢
    cases hd with
    | none => exact .none
    | some hd => exact .some (afterDrain_matches rfl hcontrol hd)
  · exact .some ⟨rfl, rfl, rfl, hcontrol, hw⟩

theorem stop_matches (h : e.Matches θ a b w w' e') :
    (e.stop w).Matches θ a b (e'.stop w') := by
  obtain ⟨rfl, hcontrol, hw⟩ := h
  unfold stop
  dsimp only
  split <;> exact ⟨rfl, rfl, rfl, hcontrol, hw⟩

/-- A new control for a copy on both sides: the old ones match as before, and
so do the new ones. -/
theorem detachedControl_matches (h : w.Matches θ a b w') :
    ∃ θ' t t', (∀ t t', θ t t' → θ' t t') ∧
      (w.detachedControl a.control).2.Matches θ' a b (w'.detachedControl b.control).2 ∧
      World.Matches θ' ⟨(w.detachedControl a.control).1, t⟩ ⟨(w'.detachedControl b.control).1, t'⟩
        (w.detachedControl a.control).2 (w'.detachedControl b.control).2 := by
  have hleft : (w.control a.control).token = a.token := h.left.has
  have hright : (w'.control b.control).token = b.token := h.right.has
  have hexternal : (w'.control b.control).external = (w.control a.control).external := by
    rw [h.requests]
  unfold World.detachedControl
  rw [hexternal, hleft, hright]
  split
  · exact ⟨θ, a.token, b.token, fun _ _ => id, h.pushControls _ _, h.pushSeats h.own true⟩
  · have htokens := h.pushTokens
    exact ⟨_, ⟨w.tokens.size⟩, ⟨w'.tokens.size⟩, fun _ _ => .inl, htokens.pushControls _ _,
      htokens.pushSeats (.inr ⟨rfl, rfl⟩) false⟩

theorem copy_matches (h : e.Matches θ a b w w' e') (σ : Session) :
    ∃ θ' c d, (∀ t t', θ t t' → θ' t t') ∧
      e.Matches θ' a b (e.copy σ w).2.2 (e'.copy σ w').2.2 e' ∧
      (e.copy σ w).1.Matches θ' c d (e.copy σ w).2.2 (e'.copy σ w').2.2 (e'.copy σ w').1 := by
  obtain ⟨rfl, hcontrol, hw⟩ := h
  let heap := (e.copyState.run ⟨σ, w.heap⟩).2.heap
  obtain ⟨θ', t, t', hθ, hold, hnew⟩ := detachedControl_matches (hw.withHeap heap)
  have hleft : (e.copy σ w).2.2 = (World.detachedControl { w with heap } a.control).2 := by
    rw [← hcontrol]
    rfl
  have hright : (({ e with control := b.control } : Engine).copy σ w').2.2 =
      (World.detachedControl { w' with heap } b.control).2 := by
    unfold copy
    rw [hw.heap]
    rfl
  rw [hleft, hright]
  refine ⟨θ', _, _, hθ, ⟨rfl, hcontrol, hold⟩, ?_, ?_, hnew⟩
  · unfold copy
    rw [hw.heap]
    rfl
  · unfold copy
    rw [hcontrol]
    rfl

/-- Something done with one engine shows the same as with the other, if it
names tokens that are paired. -/
theorem deal_matches (h : e.Matches θ a b w w' e') (fuel : Nat) {f : TokenId → TokenId} (l : Later)
    (hl : ∀ t, l.token? = some t → θ t (f t)) :
    Option.Rel (fun r r' => ∃ θ' a' b', (∀ t t', θ t t' → θ' t t') ∧ r.Matches θ' a' b' r')
      (e.deal fuel w (l.dealing e.control))
      (e'.deal fuel w' ((l.retoken f).dealing e'.control)) := by
  have hrun : ∀ call budget, Option.Rel
      (fun r r' => ∃ θ' a' b', (∀ t t', θ t t' → θ' t t') ∧ Reply.Matches θ' a' b' r r')
      ((e.run fuel call budget w).map (Reply.map some))
      ((e'.run fuel call budget w').map (Reply.map some)) := by
    intro call budget
    have hreply := run_matches h fuel call budget
    generalize e.run fuel call budget w = x at hreply ⊢
    generalize e'.run fuel call budget w' = y at hreply ⊢
    cases hreply with
    | none => exact .none
    | some hr => exact .some ⟨θ, a, b, fun _ _ => id, hr.map _⟩
  cases l with
  | prepare g s =>
    have hr := prepare_matches h g s
    exact .some ⟨θ, a, b, fun _ _ => id, hr.map _⟩
  | start => exact hrun .start none
  | step => exact hrun .step (some 1)
  | stop =>
    have hr := stop_matches h
    exact .some ⟨θ, a, b, fun _ _ => id, hr.map _⟩
  | copy σ =>
    obtain ⟨θ', c, d, hθ, hold, -⟩ := copy_matches h σ
    exact .some ⟨θ', a, b, hθ, rfl, rfl, hold⟩
  | become σ =>
    obtain ⟨θ', c, d, hθ, -, hnew⟩ := copy_matches h σ
    exact .some ⟨θ', c, d, hθ, rfl, rfl, hnew⟩
  | ask r =>
    obtain ⟨rfl, hcontrol, hw⟩ := h
    refine .some ⟨θ, a, b, fun _ _ => id, rfl, rfl, rfl, hcontrol, ?_⟩
    have hrequest := hw.request r
    rw [Seat.setting, Seat.setting, ← hw.left.has, ← hw.right.has] at hrequest
    rw [hcontrol]
    exact hrequest
  | cancel t =>
    exact .some ⟨θ, a, b, fun _ _ => id, rfl, rfl, h.engine, h.control,
      h.world.setToken (hl t rfl) true⟩
  | watch t =>
    obtain ⟨rfl, hcontrol, hw⟩ := h
    exact .some ⟨θ, _, _, fun _ _ => id, rfl, rfl, rfl, rfl, hw.pushSeats (hl t rfl) true⟩
  | edit g =>
    refine .some ⟨θ, a, b, fun _ _ => id, rfl, rfl, h.engine, h.control, ?_⟩
    show World.Matches θ a b { w with heap := g w.heap } { w' with heap := g w'.heap }
    rw [h.world.heap]
    exact h.world.withHeap _

/-- The same is seen of engines that match, whatever is done with them. -/
theorem shows_matches (fuel : Nat) {f : TokenId → TokenId} (script : List Later) :
    ∀ {θ a b w w'} {e e' : Engine}, e.Matches θ a b w w' e' →
      (∀ l ∈ script, ∀ t, l.token? = some t → θ t (f t)) →
      e'.shows fuel (script.map (Later.retoken f)) w' = e.shows fuel script w := by
  induction script with
  | nil => exact fun _ _ => rfl
  | cons l script ih =>
    intro θ a b w w' e e' h hscript
    have hdeal := deal_matches h fuel l (hscript l List.mem_cons_self)
    rw [List.map_cons, shows, shows]
    generalize e.deal fuel w (l.dealing e.control) = x at hdeal ⊢
    generalize e'.deal fuel w' ((l.retoken f).dealing e'.control) = y at hdeal ⊢
    cases hdeal with
    | none => rfl
    | @some r r' hr =>
      obtain ⟨θ', a', b', hθ, hr⟩ := hr
      dsimp only
      rw [ih hr.engine fun l hl t ht => hθ _ _ (hscript l (List.mem_cons_of_mem _ hl) t ht)]
      rw [hr.shown]

end Engine

end ScopeFlow
