import ScopeFlow.Proofs.Operator.Requests

/-!
# Requests from inside a run

Leaf programs can make requests to the run that they are part of. A request
stays, whatever is executed after it, and halts the drain before the next
operator.

A program is candid if it fails as cancelled only where something has been
asked for: after a request of its own, or once it has seen that its token is
cancelled. The built-in operators are candid too, so that in a graph of candid
operators a failure by cancellation always comes with a halt
(`DrainSetting.execute_sober`).
-/

namespace ScopeFlow

/-- Does the program fail as cancelled only after a request, or where its
token is cancelled? -/
def Leaf.Candid : Leaf → Prop
  | done => True
  | fail _ => True
  | cancelled => False
  | value _ next => ∀ v, (next v).Candid
  | optional _ next => ∀ v, (next v).Candid
  | bool _ next => ∀ b, (next b).Candid
  | int _ next => ∀ i, (next i).Candid
  | double _ next => ∀ x, (next x).Candid
  | operator _ next => ∀ id, (next id).Candid
  | set _ _ next => next.Candid
  | remove _ next => next.Candid
  | random _ _ next => ∀ answers, (next answers).Candid
  | request _ _ => True
  | isCancelled next => (next false).Candid

/-- Is the operator built in, or a candid program? -/
def OperatorKind.Candid : OperatorKind → Prop
  | leaf program => program.Candid
  | _ => True

/-- Are all operators of the graph candid? -/
def SharedGraph.Candid (g : SharedGraph) : Prop := ∀ op ∈ g.graph.operators, op.kind.Candid

namespace World

variable {w w' w'' : World} {c : ControlId}

/-- The control has been made, and so has its token. -/
structure Has (w : World) (c : ControlId) : Prop where
  control : c.index < w.controls.size
  token : (w.token c).index < w.tokens.size

/-- What an execution may do to a control: make requests, but take none
back. -/
structure Grows (c : ControlId) (w w' : World) : Prop where
  controls : w'.controls.size = w.controls.size
  tokens : w'.tokens.size = w.tokens.size
  token : w'.token c = w.token c
  halts : w.halt? c ≠ none → w'.halt? c ≠ none

namespace Grows

theorem refl : Grows c w w := ⟨rfl, rfl, rfl, id⟩

theorem trans (h : Grows c w w') (h' : Grows c w' w'') : Grows c w w'' where
  controls := h'.controls.trans h.controls
  tokens := h'.tokens.trans h.tokens
  token := h'.token.trans h.token
  halts := h'.halts ∘ h.halts

theorem has (h : Grows c w w') (hw : w.Has c) : w'.Has c where
  control := by rw [h.controls]; exact hw.control
  token := by rw [h.token, h.tokens]; exact hw.token

theorem of_same (h : w.SameRequests w') : Grows c w w' where
  controls := by rw [h.controls]
  tokens := by rw [h.tokens]
  token := by
    unfold World.token
    rw [h.control]
  halts := by rw [h.halt?]; exact id

end Grows

theorem Has.updateControl (hw : w.Has c) {f : Control → Control}
    (hf : ∀ k, (f k).token = k.token) : (w.updateControl c f).token c = w.token c := by
  unfold World.token
  rw [control_updateControl f hw.control, hf]

/-- Taking a request back leaves the control and its token where they are. -/
theorem Has.clearPause (hw : w.Has c) : (w.clearPause c).Has c where
  control := by
    show c.index < (w.controls.modify c.index _).size
    rw [Array.size_modify]
    exact hw.control
  token := by
    show ((w.clearPause c).control c).token.index < w.tokens.size
    rw [control_clearPause]
    exact hw.token

/-- So does taking all of them back. -/
theorem Has.resetControl (hw : w.Has c) : (w.resetControl c).Has c := by
  have hupdate : (w.updateControl c fun k =>
      { k with pause := false, stop := false, abort := false }).Has c := by
    refine ⟨?_, ?_⟩
    · rw [World.updateControl, Array.size_modify]
      exact hw.control
    · exact (hw.updateControl (f := fun k =>
        { k with pause := false, stop := false, abort := false }) fun _ => rfl) ▸ hw.token
  unfold World.resetControl
  dsimp only
  split
  · exact hupdate
  · refine ⟨hupdate.control, ?_⟩
    show ((w.updateControl c _).token c).index < (w.tokens.setIfInBounds _ _).size
    rw [Array.size_setIfInBounds]
    exact hupdate.token

/-- A request made to a control is there. -/
theorem halt?_request (hw : w.Has c) (r : Request) :
    (w.request ⟨w.token c, some c⟩ r).halt? c ≠ none := by
  rw [halt?_ne_none_iff]
  cases r with
  | pause =>
      refine .inr (.inr (.inr ?_))
      show ((w.pause c).control c).pause = true
      rw [pause, control_updateControl _ hw.control]
  | stop =>
      refine .inr (.inl ?_)
      show ((w.stop c).control c).stop = true
      rw [stop, control_updateControl _ hw.control]
  | abort =>
      refine .inl ?_
      show ((w.updateControl c fun k => { k with abort := true }).control c).abort = true
      rw [control_updateControl _ hw.control]
  | cancel =>
      refine .inr (.inr (.inl ?_))
      show ((w.tokens.setIfInBounds (w.token c).index true)[(w.token c).index]?).getD false = true
      rw [Array.getElem?_setIfInBounds_self, if_pos hw.token]
      rfl

/-- A request takes none back. -/
theorem grows_request (hw : w.Has c) (r : Request) :
    Grows c w (w.request ⟨w.token c, some c⟩ r) where
  controls := by cases r <;> simp [request, pause, stop, abort, cancel, setToken, updateControl]
  tokens := by cases r <;> simp [request, pause, stop, abort, cancel, setToken, updateControl]
  token := by
    cases r with
    | pause => exact hw.updateControl fun _ => rfl
    | stop => exact hw.updateControl fun _ => rfl
    | abort => exact hw.updateControl (f := fun k => { k with abort := true }) fun _ => rfl
    | cancel => rfl
  halts := fun _ => halt?_request hw r

/-- That a control has grown since holds after every request to it. -/
theorem upholds_grows (hw : w.Has c) : Setting.Upholds ⟨w.token c, some c⟩ (Grows c w) where
  same h hgrows := hgrows.trans (.of_same h)
  request r hgrows := by
    rw [← hgrows.token]
    exact hgrows.trans (grows_request (hgrows.has hw) r)

end World

/-! ## Leaf programs -/

/-- An act of an execution, from a world on: it takes no request back, and if
it fails as cancelled, something has been asked for. -/
structure Sober {α : Type} (c : ControlId) (x : Act World α) (w : World) : Prop where
  grows : World.Grows c w (x w).2
  halts : ∀ e, (x w).1 = .error e → e.isCancellation = true → (x w).2.halt? c ≠ none

namespace Sober

variable {α β : Type} {c : ControlId} {w : World} {x : Act World α} {f : α → Act World β}

theorem pure (a : α) : Sober c (Pure.pure a) w := ⟨.refl, nofun⟩

theorem bind (hx : Sober c x w) (hf : ∀ a, (x w).1 = .ok a → Sober c (f a) (x w).2) :
    Sober c (x >>= f) w := by
  rcases hs : x w with ⟨e | a, w'⟩
  · have hb : (x >>= f) w = (.error e, w') := by rw [Act.bind_apply, hs]
    refine ⟨?_, fun e' he hc => ?_⟩
    · rw [hb]
      have := hx.grows
      rwa [hs] at this
    · rw [hb] at he ⊢
      cases he
      have := hx.halts e
      rw [hs] at this
      exact this rfl hc
  · have hb : (x >>= f) w = f a w' := by rw [Act.bind_apply, hs]
    have hgrows := hx.grows
    have hnext := hf a
    rw [hs] at hgrows hnext
    have hnext := hnext rfl
    exact ⟨by rw [hb]; exact hgrows.trans hnext.grows, by rw [hb]; exact hnext.halts⟩

/-- An act on the heap that does not fail as cancelled. -/
theorem onHeap {x : Act Heap α} (hx : x.Uncancelled) : Sober c (World.onHeap x) w := by
  refine ⟨.of_same ⟨rfl, rfl⟩, fun e he hc => ?_⟩
  rw [World.onHeap_apply] at he
  rw [(hx w.heap).2 e he] at hc
  cases hc

/-- The judgement is about what the act does in this world only. -/
theorem congr {y : Act World α} (h : x w = y w) (hy : Sober c y w) : Sober c x w :=
  ⟨by rw [h]; exact hy.grows, by rw [h]; exact hy.halts⟩

/-- Where something is asked for already, it is enough that nothing is taken
back. -/
theorem of_halted (h : w.halt? c ≠ none) (hgrows : World.Grows c w (x w).2) : Sober c x w :=
  ⟨hgrows, fun _ _ _ => hgrows.halts h⟩

end Sober

section Leaf

variable {name : String} {c : ControlId} {ctx : Context} {w : World} {t : TokenId}

/-- A program takes no request back. -/
theorem Leaf.run_grows (program : Leaf) (hw : w.Has c) (ht : w.token c = t) :
    World.Grows c w (program.run name ⟨t, some c⟩ ctx w).2 := by
  subst ht
  exact program.run_upholds (World.upholds_grows hw) w .refl

/-- A candid program fails as cancelled only where something is asked for. -/
theorem Leaf.run_sober (program : Leaf) (hp : program.Candid) (hw : w.Has c)
    (ht : w.token c = t) : Sober c (program.run name ⟨t, some c⟩ ctx) w := by
  have honHeap : ∀ {α : Type} {x : Act Heap α} {f : α → Leaf} {w : World}, w.Has c →
      w.token c = t → x.Uncancelled → (∀ a {w' : World}, w'.Has c → w'.token c = t →
        Sober c ((f a).run name ⟨t, some c⟩ ctx) w') →
      Sober c (World.onHeap x >>= fun a => (f a).run name ⟨t, some c⟩ ctx) w := by
    intro α x f w hw ht hx hf
    have hsober : Sober c (World.onHeap x) w := .onHeap hx
    exact hsober.bind fun a _ => hf a (hsober.grows.has hw) (hsober.grows.token.trans ht)
  induction program generalizing w with
  | done => exact .pure ()
  | fail message => exact ⟨.refl, fun e he hc => by cases he; cases hc⟩
  | cancelled => exact hp.elim
  | value p next ih =>
      exact honHeap hw ht Context.value_uncancelled fun a _ => ih a (hp a)
  | optional p next ih =>
      have hsober : Sober c (World.onHeap (ctx.getOptional p)) w :=
        .onHeap Context.getOptional_uncancelled
      refine hsober.bind fun i _ => ?_
      have hgrows := hsober.grows
      generalize (World.onHeap (ctx.getOptional p) w).2 = w' at hgrows
      have hnext : ((do
            let v ← Act.see fun w => i.map w.heap.value
            (next v).run name ⟨t, some c⟩ ctx : Act World Unit) w') =
          (next (i.map w'.heap.value)).run name ⟨t, some c⟩ ctx w' := rfl
      exact .congr hnext (ih _ (hp _) (hgrows.has hw) (hgrows.token.trans ht))
  | bool p next ih =>
      exact honHeap hw ht Context.typed_uncancelled fun a _ => ih a (hp a)
  | int p next ih =>
      exact honHeap hw ht Context.typed_uncancelled fun a _ => ih a (hp a)
  | double p next ih =>
      exact honHeap hw ht Context.typed_uncancelled fun a _ => ih a (hp a)
  | operator p next ih =>
      exact honHeap hw ht Context.typed_uncancelled fun a _ => ih a (hp a)
  | set p v next ih =>
      exact honHeap (f := fun _ => next) hw ht (Context.set_uncancelled v) fun _ _ => ih hp
  | remove p next ih =>
      exact honHeap (f := fun _ => next) hw ht Context.remove_uncancelled fun _ _ => ih hp
  | random p calls next ih =>
      exact honHeap hw ht Context.withRandom_uncancelled fun a _ => ih a (hp a)
  | request r next ih =>
      subst ht
      have hgrows := World.grows_request hw r
      have hrest : World.Grows c _ (next.run name ⟨w.token c, some c⟩ ctx _).2 :=
        next.run_grows (hgrows.has hw) hgrows.token
      exact ⟨hgrows.trans hrest, fun _ _ _ => hrest.halts (World.halt?_request hw r)⟩
  | isCancelled next ih =>
      -- Seen to be cancelled, the token halts the drain whatever follows.
      have hnext : (Leaf.isCancelled next).run name ⟨t, some c⟩ ctx w =
          (next (w.isCancelled t)).run name ⟨t, some c⟩ ctx w := rfl
      refine .congr hnext ?_
      cases hcancel : w.isCancelled t with
      | true =>
          refine .of_halted ?_ ((next true).run_grows hw ht)
          rw [World.halt?_ne_none_iff, ht]
          exact .inr (.inr (.inl hcancel))
      | false => exact ih false hp hw ht

end Leaf

namespace DrainSetting

variable {r : DrainSetting} {g : SharedGraph} {ctx : Context} {w : World}

/-- Executions in a graph of candid operators. -/
theorem execute_sober (hg : g.Candid) (hctx : ctx.graph = g) (hw : w.Has r.control)
    (pending : Nat) : Sober r.control (r.execute ctx pending) w := by
  rcases r.execute_cases ctx pending with ⟨e, he, h⟩ | h
  · refine ⟨by rw [h]; exact .refl, fun e' he' hc => ?_⟩
    rw [h] at he'
    cases he'
    rw [he] at hc
    cases hc
  · refine .congr (h w) (.bind ⟨.refl, fun e he hc => ?_⟩ fun op hop => ?_)
    · rw [Context.operator_error he] at hc
      cases hc
    · have hkind := hg op (ctx.operator_mem hop hctx)
      have hleaf : Sober r.control (op.runLeaf ⟨w.token r.control, some r.control⟩ ctx) w := by
        unfold Operator.runLeaf
        cases hk : op.kind with
        | leaf program =>
            rw [hk] at hkind
            exact program.run_sober hkind hw rfl
        | _ => exact .pure ()
      refine hleaf.bind fun _ _ => ?_
      have htoken := hleaf.grows.token
      generalize (op.runLeaf ⟨w.token r.control, some r.control⟩ ctx w).2 = w' at htoken
      have hwork : ((do
            let cancelled ← Act.see fun w' => w'.isCancelled (w.token r.control)
            World.onHeap (op.work cancelled ctx) : Act World (Option Operation)) w') =
          World.onHeap (op.work (w'.isCancelled (w.token r.control)) ctx) w' := rfl
      refine .congr hwork ⟨.of_same ⟨rfl, rfl⟩, fun e he hc => ?_⟩
      rw [World.halt?_ne_none_iff]
      refine .inr (.inr (.inl ?_))
      show w'.isCancelled (w'.token r.control) = true
      rw [htoken]
      exact (Act.Meets.onHeap (op.work_meets _ ctx) w').2 e he hc

end DrainSetting

end ScopeFlow
