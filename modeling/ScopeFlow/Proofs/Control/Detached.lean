import ScopeFlow.Proofs.Control.Pause

/-!
# Controls of copies

The control of a copied engine is a new one. What is there already is left as
it is, and nothing has been asked of the copy; if it watches the same token, it
is cancelled with the original.
-/

namespace ScopeFlow.World

variable {w : World} {c d : ControlId} {t : TokenId}

/-- A control that goes without requests, of a token that is not cancelled. -/
theorem halt?_fresh {external : Bool} (hc : w.control c = .fresh t external)
    (ht : w.isCancelled t = false) : w.halt? c = none := by
  unfold halt?
  dsimp only
  rw [hc, Control.fresh, ht]
  rfl

theorem isCancelled_newToken : w.newToken.2.isCancelled t = w.isCancelled t := by
  unfold isCancelled newToken
  dsimp only
  rw [Array.getElem?_push]
  split
  · next h =>
      rw [h, Array.getElem?_eq_none (Nat.le_refl _)]
      rfl
  · rfl

theorem control_push {k : Control} (h : c.index < w.controls.size) :
    ({ w with controls := w.controls.push k } : World).control c = w.control c := by
  unfold control
  rw [Array.getElem?_push_lt h, Array.getElem?_eq_getElem h]

theorem control_push_self {k : Control} :
    ({ w with controls := w.controls.push k } : World).control ⟨w.controls.size⟩ = k := by
  unfold control
  rw [Array.getElem?_push_size]
  rfl

/-- What a new control for a copy comes to. -/
structure Detached (w : World) (c : ControlId) (made : ControlId × World) : Prop where
  heap : made.2.heap = w.heap
  index : made.1.index = w.controls.size
  size : made.2.controls.size = w.controls.size + 1
  control : ∀ {d : ControlId}, d.index < w.controls.size → made.2.control d = w.control d
  cancelled : ∀ t, made.2.isCancelled t = w.isCancelled t
  quiet : w.halt? c = none → made.2.halt? made.1 = none

theorem detachedControl_spec (w : World) (c : ControlId) : Detached w c (w.detachedControl c) := by
  unfold detachedControl
  split
  · refine ⟨rfl, rfl, Array.size_push _, control_push, fun _ => rfl, fun h => ?_⟩
    exact halt?_fresh control_push_self (halt?_eq_none_iff.mp h).2.2.1
  · refine ⟨rfl, rfl, Array.size_push _, control_push (w := w.newToken.2),
      fun _ => isCancelled_newToken, fun _ => ?_⟩
    refine halt?_fresh (control_push_self (w := w.newToken.2)) ?_
    refine (isCancelled_newToken (w := w)).trans ?_
    unfold isCancelled
    rw [Array.getElem?_eq_none (Nat.le_refl _)]
    rfl

/-- The requests to a control that was there before are as they were. -/
theorem Detached.halt? {made : ControlId × World} (h : Detached w c made)
    (hd : d.index < w.controls.size) : made.2.halt? d = w.halt? d := by
  unfold World.halt?
  dsimp only
  rw [h.control hd, h.cancelled]

end ScopeFlow.World
