import ScopeFlow.Control.Basic

/-!
# Requests for a pause

A request for a pause is one flag of one control, and the weakest request: it
counts only where there is no other. Taking it back undoes it.
-/

namespace ScopeFlow.World

variable {w : World} {c : ControlId}

/-- A control after a change of it, if it has been made at all. -/
theorem control_updateControl (f : Control → Control) (h : c.index < w.controls.size) :
    (w.updateControl c f).control c = f (w.control c) := by
  unfold updateControl control
  rw [Array.getElem?_modify, if_pos rfl, Array.getElem?_eq_getElem h]
  rfl

/-- A change of one control leaves the others as they are. -/
theorem control_updateControl_of_ne {d : ControlId} (f : Control → Control) (h : d ≠ c) :
    (w.updateControl d f).control c = w.control c := by
  have hindex : d.index ≠ c.index := fun heq => h (congrArg ControlId.mk heq)
  unfold updateControl control
  rw [Array.getElem?_modify, if_neg hindex]

theorem control_resetControl_of_ne {d : ControlId} (h : d ≠ c) :
    (w.resetControl d).control c = w.control c := by
  unfold resetControl
  dsimp only
  split <;> exact control_updateControl_of_ne _ h

/-- A control that has not been made is one without requests. -/
theorem control_of_le (h : w.controls.size ≤ c.index) : w.control c = .fresh ⟨0⟩ false := by
  unfold control
  rw [Array.getElem?_eq_none h]
  rfl

theorem updateControl_of_le (f : Control → Control) (h : w.controls.size ≤ c.index) :
    w.updateControl c f = w := by
  have hc : w.controls.modify c.index f = w.controls := by
    apply Array.ext (by simp)
    intro i hi _
    rw [Array.size_modify] at hi
    rw [Array.getElem_modify_of_ne (by omega)]
  rw [updateControl, hc]

/-- Two changes of one control are one. -/
theorem updateControl_updateControl (f f' : Control → Control) :
    (w.updateControl c f).updateControl c f' = w.updateControl c fun k => f' (f k) := by
  have hc : (w.controls.modify c.index f).modify c.index f' =
      w.controls.modify c.index fun k => f' (f k) := by
    apply Array.ext (by simp)
    intro i hi _
    simp only [Array.getElem_modify]
    split <;> rfl
  rw [updateControl, updateControl, updateControl]
  dsimp only
  rw [hc]

/-- A change that leaves the control as it is leaves the world as it is. -/
theorem updateControl_eq_self {f : Control → Control} (h : f (w.control c) = w.control c) :
    w.updateControl c f = w := by
  rcases Nat.lt_or_ge c.index w.controls.size with hlt | hle
  · have hc : w.controls.modify c.index f = w.controls := by
      apply Array.ext (by simp)
      intro i hi hi'
      rw [Array.getElem_modify]
      split
      · next heq =>
          subst heq
          rw [control, Array.getElem?_eq_getElem hlt] at h
          exact h
      · rfl
    rw [updateControl, hc]
  · exact updateControl_of_le f hle

/-! ## The flag -/

theorem control_clearPause (w : World) (c : ControlId) :
    (w.clearPause c).control c = { w.control c with pause := false } := by
  rcases Nat.lt_or_ge c.index w.controls.size with hlt | hle
  · exact control_updateControl _ hlt
  · rw [clearPause, updateControl_of_le _ hle, control_of_le hle]
    rfl

/-- Without a request there is nothing to take back. -/
theorem clearPause_eq_self (h : (w.control c).pause = false) : w.clearPause c = w := by
  apply updateControl_eq_self
  rw [← h]

@[simp] theorem clearPause_clearPause (w : World) (c : ControlId) :
    (w.clearPause c).clearPause c = w.clearPause c :=
  clearPause_eq_self (by rw [control_clearPause])

/-- A request that is taken back has not been made. -/
@[simp] theorem clearPause_pause (w : World) (c : ControlId) :
    (w.pause c).clearPause c = w.clearPause c :=
  updateControl_updateControl _ _

/-- Apart from a request for a pause, a drain halts with it as without. -/
theorem halt?_clearPause (w : World) (c : ControlId) :
    (w.clearPause c).halt? c = if w.halt? c = some .pause then none else w.halt? c := by
  have htokens : (w.clearPause c).tokens = w.tokens := rfl
  unfold halt? isCancelled
  rw [control_clearPause, htokens]
  dsimp only
  split
  · rfl
  · split
    · rfl
    · split
      · rfl
      · cases (w.control c).pause <;> rfl

/-- Where nothing has been asked for, every flag is down. -/
theorem halt?_eq_none_iff : w.halt? c = none ↔ (w.control c).abort = false ∧
    (w.control c).stop = false ∧ w.isCancelled (w.control c).token = false ∧
      (w.control c).pause = false := by
  unfold halt?
  dsimp only
  cases (w.control c).abort <;> cases (w.control c).stop <;>
    cases w.isCancelled (w.control c).token <;> cases (w.control c).pause <;> simp

theorem halt?_ne_none_iff : w.halt? c ≠ none ↔ (w.control c).abort = true ∨
    (w.control c).stop = true ∨ w.isCancelled (w.token c) = true ∨
      (w.control c).pause = true := by
  unfold halt? token
  dsimp only
  grind

/-- A request for a pause halts a drain, if nothing else does. -/
theorem halt?_ne_none (h : (w.control c).pause = true) : w.halt? c ≠ none :=
  halt?_ne_none_iff.mpr (.inr (.inr (.inr h)))

/-- Where nothing has been asked for, there is no pause to take back. -/
theorem clearPause_quiet (h : w.halt? c = none) : w.clearPause c = w :=
  clearPause_eq_self (halt?_eq_none_iff.mp h).2.2.2

/-- Whoever halts for a pause has been asked for one. -/
theorem pause_of_halt? (h : w.halt? c = some .pause) : (w.control c).pause = true := by
  unfold halt? at h
  dsimp only at h
  grind

end ScopeFlow.World
