import ScopeFlow.Proofs.Control.Pause
import ScopeFlow.Proofs.Operator.BuiltIn

/-!
# What executions do to requests

An execution reaches controls and tokens only through the requests that a leaf
program makes. So what is about requests alone, and holds after each of them,
holds after every execution (`DrainSetting.execute_upholds`). A flag that is up
is such a thing (`World.request_keeps`): that a pause has been asked for, or a
stop or an abort (`World.AskedToEnd`), outlasts every execution, and only
whoever runs the engine takes it back. So a leaf program that asks for either
leaves the request standing when it is through (`Leaf.askedToEnd`).
-/

namespace ScopeFlow

variable {P : World → Prop} {setting : Setting} {name : String} {ctx : Context} {w : World}

/-- The act keeps what holds before it, whether or not it fails. -/
def Act.Keeps {σ α : Type} (P : σ → Prop) (x : Act σ α) : Prop := ∀ s, P s → P (x s).2

theorem Act.Keeps.bind {σ α β : Type} {P : σ → Prop} {x : Act σ α} {f : α → Act σ β}
    (hx : x.Keeps P) (hf : ∀ a, (f a).Keeps P) : (x >>= f).Keeps P := by
  intro s hs
  have hafter := hx s hs
  rw [Act.bind_apply]
  rcases hrun : x s with ⟨e | a, s'⟩ <;> rw [hrun] at hafter
  · exact hafter
  · exact hf a s' hafter

/-- What is said of a world is about its requests alone, and every request that
is made in a setting keeps it up. -/
structure Setting.Upholds (setting : Setting) (P : World → Prop) : Prop where
  same : ∀ {w w'}, w.SameRequests w' → P w → P w'
  request : ∀ {w} r, P w → P (w.request setting r)

theorem Setting.Upholds.onHeap {α : Type} (hP : setting.Upholds P) (x : Act Heap α) :
    (World.onHeap x).Keeps P := by
  intro w hw
  have hsame : w.SameRequests { w with heap := (x w.heap).2 } := ⟨rfl, rfl⟩
  exact hP.same hsame hw

/-- A program keeps up what requests do. -/
theorem Leaf.run_upholds (hP : setting.Upholds P) (program : Leaf) :
    (program.run name setting ctx).Keeps P := by
  induction program with
  | done => exact fun w hw => hw
  | fail message => exact fun w hw => hw
  | cancelled => exact fun w hw => hw
  | value p next ih => exact .bind (hP.onHeap _) ih
  | optional p next ih => exact .bind (hP.onHeap _) fun i w => ih (i.map w.heap.value) w
  | bool p next ih => exact .bind (hP.onHeap _) ih
  | int p next ih => exact .bind (hP.onHeap _) ih
  | double p next ih => exact .bind (hP.onHeap _) ih
  | operator p next ih => exact .bind (hP.onHeap _) ih
  | set p v next ih => exact .bind (hP.onHeap _) fun _ => ih
  | remove p next ih => exact .bind (hP.onHeap _) fun _ => ih
  | random p calls next ih => exact .bind (hP.onHeap _) ih
  | request r next ih => exact fun w hw => ih _ (hP.request r hw)
  | isCancelled next ih => exact fun w => ih (w.isCancelled setting.token) w

theorem Operator.execute_upholds (hP : setting.Upholds P) (op : Operator) :
    (op.execute setting ctx).Keeps P := by
  have hleaf : (op.runLeaf setting ctx).Keeps P := by
    unfold runLeaf
    cases op.kind with
    | leaf program => exact program.run_upholds hP
    | _ => exact fun w hw => hw
  exact .bind hleaf fun _ w => hP.onHeap (op.work (w.isCancelled setting.token) ctx) w

/-- So does every execution. -/
theorem DrainSetting.execute_upholds {r : DrainSetting}
    (hP : ∀ t, Setting.Upholds ⟨t, some r.control⟩ P) (ctx : Context) (pending : Nat) :
    (r.execute ctx pending).Keeps P := by
  intro w hw
  rcases r.execute_cases ctx pending with ⟨e, -, h⟩ | h
  · rw [h]
    exact hw
  · rw [h]
    have hoperator : (Act.ofExcept ctx.operator).Keeps P := fun w hw => hw
    exact hoperator.bind (fun op => op.execute_upholds (hP (w.token r.control))) w hw

namespace World

variable {c d : ControlId} {f : Control → Control}

/-- What a change of any control keeps up holds of each control after it. -/
theorem control_keeps (Q : Control → Prop) (hf : ∀ k, Q k → Q (f k)) (h : Q (w.control c)) :
    Q ((w.updateControl d f).control c) := by
  by_cases hcd : d = c
  · subst hcd
    rcases Nat.lt_or_ge d.index w.controls.size with hlt | hle
    · rw [control_updateControl f hlt]
      exact hf _ h
    · rwa [updateControl_of_le f hle]
  · rwa [control_updateControl_of_ne f hcd]

/-- What a flag going up leaves true of a control outlasts every request. -/
theorem request_keeps {Q : Control → Prop} (hpause : ∀ k, Q k → Q { k with pause := true })
    (hstop : ∀ k, Q k → Q { k with stop := true }) (habort : ∀ k, Q k → Q { k with abort := true })
    (setting : Setting) (r : Request) (h : Q (w.control c)) :
    Q ((w.request setting r).control c) := by
  obtain ⟨t, engine⟩ := setting
  cases engine with
  | none => cases r <;> exact h
  | some d =>
      cases r with
      | pause => exact control_keeps (d := d) Q hpause h
      | stop => exact control_keeps (d := d) Q hstop h
      | abort => exact control_keeps (d := d) Q habort h
      | cancel => exact h

/-- A request for a pause outlasts every request. -/
theorem pause_request (setting : Setting) (r : Request) (h : (w.control c).pause = true) :
    ((w.request setting r).control c).pause = true :=
  request_keeps (Q := fun k => k.pause = true) (fun _ _ => rfl) (fun _ hk => hk) (fun _ hk => hk)
    setting r h

/-- So it outlasts every execution. -/
theorem upholds_pause (setting : Setting) (c : ControlId) :
    setting.Upholds fun w => (w.control c).pause = true where
  same h hw := by rwa [h.control]
  request r hw := pause_request setting r hw

/-- A stop or an abort has been asked for. -/
def AskedToEnd (w : World) (c : ControlId) : Prop :=
  (w.control c).abort = true ∨ (w.control c).stop = true

/-- That outlasts every execution as well. -/
theorem upholds_askedToEnd (setting : Setting) (c : ControlId) :
    setting.Upholds fun w => w.AskedToEnd c where
  same h hw := by rwa [AskedToEnd, h.control]
  request r hw :=
    request_keeps (Q := fun k => k.abort = true ∨ k.stop = true) (fun _ hk => hk)
      (fun _ hk => .inr rfl) (fun _ hk => .inl rfl) setting r hw

theorem askedToEnd_request (hmade : c.index < w.controls.size) (t : TokenId) {r : Request}
    (hr : r = .stop ∨ r = .abort) : (w.request ⟨t, some c⟩ r).AskedToEnd c := by
  rcases hr with rfl | rfl
  · refine .inr ?_
    show ((w.stop c).control c).stop = true
    rw [stop, control_updateControl _ hmade]
  · refine .inl ?_
    show ((w.updateControl c fun k => { k with abort := true }).control c).abort = true
    rw [control_updateControl _ hmade]

end World

/-- A program that asks the engine running it for either has done so by its
end, whatever it goes on with. -/
theorem Leaf.askedToEnd {c : ControlId} {t : TokenId} (hmade : c.index < w.controls.size)
    {r : Request} (hr : r = .stop ∨ r = .abort) (next : Leaf) :
    ((Leaf.request r next).run name ⟨t, some c⟩ ctx w).2.AskedToEnd c :=
  next.run_upholds (World.upholds_askedToEnd _ c) _ (World.askedToEnd_request hmade t hr)

end ScopeFlow
