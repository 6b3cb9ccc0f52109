import ScopeFlow.Proofs.Control.Detached
import ScopeFlow.Proofs.Engine.Calls
import ScopeFlow.Proofs.Likeness.Calls
import ScopeFlow.Proofs.Likeness.Sound

/-!
# Engines that can be reached

An engine is reached from its creation by preparations, calls and copies, with
anything in between that leaves the heap sound. All that such an engine holds
is a part of the heap that nothing leads out of: it agrees with itself
(`Reached.sound`).
-/

namespace ScopeFlow

/-- The engines that can be reached, each with a world that it is in. -/
inductive Engine.Reached : Engine → World → Prop
  | created {config : Config} {w w' : World} {e : Engine} : w.heap.Sound →
      create config w = (.ok e, w') → Reached e w'
  /-- Preparation makes an engine anew, whatever has become of it before. -/
  | prepared {e₀ e : Engine} {g : SharedGraph} {s : ScopeId} {w w' : World}
      {events : List Event} : e₀.control.index < w.controls.size → w.heap.Sound →
      g.UsableIn w.heap → s.index < w.heap.scopes.size →
      e₀.prepare g s w = ⟨.ok (), e, w', events⟩ → Reached e w'
  | called {e : Engine} {w : World} {fuel : Nat} {c : Call} {x : Called} : Reached e w →
      e.call fuel w c = some x → Reached x.engine x.world
  | watched {e : Engine} {w : World} (t : TokenId) : Reached e w →
      Reached (e.withToken t w).1 (e.withToken t w).2
  /-- What others do meanwhile to the heap, the tokens and the controls. -/
  | meanwhile {e : Engine} {w w' : World} : Reached e w → w'.heap.Sound →
      w.heap.Grown w'.heap → w.controls.size ≤ w'.controls.size → Reached e w'
  | copy {e : Engine} {w : World} : Reached e w →
      Reached (e.copy .empty w).1 (e.copy .empty w).2.2
  | original {e : Engine} {w : World} : Reached e w → Reached e (e.copy .empty w).2.2

/-- All that an engine holds agrees with itself. -/
structure Engine.Sound (e : Engine) (w : World) : Prop where
  control : e.control.index < w.controls.size
  parts : ∃ ρ, Agree ρ w.heap w.heap ∧ e.Alike ρ e ∧ ρ.Inner

namespace Engine

variable {ρ σ : Renaming} {e e' : Engine} {w w' : World}

theorem Alike.mono (hw : ρ.Within σ) (h : e.Alike ρ e') : e.Alike σ e' :=
  { h with
    scope := rel_imp hw.scopes h.scope
    graph := rel_imp hw.graphs h.graph
    continuation := Operation.AllAlike.mono hw h.continuation }

theorem Alike.diagonal (h : e.Alike ρ e') : e'.Alike ρ.diagonal e' where
  config := rfl
  state := rfl
  scope := rel_diagonal h.scope fun hst => ⟨rfl, _, hst⟩
  graph := rel_diagonal h.graph fun hg => ⟨rfl, _, hg⟩
  continuation := h.continuation.diagonal
  error := rfl
  executed := rfl
  hasRun := rfl

/-- What an engine that is renamed refers to is renamed. -/
theorem Alike.partsIn (h : e.Alike ρ e') : e.PartsIn ρ.source where
  scope := fun _ hs => rel_left h.scope hs
  graph := fun _ hg => rel_left h.graph hg
  continuation := by
    intro x hx
    obtain ⟨y, -, hxy⟩ := forall₂_mem h.continuation.contexts hx
    exact ⟨y, hxy⟩

/-! ## Copies -/

/-- The heap after an engine has been copied, and the session that copied it. -/
def copied (e : Engine) (h : Heap) : Copying := (e.copyState ⟨.empty, h⟩).2

theorem copy_eq (e : Engine) (w : World) :
    e.copy .empty w =
      ({ (e.copyState ⟨.empty, w.heap⟩).1 with
          control := (World.detachedControl { w with heap := (e.copied w.heap).heap }
            e.control).1 },
        (e.copied w.heap).session,
        (World.detachedControl { w with heap := (e.copied w.heap).heap } e.control).2) := rfl

theorem copy_heap (e : Engine) (w : World) :
    (e.copy .empty w).2.2.heap = (e.copied w.heap).heap := by
  rw [copy_eq]
  exact (World.detachedControl_spec _ e.control).heap

/-- What a copy of an engine comes to. -/
theorem copied_spec (ha : Agree ρ w.heap w.heap) (he : e.Alike ρ e) :
    CopiedAll ρ.source id w.heap (e.copied w.heap) ∧
      e.Alike ((e.copied w.heap).renaming ρ.source) (e.copy .empty w).1 := by
  obtain ⟨hadv, hal⟩ := copyState_yields (ρ := (Copying.mk .empty w.heap).renaming ρ.source)
    ha.source_closed he.partsIn _ (.start_empty ha.source_closed) .refl
  exact ⟨hadv.copied, { hal with }⟩

/-- The original is as it was. -/
theorem copied_keeps (ha : Agree ρ w.heap w.heap) (he : e.Alike ρ e) :
    Agree ρ w.heap (e.copied w.heap).heap := by
  have hc := (copied_spec ha he).1
  exact ha.keep hc.kept.items hc.kept.scopes hc.kept.graphs hc.kept.contexts
    (fun hij => hc.kept.value (ha.item hij).2.1) (fun hst => hc.kept.scope (ha.scope hst).2.1)
    hc.rooted

/-! ## Soundness -/

theorem sound_of_agree {h : Heap} {e₀ : Engine} (hcontrol : e.control.index < w.controls.size)
    (ha : Agree ρ h w.heap) (he : e₀.Alike ρ e) (hin : ρ.Inner) : e.Sound w :=
  ⟨hcontrol, ρ.diagonal, ha.diagonal, he.diagonal, hin⟩

theorem Sound.called (h : e.Sound w) {fuel : Nat} {c : Call} {x : Called}
    (hx : e.call fuel w c = some x) : x.engine.Sound x.world := by
  obtain ⟨hcontrol, ρ, ha, he, hin⟩ := h
  have hw : w.Alike ρ e.control e.control w := ⟨ha, rfl, rfl, rfl, rfl⟩
  have hcall := call_alike he hw fuel c
  rw [hx] at hcall
  cases hcall with
  | some hcall =>
      obtain ⟨⟨ρ', hconf, he', hw⟩, -, hsame, -, -, hsize⟩ := hcall
      refine ⟨?_, ρ', hw.heap, he', hconf.inner hin⟩
      rw [hsame, hsize]
      exact hcontrol

theorem Sound.copy (h : e.Sound w) : (e.copy .empty w).1.Sound (e.copy .empty w).2.2 := by
  obtain ⟨hcontrol, ρ, ha, he, hin⟩ := h
  obtain ⟨hc, hal⟩ := copied_spec ha he
  have hagree := hc.agree ha.source_closed ha.source_silent
  rw [← copy_heap] at hagree
  refine sound_of_agree ?_ hagree hal fun _ => id
  have hspec := World.detachedControl_spec { w with heap := (e.copied w.heap).heap } e.control
  rw [copy_eq]
  show (World.detachedControl _ _).1.index < (World.detachedControl _ _).2.controls.size
  rw [hspec.index, hspec.size]
  exact Nat.lt_succ_self _

theorem Sound.original (h : e.Sound w) : e.Sound (e.copy .empty w).2.2 := by
  obtain ⟨hcontrol, ρ, ha, he, hin⟩ := h
  have hagree := copied_keeps ha he
  rw [← copy_heap] at hagree
  refine sound_of_agree ?_ hagree he hin
  have hspec := World.detachedControl_spec { w with heap := (e.copied w.heap).heap } e.control
  rw [copy_eq]
  show _ < (World.detachedControl _ _).2.controls.size
  rw [hspec.size]
  exact Nat.lt_succ_of_lt hcontrol

theorem Sound.meanwhile (h : e.Sound w) (hs : w'.heap.Sound) (hg : w.heap.Grown w'.heap)
    (hcontrols : w.controls.size ≤ w'.controls.size) : e.Sound w' := by
  obtain ⟨hcontrol, ρ, ha, he, hin⟩ := h
  have hd := ha.diagonal
  have hclosed := hd.source_closed
  let σ := w'.heap.everything ρ.diagonal.source.graphs ρ.diagonal.source.contexts
  have hw : ρ.diagonal.Within σ := by
    refine ⟨?_, ?_, ?_, ?_, fun hq => (hin _ hq).elim⟩
    · rintro i j ⟨rfl, hi⟩
      exact ⟨rfl, Nat.lt_of_lt_of_le (hclosed.item ⟨i, rfl, hi⟩) hg.items⟩
    · rintro s t ⟨rfl, hs⟩
      exact ⟨rfl, Nat.lt_of_lt_of_le (hclosed.scope ⟨s, rfl, hs⟩) hg.scopes⟩
    · rintro g g' ⟨rfl, hg⟩
      exact ⟨rfl, g, rfl, hg⟩
    · rintro c d ⟨rfl, hc⟩
      exact ⟨rfl, c, rfl, hc⟩
  refine ⟨Nat.lt_of_lt_of_le hcontrol hcontrols, σ, hs.agree ?_ ?_ ?_ ?_, he.diagonal.mono hw,
    fun _ => id⟩
  · intro g hgr
    refine ⟨Nat.lt_of_lt_of_le (hclosed.graph hgr) hg.graphs, hd.source_silent hgr, fun i hi => ?_⟩
    exact Nat.lt_of_lt_of_le (hclosed.item (hclosed.held hgr i hi)) hg.items
  · exact fun g g' h h' => hclosed.graph_id h h'
  · rintro c ⟨d, rfl, hc⟩
    obtain ⟨hid, -, hal⟩ := hd.context (c := c) (d := c) ⟨rfl, hc⟩
    exact ⟨Nat.lt_of_lt_of_le hid hg.contexts, hal.mono hw⟩
  · exact fun c c' h h' => hclosed.context_id h h'

/-- The first operations of a graph on corresponding scopes are alike. -/
theorem firstOperations_alike {h k : Heap} {g : SharedGraph} {s t : ScopeId} (ha : Agree ρ h k)
    (hg : ρ.graphs g g) (hst : ρ.scopes s t) :
    ∃ ρ', Confined ρ ρ' k (firstOperations g t k).2 ∧
      Agree ρ' (firstOperations g s h).2 (firstOperations g t k).2 ∧
      Operation.AllAlike ρ' (firstOperations g s h).1 (firstOperations g t k).1 := by
  unfold firstOperations
  cases g.graph.initial with
  | none => exact ⟨ρ, .refl, ha, .nil⟩
  | some initial =>
      obtain ⟨ha₁, hconf₁⟩ := ha.newContext (c := .root ⟨h.contexts⟩ g s)
        (d := .root ⟨k.contexts⟩ g t) rfl rfl ⟨hg, hst⟩
      obtain ⟨ha₂, hconf₂⟩ := ha₁.newContext
        (c := .frame ⟨h.contexts + 1⟩ initial s [initial] (.root ⟨h.contexts⟩ g s))
        (d := .frame ⟨k.contexts + 1⟩ initial t [initial] (.root ⟨k.contexts⟩ g t)) rfl rfl
        ⟨rfl, rfl, hst, .inr ⟨rfl, rfl⟩⟩
      exact ⟨_, hconf₁.trans hconf₂, ha₂, .cons (.atomic (.inr ⟨rfl, rfl⟩)) .nil⟩

theorem resetControl_frame (w : World) (c : ControlId) :
    (w.resetControl c).heap = w.heap ∧ (w.resetControl c).controls.size = w.controls.size := by
  unfold World.resetControl
  dsimp only
  split
  · exact ⟨rfl, Array.size_modify⟩
  · exact ⟨rfl, Array.size_modify⟩

theorem Sound.prepared {e₀ : Engine} {g : SharedGraph} {s : ScopeId} {events : List Event}
    (hcontrol : e₀.control.index < w.controls.size) (hs : w.heap.Sound) (hg : g.UsableIn w.heap)
    (hscope : s.index < w.heap.scopes.size)
    (hprep : e₀.prepare g s w = ⟨.ok (), e, w', events⟩) : e.Sound w' := by
  have ha : Agree (w.heap.everything (· = g) fun _ => False) w.heap w.heap :=
    hs.agree (fun _ h => h ▸ hg.placed) (fun _ _ h h' _ => h.trans h'.symm) (fun _ => False.elim)
      fun _ _ h => h.elim
  obtain ⟨ρ, hconf, ha', hops⟩ :=
    firstOperations_alike (g := g) (s := s) ha ⟨rfl, rfl⟩ ⟨rfl, hscope⟩
  have hw := hconf.within
  obtain ⟨rfl, rfl⟩ := prepare_ok hprep
  obtain ⟨hheap, hsize⟩ := resetControl_frame
    { w with heap := (firstOperations g s w.heap).2 } e₀.control
  refine ⟨Nat.lt_of_lt_of_eq hcontrol hsize.symm, ρ, ?_, ⟨rfl, rfl, .some (hw.scopes ⟨rfl, hscope⟩),
    .some (hw.graphs ⟨rfl, rfl⟩), hops, rfl, rfl, rfl⟩, hconf.inner fun _ => id⟩
  rw [hheap]
  exact ha'

theorem Sound.created {config : Config} (hs : w.heap.Sound)
    (hcreate : create config w = (.ok e, w')) : e.Sound w' := by
  have ha : Agree (w.heap.everything (fun _ => False) fun _ => False) w.heap w.heap :=
    hs.agree (fun _ => False.elim) (fun _ _ h => h.elim) (fun _ => False.elim)
      fun _ _ h => h.elim
  unfold create at hcreate
  cases hfault : config.fault? with
  | some text => rw [hfault] at hcreate; cases hcreate
  | none =>
      rw [hfault] at hcreate
      change ((.ok (ofConfig config w.newControl.1), w.newControl.2) :
        Except Failure Engine × World) = _ at hcreate
      cases hcreate
      refine ⟨?_, _, ha, ⟨rfl, rfl, .none, .none, .nil, rfl, rfl, rfl⟩, fun _ => id⟩
      show w.controls.size < (w.controls.push _).size
      rw [Array.size_push]
      exact Nat.lt_succ_self _

theorem Sound.watched (h : e.Sound w) (t : TokenId) :
    (e.withToken t w).1.Sound (e.withToken t w).2 := by
  obtain ⟨-, ρ, ha, he, hin⟩ := h
  refine ⟨?_, ρ, ha, { he with }, hin⟩
  show w.controls.size < (w.controls.push _).size
  rw [Array.size_push]
  exact Nat.lt_succ_self _

/-- Engines that can be reached hold a part of the heap that nothing leads out
of. -/
theorem Reached.sound (h : e.Reached w) : e.Sound w := by
  induction h with
  | created hs hcreate => exact .created hs hcreate
  | prepared hcontrol hs hg hscope hprep => exact .prepared hcontrol hs hg hscope hprep
  | called _ hx ih => exact ih.called hx
  | watched t _ ih => exact ih.watched t
  | meanwhile _ hs hg hcontrols ih => exact ih.meanwhile hs hg hcontrols
  | copy _ ih => exact ih.copy
  | original _ ih => exact ih.original

end Engine

end ScopeFlow
