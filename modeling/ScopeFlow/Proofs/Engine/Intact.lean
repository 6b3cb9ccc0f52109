import ScopeFlow.Proofs.Drain.Upkeep
import ScopeFlow.Proofs.Engine.Reached
import ScopeFlow.Proofs.Operator.Scheduled
import ScopeFlow.Proofs.Scope.Aliasing

/-!
# Runs leave declarations intact

A graph is prepared on a tree in which no variable is bound to an item of a
declaration and no two variables share one. From then on, whatever calls are
made, the items of declarations keep their values, none gets bound, and no two
variables come to share an item.

* `Context.execute_bears` says so of one execution in such a world;
* `Engine.Keeps` is what a call on the engine keeps up (`Keeps.call`);
* `Keeps.intact` reads off what this means for every state in between.
-/

namespace ScopeFlow

open Heap (Stays With)
open Operation (AllFit)
open Relation (ReflTransGen)

variable {g : SharedGraph} {S : ScopeId → Prop} {h₀ h h' : Heap} {s : ScopeId}

/-! ## Executions -/

/-- A forest that has only changed within a region since, and has left it
separate. -/
structure World.Tidy (g : SharedGraph) (S : ScopeId → Prop) (h₀ : Heap) (w : World) : Prop where
  forest : w.heap.Forest
  stays : Stays g.graph.held S h₀ w.heap

/-- A context of the graph over scopes of the region. -/
structure Context.Inside (g : SharedGraph) (S : ScopeId → Prop) (h₀ : Heap) (w : World)
    (ctx : Context) : Prop where
  graph : ctx.graph = g
  scopes : ∀ t ∈ ctx.scopeChain, With S h₀ w.heap t

theorem Heap.With.mono {t : ScopeId} (hsize : h.scopes.size ≤ h'.scopes.size)
    (ht : With S h₀ h t) : With S h₀ h' t :=
  ht.imp_right fun hnew => ⟨hnew.1, Nat.lt_of_lt_of_le hnew.2 hsize⟩

theorem Context.Schedules.graph {ctx c : Context} (hc : ctx.Schedules h c) :
    c.graph = ctx.graph := by
  cases hc with
  | beside op trail id => cases ctx <;> rfl
  | below hs id op => rfl

/-- An execution in a tidy world leaves it tidy, and answers with contexts
inside. -/
theorem Context.execute_bears {ctx : Context} {w : World} (hw : w.Tidy g S h₀)
    (hctx : ctx.Inside g S h₀ w) (setting : Setting) :
    World.Bears (World.Tidy g S h₀) (Inside g S h₀) w (ctx.execute setting w).2 ∧
      ∀ next, (ctx.execute setting w).1 = .ok next →
        AllFit (Inside g S h₀) (ctx.execute setting w).2 next.toList := by
  have hrow : ∀ {k}, ReflTransGen ctx.Edit w.heap k →
      k.Forest ∧ Stays g.graph.held S h₀ k ∧ w.heap.scopes.size ≤ k.scopes.size := by
    intro k hk
    induction hk with
    | refl => exact ⟨hw.forest, hw.stays, Nat.le_refl _⟩
    | tail _ he ih =>
        obtain ⟨hforest, hstays, hsize⟩ := ih
        have hin : ∀ t ∈ ctx.scopeChain, With S h₀ _ t :=
          fun t ht => (hctx.scopes t ht).mono hsize
        have hthere : ctx.Within _ := fun t ht => hstays.separate.scope (hin t ht)
        refine ⟨he.forest hforest hthere, ?_, ?_⟩
        · exact hstays.trans (he.stays hforest hstays.separate hin)
        · exact Nat.le_trans hsize (he.carries hforest.toSound.complete hthere).scopes
  obtain ⟨hforest, hstays, hsize⟩ := hrow (ctx.execute_along setting w)
  refine ⟨⟨⟨hforest, hstays⟩, fun c hc => ?_⟩, fun next hnext c hc => ?_⟩
  · exact ⟨hc.graph, fun t ht => (hc.scopes t ht).mono hsize⟩
  · have hschedules := ctx.execute_schedules setting w next hnext c hc
    refine ⟨hschedules.graph.trans hctx.graph, fun t ht => With.mono hsize ?_⟩
    rcases hschedules.mem_scopeChain ht with ht | hbelow
    · exact hctx.scopes t ht
    · exact hw.stays.separate.of_below (hctx.scopes _ ctx.scope_mem_scopeChain) hbelow

namespace Engine

variable {e : Engine} {w w' : World}

/-! ## Calls -/

/-- An engine that was prepared with a graph on a scope, in a world that it
keeps tidy. -/
structure Keeps (g : SharedGraph) (s : ScopeId) (h₀ : Heap) (e : Engine) (w : World) : Prop where
  graph : e.graph = some g
  scope : e.scope = some s
  tidy : w.Tidy g (h₀.Below s) h₀
  pending : AllFit (Context.Inside g (h₀.Below s) h₀) w e.continuation

theorem Keeps.run {fuel : Nat} {call : EngineCall} {budget : Option Nat} {reply : Reply RunState}
    (hk : e.Keeps g s h₀ w) (hrun : e.run fuel call budget w = some reply) :
    reply.engine.Keeps g s h₀ reply.world := by
  unfold Engine.run at hrun
  split at hrun
  · obtain ⟨d, hdrain, rfl⟩ := Option.map_eq_some_iff.mp hrun
    have hbears : d.Bears (World.Tidy g (h₀.Below s) h₀) (Context.Inside g (h₀.Below s) h₀) w := by
      refine DrainSetting.drain_bears (fun w ctx pending hw hctx => ?_) hdrain hk.tidy hk.pending
      rcases DrainSetting.execute_cases ⟨e.config, e.control⟩ ctx pending with
        ⟨failure, -, hfails⟩ | hexecutes
      · rw [hfails]
        exact ⟨⟨hw, fun _ hc => hc⟩, nofun⟩
      · rw [hexecutes]
        exact ctx.execute_bears hw hctx _
    obtain ⟨hheap, hgraph, hscope, hpending⟩ := e.afterDrain_frame d
    have htidy := hbears.world.good
    have hstack := hbears.stack
    refine ⟨hgraph.trans hk.graph, hscope.trans hk.scope, ⟨?_, ?_⟩, fun c hc => ?_⟩
    · rw [hheap]
      exact htidy.forest
    · rw [hheap]
      exact htidy.stays
    · rcases hpending with hpending | hpending
      · rw [hpending] at hc
        refine ⟨(hstack c hc).graph, ?_⟩
        rw [hheap]
        exact (hstack c hc).scopes
      · rw [hpending] at hc
        cases hc
  · cases hrun
    exact hk

theorem Keeps.call {fuel : Nat} {c : Call} {x : Called} (hk : e.Keeps g s h₀ w)
    (hcall : e.call fuel w c = some x) : x.engine.Keeps g s h₀ x.world := by
  obtain ⟨entry, budget, reply, hrun, hengine, hworld⟩ | ⟨hworld, hengine | hengine⟩ :=
    call_cases hcall
  · rw [hengine, hworld]
    exact hk.run hrun
  · rw [hengine, hworld]
    exact hk
  · rw [hengine, hworld]
    exact ⟨hk.graph, hk.scope, hk.tidy, nofun⟩

/-! ## From preparation on -/

variable {w₀ : World}

/-- What a preparation on a fitting tree begins with. -/
theorem Keeps.prepared {e₀ : Engine} {events : List Event} (hs : w₀.heap.Suits g s)
    (hprep : e₀.prepare g s w₀ = ⟨.ok (), e, w, events⟩) : e.Keeps g s w₀.heap w := by
  obtain ⟨rfl, rfl⟩ := prepare_ok hprep
  have hheap := (resetControl_frame { w₀ with heap := (firstOperations g s w₀.heap).2 }
    e₀.control).1
  have hsame : (firstOperations g s w₀.heap).2.scopes = w₀.heap.scopes ∧
      (firstOperations g s w₀.heap).2.items = w₀.heap.items := by
    unfold firstOperations
    cases g.graph.initial <;> exact ⟨rfl, rfl⟩
  have hscope := Heap.scope_congr hsame.1
  refine ⟨rfl, rfl, ⟨?_, ?_⟩, fun c hc => ?_⟩
  · rw [hheap]
    exact hs.forest.of_same (fun t => by rw [hscope]) (fun t => by rw [hscope])
      (fun t => by rw [hscope]) (Nat.le_of_eq (by rw [hsame.2])) (Nat.le_of_eq (by rw [hsame.1]))
  · rw [hheap]
    exact hs.separate.of_scopes hsame.1 (Nat.le_of_eq (by rw [hsame.2])) fun i _ =>
      Heap.value_congr hsame.2 i
  · -- The first operator runs on the global scope, and so does its frame.
    change c ∈ Operation.contextsOfAll (firstOperations g s w₀.heap).1 at hc
    refine ⟨firstOperations_runIn g s w₀.heap c hc, fun t ht => .inl ?_⟩
    obtain rfl := firstOperations_scopeChain hc ht
    exact .self

/-- The states that calls lead to after a graph has been prepared on a scope,
whatever is asked of the engine meanwhile. -/
inductive Underway (g : SharedGraph) (s : ScopeId) (w₀ : World) : Engine → World → Prop
  | prepared {e₀ e : Engine} {w : World} {events : List Event} :
      e₀.prepare g s w₀ = ⟨.ok (), e, w, events⟩ → Underway g s w₀ e w
  | called {e : Engine} {w : World} {fuel : Nat} {c : Call} {x : Called} : Underway g s w₀ e w →
      e.call fuel w c = some x → Underway g s w₀ x.engine x.world
  /-- A request leaves the heap alone. -/
  | asked {e : Engine} {w w' : World} : Underway g s w₀ e w → w'.heap = w.heap →
      Underway g s w₀ e w'

theorem Underway.keeps (hu : e.Underway g s w₀ w) (hs : w₀.heap.Suits g s) :
    e.Keeps g s w₀.heap w := by
  induction hu with
  | prepared hprep => exact .prepared hs hprep
  | called _ hcall ih => exact ih.call hcall
  | @asked e w w' _ hheap ih =>
      refine ⟨ih.graph, ih.scope, ?_, fun c hc => ⟨(ih.pending c hc).graph, ?_⟩⟩
      · exact ⟨hheap ▸ ih.tidy.forest, hheap ▸ ih.tidy.stays⟩
      · exact hheap ▸ (ih.pending c hc).scopes

/-- An engine whose graph is as it was when it was prepared on a scope, with
declarations and variables that share nothing. -/
structure Intact (g : SharedGraph) (s : ScopeId) (h₀ : Heap) (e : Engine) (w : World) : Prop where
  /-- What is pending is of the same graph still. -/
  graph : e.graph = some g ∧ ∀ c ∈ Operation.contextsOfAll e.continuation, c.graph = g
  value : ∀ i ∈ g.graph.held, w.heap.value i = h₀.value i
  /-- An item of a declaration is bound where it has been bound all along,
  outside of the tree, and nowhere else. -/
  free : ∀ t name i, w.heap.binding? t name = some i → i ∈ g.graph.held →
    ¬ h₀.Below s t ∧ h₀.binding? t name = some i
  /-- No variables share an item, of scopes that the engine gives access to. -/
  apart : ∀ r ∈ e.heldScopes, ∀ r' ∈ e.heldScopes, ∀ t u name other i, w.heap.Below r t →
    w.heap.Below r' u → w.heap.binding? t name = some i → w.heap.binding? u other = some i →
      t = u ∧ name = other

theorem Keeps.intact (hk : e.Keeps g s h₀ w) (hs : h₀.Suits g s) : e.Intact g s h₀ w := by
  have hstays := hk.tidy.stays
  have hsep := hstays.separate
  have hheld : ∀ r ∈ e.heldScopes, With (h₀.Below s) h₀ w.heap r := by
    intro r hr
    rcases List.mem_append.mp hr with hr | hr
    · rw [hk.scope] at hr
      obtain rfl := List.mem_singleton.mp hr
      exact .inl .self
    · obtain ⟨op, hop, hr⟩ := List.mem_flatMap.mp hr
      obtain ⟨c, hc, hr⟩ := List.mem_flatMap.mp hr
      exact (hk.pending c (Operation.mem_contextsOfAll.mpr ⟨op, hop, hc⟩)).scopes r hr
  refine ⟨⟨hk.graph, fun c hc => (hk.pending c hc).graph⟩, hstays.value, ?_, ?_⟩
  · intro t name i hi hmem
    have hout : ¬ With (h₀.Below s) h₀ w.heap t := fun hin => hsep.free hin hi hmem
    have hthere : t.index < w.heap.scopes.size := by
      apply Classical.byContradiction
      intro hle
      rw [Heap.binding?, Heap.scope_of_le (by omega)] at hi
      cases hi
    have hold : t.index < h₀.scopes.size := by
      apply Classical.byContradiction
      exact fun hle => hout (.inr ⟨by omega, hthere⟩)
    have hno : ¬ h₀.Below s t := fun hbelow => hout (.inl hbelow)
    rw [Heap.binding?, hstays.outside t hold hno] at hi
    exact ⟨hno, hi⟩
  · intro r hr r' hr' t u name other i ht hu hi hi'
    exact hsep.apart (hsep.of_below (hheld r hr) ht) (hsep.of_below (hheld r' hr') hu) hi hi'

end Engine

end ScopeFlow
