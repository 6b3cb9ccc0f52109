import Mathlib.Data.List.Chain
import ScopeFlow.Proofs.Engine.Lifecycle
import ScopeFlow.Proofs.Engine.Loopless

/-!
# Contexts of a run

What the contexts of a run look like: a chain of frames up to the one graph
frame, no deeper than the bound allows, and a trail of operators each of which
is the successor of the one before, none twice (`Context.Formed`). Children,
hops and loops that run again keep to it (`Begets.formed`), and so do runs,
since nothing is executed past a bound (`Engine.Underway.all_formed`).
-/

namespace ScopeFlow

namespace Context

/-- Is the second operator the successor of the first? -/
def Follows (g : Graph) (a b : OperatorId) : Prop :=
  ∃ op, g.get? a = some op ∧ op.successor = some b

/-- A context of a run under a graph frame, where contexts are executed down to
a depth of `bound`. -/
structure Formed (c root : Context) (bound : Nat) : Prop where
  graph : c.graph = root.graph
  /-- As many frames lie above as the depth says, -/
  above : c.chain.tail.length = c.depth
  /-- the last of them the graph frame. -/
  top : c.chain.tail.getLast? = some root
  depth_pos : 1 ≤ c.depth
  depth_le : c.depth ≤ bound + 1
  trail_ne : c.trail ≠ []
  trail_nodup : c.trail.Nodup
  /-- The trail ends with the bound operator, -/
  trail_last : c.trail.getLast? = c.operatorId?
  /-- and leads there by successors. -/
  trail_chain : c.trail.IsChain (Follows root.graph.graph)

variable {ctx c root : Context} {op : Operator} {bound : Nat}

theorem length_chain (c : Context) : c.chain.length = c.depth + 1 := by
  induction c with
  | root id g s => rfl
  | frame id op s t p ih => simp only [chain, depth, List.length_cons, ih]

theorem getLast?_chain (h : c.chain.tail.getLast? = some root) : c.chain.getLast? = some root := by
  cases c with
  | root id g s => cases h
  | frame id op s t p =>
      show (frame id op s t p :: p.chain).getLast? = some root
      rw [List.getLast?_cons, show p.chain.getLast? = some root from h]
      rfl

/-- The first operator of a run, right under the graph frame. -/
theorem formed_first (id id' : ContextId) (g : SharedGraph) (s : ScopeId) (own : OperatorId)
    (bound : Nat) : Formed (.frame id' own s [own] (.root id g s)) (.root id g s) bound where
  graph := rfl
  above := rfl
  top := rfl
  depth_pos := Nat.le_refl 1
  depth_le := Nat.le_add_left ..
  trail_ne := List.cons_ne_nil own []
  trail_nodup := List.nodup_singleton own
  trail_last := rfl
  trail_chain := .singleton own

/-- What is scheduled by a context within the bound is formed as it is. -/
theorem Begets.formed (hctx : ctx.Formed root bound) (hop : ctx.operator = .ok op)
    (hbound : ctx.depth ≤ bound) (hc : ctx.Begets op c) : c.Formed root bound := by
  cases hc with
  | @child id hcalls n s =>
      have hlength := ctx.length_chain
      exact {
        graph := hctx.graph
        above := hlength
        top := getLast?_chain hctx.top
        depth_pos := Nat.le_add_left ..
        depth_le := Nat.succ_le_succ hbound
        trail_ne := List.cons_ne_nil id []
        trail_nodup := List.nodup_singleton id
        trail_last := rfl
        trail_chain := .singleton id }
  | @hop next hnext hnew n =>
      obtain ⟨id, own, s, trail, parent, rfl⟩ := ne_root_of_operator hop
      have hget := get?_of_operator rfl hop
      refine { hctx with
        trail_ne := List.append_ne_nil_of_right_ne_nil _ (List.cons_ne_nil next [])
        trail_nodup := ?_
        trail_last := List.getLast?_concat
        trail_chain := ?_ }
      · exact List.nodup_append.mpr ⟨hctx.trail_nodup, List.nodup_singleton next, fun a ha b hb =>
          fun heq => hnew (List.mem_singleton.mp hb ▸ heq ▸ ha)⟩
      · refine List.isChain_append.mpr ⟨hctx.trail_chain, .singleton next, fun a ha b hb => ?_⟩
        -- The trail so far ends with the operator that has just been executed.
        have hlast : trail.getLast? = some own := hctx.trail_last
        change a ∈ trail.getLast? at ha
        rw [hlast] at ha
        obtain rfl : own = a := Option.some.inj ha
        obtain rfl : next = b := Option.some.inj hb
        exact ⟨op, hctx.graph ▸ hget, hnext⟩
  | @again body terminator own hloop hown n =>
      obtain ⟨id, own', s, trail, parent, rfl⟩ := ne_root_of_operator hop
      obtain rfl : own' = own := Option.some.inj hown
      exact { hctx with
        trail_ne := List.cons_ne_nil own' []
        trail_nodup := List.nodup_singleton own'
        trail_last := rfl
        trail_chain := .singleton own' }

end Context

namespace Effort

/-- The effort executes its operator, whose context was popped off a stack that
has `rest` left. -/
def Executes (x : Effort) (r : DrainSetting) (rest : List Operation) : Prop :=
  match x.ctx.execute ⟨x.before.world.token r.control, some r.control⟩ x.before.world with
  | (.ok next, w) => x.toTurn = ⟨x.ctx, next.toList ++ rest, x.before.advance w⟩
  | (.error e, w) => x.toTurn = ⟨x.ctx, .atomic x.ctx :: rest, x.before.fall e w⟩

/-- The effort is refused: its context is put back, and nothing is changed. -/
def Refused (x : Effort) (rest : List Operation) : Prop :=
  ∃ reason, x.toTurn = ⟨x.ctx, .atomic x.ctx :: rest,
    x.before.fall (.graphCycle x.ctx.operatorName reason) x.before.world⟩

/-- The effort keeps to the bounds: past one of them nothing is executed. -/
def KeepsBounds (x : Effort) (r : DrainSetting) : Prop :=
  ∃ rest : List Operation,
    rest.length + 1 ≤ r.config.maxStackDepth ∧ x.ctx.depth ≤ r.config.maxContextDepth ∧
        x.Executes r rest ∨
      (r.config.maxStackDepth < rest.length + 1 ∨ r.config.maxContextDepth < x.ctx.depth) ∧
        x.Refused rest

end Effort

theorem DrainSetting.Works.keepsBounds {r : DrainSetting} {M M' : Multiset Context}
    {p p' : Progress} {xs : List Effort} (h : r.Works M p xs M' p') {x : Effort} (hx : x ∈ xs) :
    x.KeepsBounds r := by
  rcases h.mem hx with ⟨rest, next, w, hexec, hturn⟩ | ⟨rest, e, w, hexec, hturn⟩
  · obtain ⟨hstack, hdepth, hexec⟩ := execute_eq_ok hexec
    refine ⟨rest, .inl ⟨hstack, hdepth, ?_⟩⟩
    unfold Effort.Executes
    rw [hexec]
    exact hturn
  · by_cases hbounds : r.config.maxStackDepth < rest.length + 1 ∨
        r.config.maxContextDepth < x.ctx.depth
    · obtain ⟨reason, hrefused⟩ := execute_refused hbounds
      rw [hrefused] at hexec
      obtain ⟨he, rfl⟩ := Prod.mk.inj hexec
      obtain rfl := Except.error.inj he
      exact ⟨rest, .inr ⟨hbounds, reason, hturn⟩⟩
    · have hwithin : ¬ rest.length + 1 > r.config.maxStackDepth ∧
          ¬ x.ctx.depth > r.config.maxContextDepth := by omega
      rw [execute_within hwithin.1 hwithin.2] at hexec
      refine ⟨rest, .inl ⟨by omega, by omega, ?_⟩⟩
      unfold Effort.Executes
      rw [hexec]
      exact hturn

namespace Engine

variable {e : Engine} {w w₀ : World} {g : SharedGraph} {s : ScopeId}

/-- The first operator is formed. -/
theorem first_formed {h : Heap} {c : Context} {bound : Nat}
    (hc : c ∈ Operation.contextsOfAll (firstOperations g s h).1) :
    c.Formed (.root ⟨h.contexts⟩ g s) bound := by
  obtain ⟨initial, -, rfl⟩ := mem_firstOperations hc
  exact Context.formed_first ..

/-- In every state that calls on a prepared engine lead to, every pending
context is formed under the one graph frame made when it was prepared; so is
every context that is executed from there on, and only within the bounds. -/
theorem Underway.all_formed (hu : e.Underway g s w₀ w) :
    (∀ c ∈ Operation.contextsOfAll e.continuation,
        c.Formed (.root ⟨w₀.heap.contexts⟩ g s) e.config.maxContextDepth) ∧
      ∀ fuel budget, ∀ x ∈ e.callEfforts fuel budget w,
        x.ctx.Formed (.root ⟨w₀.heap.contexts⟩ g s) e.config.maxContextDepth ∧
          x.KeepsBounds e.setting := by
  have hr : e.setting.KeepsUp (fun _ => True) fun _ c =>
      c.Formed (.root ⟨w₀.heap.contexts⟩ g s) e.config.maxContextDepth := by
    refine fun w ctx pending _ hctx => ⟨⟨trivial, fun _ hc => hc⟩, fun next hnext c hc => ?_⟩
    obtain ⟨-, hdepth, hx⟩ := DrainSetting.execute_eq_ok (Prod.ext hnext rfl)
    obtain ⟨op, hop, hissues⟩ := Context.execute_issues hx
    exact (hissues.begets hc).formed hctx hop hdepth
  obtain ⟨hpending, hlog, -⟩ := hu.keeps_up hr trivial
    fun c hc => first_formed (Operation.mem_pool.mp hc)
  refine ⟨hpending.2, fun fuel budget x hx => ⟨(hlog fuel budget x hx).ctx, ?_⟩⟩
  obtain ⟨M, p, hworks⟩ := e.callEfforts_works fuel budget w
  exact hworks.keepsBounds hx

end Engine

namespace Sample

/-- One step into a run of `circleGraph`: the sequence has scheduled its
successor as a child, itself as another, and its successor beside itself. -/
theorem underway_formed_circle :
    ∃ e w, Engine.Underway circleGraph ⟨0⟩ loneScope e w ∧
      (Operation.contextsOfAll e.continuation).map (fun c => (c.depth, c.trail)) =
        [(2, [⟨1⟩]), (2, [⟨0⟩]), (1, [⟨0⟩, ⟨1⟩])] ∧
      (∀ c ∈ Operation.contextsOfAll e.continuation,
        c.Formed (.root ⟨0⟩ circleGraph ⟨0⟩) e.config.maxContextDepth) ∧
      ∀ fuel budget, ∀ x ∈ e.callEfforts fuel budget w,
        x.ctx.Formed (.root ⟨0⟩ circleGraph ⟨0⟩) e.config.maxContextDepth ∧
          x.KeepsBounds e.setting := by
  have hrun : ∃ e w events x, (Engine.ofConfig .standard ⟨0⟩).prepare circleGraph ⟨0⟩ loneScope =
      ⟨.ok (), e, w, events⟩ ∧ e.call 2 w .step = some x ∧
        (Operation.contextsOfAll x.engine.continuation).map (fun c => (c.depth, c.trail)) =
          [(2, [⟨1⟩]), (2, [⟨0⟩]), (1, [⟨0⟩, ⟨1⟩])] := ⟨_, _, _, _, rfl, rfl, rfl⟩
  obtain ⟨e, w, events, x, hprep, hcall, hpending⟩ := hrun
  have hu : x.engine.Underway circleGraph ⟨0⟩ loneScope x.world := .called (.prepared hprep) hcall
  exact ⟨x.engine, x.world, hu, hpending, hu.all_formed⟩

end Sample

end ScopeFlow
