import ScopeFlow.Graph.Reachable
import ScopeFlow.Proofs.Drain.Bounded
import ScopeFlow.Proofs.Engine.Efforts

/-!
# Runs without loops end

A graph without loops is run to an end from wherever it stands: whatever its
successors, which may go round in circles, whatever its composites schedule,
themselves included, and on any scopes.

Each context that an execution schedules is one level deeper, and the depth is
bounded; or it is a sibling with one more operator on its trail, and there are
only so many. So contexts are well-founded by what they schedule, and by
induction on that `Settles` holds of each: on top of a stack that will be
drained, it will be drained too. Branches need no argument of their own, since
`Settles` passes from the parts of a collection to the whole.
-/

namespace ScopeFlow

/-- Is this the kind of loops? -/
def OperatorKind.isLoop : OperatorKind → Bool
  | loop _ _ => true
  | _ => false

/-- Is no operator of the graph a loop? -/
def SharedGraph.Loopless (g : SharedGraph) : Prop :=
  ∀ op ∈ g.graph.operators, op.kind.isLoop = false

instance (g : SharedGraph) : Decidable g.Loopless :=
  inferInstanceAs (Decidable (∀ op ∈ g.graph.operators, op.kind.isLoop = false))

namespace DrainSetting

variable {r : DrainSetting} {op : Operation} {ops rest : List Operation} {p : Progress}
  {ctx : Context}

/-- A drain of the stack ends, however far it has come. -/
def Halts (r : DrainSetting) (stack : List Operation) : Prop :=
  ∀ p, ∃ fuel d, r.drain fuel none stack p = some d

/-- On top of a stack whose drains end, the operation leaves it one. -/
def Settles (r : DrainSetting) (op : Operation) : Prop :=
  ∀ rest, r.Halts rest → r.Halts (op :: rest)

theorem halts_nil : r.Halts [] := fun p => ⟨1, ⟨.ended none, [], p⟩, rfl⟩

theorem Halts.append (hrest : r.Halts rest) (hops : ∀ op ∈ ops, r.Settles op) :
    r.Halts (ops ++ rest) := by
  induction ops with
  | nil => exact hrest
  | cons op ops ih =>
      exact hops op List.mem_cons_self _ (ih fun op' hmem => hops op' (List.mem_cons_of_mem _ hmem))

/-- Branches end one after another if each of them does. -/
theorem branches_end (hops : ∀ op ∈ ops, r.Halts [op]) (p : Progress) :
    ∃ fuel x, drainBranches (fun op p => r.drain fuel none [op] p) ops p = some x := by
  induction ops generalizing p with
  | nil => exact ⟨0, _, rfl⟩
  | cons op ops ih =>
      obtain ⟨fuel, d, hd⟩ := hops op List.mem_cons_self p
      obtain ⟨fuel', x, hx⟩ := ih (fun op' hmem => hops op' (List.mem_cons_of_mem op hmem)) d.progress
      have hd' := (drain_mono (Nat.le_max_left fuel fuel') hd).1
      have hx' := (branches_more (Nat.le_max_right fuel fuel') hx).1
      exact ⟨max fuel fuel', (⟨d.outcome, d.stack⟩ :: x.1, x.2), by simp only [drainBranches, hd', hx']⟩

/-- A collection is put back, taken apart, or drained branch by branch. -/
theorem move_collection (hop : op = .sequence ops ∨ op = .parallel ops) (p : Progress) :
    (∃ why, r.move none op p = .halt why) ∨ r.move none op p = .unpack ops ∨
      r.move none op p = .split ops := by
  cases hh : r.halts? p with
  | some why => exact .inl ⟨why, move_eq_halt.mpr hh⟩
  | none =>
      rcases hop with rfl | rfl
      · exact .inr (.inl (move_eq_unpack.mpr ⟨hh, .inl rfl⟩))
      · cases hs : r.separates none ops with
        | true => exact .inr (.inr (move_eq_split.mpr ⟨hh, rfl, hs⟩))
        | false => exact .inr (.inl (move_eq_unpack.mpr ⟨hh, .inr ⟨rfl, hs⟩⟩))

/-- A collection settles if its parts do. -/
theorem settles_of_parts (hop : op = .sequence ops ∨ op = .parallel ops)
    (hops : ∀ op ∈ ops, r.Settles op) : r.Settles op := by
  intro rest hrest p
  rcases r.move_collection hop p with ⟨why, hm⟩ | hm | hm
  · exact ⟨1, _, drain_halt hm 0⟩
  · obtain ⟨fuel, d, hd⟩ := hrest.append hops p
    exact ⟨fuel + 1, d, by rw [drain_unpack hm, hd]⟩
  · obtain ⟨fuel, ⟨ends, q⟩, hb⟩ := branches_end (fun op hmem => hops op hmem [] halts_nil) p
    by_cases ho : (joinBranches ends).outcome = .ended none
    · -- All branches have run dry, so that only what lies below is left.
      obtain ⟨fuel', d, hd⟩ := hrest q
      have hb' := (branches_more (Nat.le_max_left fuel fuel') hb).1
      refine ⟨max fuel fuel' + 1, d, ?_⟩
      rw [(drain_split_go hm hb' ho).1, stackOn_of_dry hb' ho]
      exact (drain_mono (Nat.le_max_right fuel fuel') hd).1
    · exact ⟨fuel + 1, _, (drain_split_end hm hb ho).1⟩

mutual

/-- An operation settles if the contexts in it do, one by one. -/
theorem settles_of_contexts : ∀ op : Operation,
    (∀ c ∈ op.contexts, r.Settles (.atomic c)) → r.Settles op
  | .atomic ctx, h => h ctx List.mem_cons_self
  | .sequence ops, h => settles_of_parts (.inl rfl) (allSettle_of_contexts ops h)
  | .parallel ops, h => settles_of_parts (.inr rfl) (allSettle_of_contexts ops h)

theorem allSettle_of_contexts : ∀ ops : List Operation,
    (∀ c ∈ Operation.contextsOfAll ops, r.Settles (.atomic c)) → ∀ op ∈ ops, r.Settles op
  | [], _ => nofun
  | op :: ops, h => List.forall_mem_cons.mpr
    ⟨settles_of_contexts op fun c hc => h c (List.mem_append_left _ hc),
      allSettle_of_contexts ops fun c hc => h c (List.mem_append_right _ hc)⟩

end

/-- A context settles if all that its execution schedules does. -/
theorem settles_atomic
    (hnext : ∀ pending w next w', r.execute ctx pending w = (.ok next, w') →
      ∀ c ∈ Operation.contextsOfAll next.toList, r.Settles (.atomic c)) :
    r.Settles (.atomic ctx) := by
  intro rest hrest p
  cases hh : r.halts? p with
  | some why => exact ⟨1, _, drain_halt (move_eq_halt.mpr hh) 0⟩
  | none =>
      have hm : r.move none (.atomic ctx) p = .perform ctx := move_eq_perform.mpr ⟨hh, rfl⟩
      rcases hx : r.execute ctx rest.length p.world with ⟨e | next, w⟩
      · exact ⟨1, _, by rw [drain_cons, hm]; dsimp only; rw [hx]⟩
      · obtain ⟨fuel, d, hd⟩ := hrest.append (allSettle_of_contexts _
          (hnext rest.length p.world next w hx)) (p.advance w)
        exact ⟨fuel + 1, d, by rw [drain_cons, hm]; dsimp only; rw [hx]; exact hd⟩

end DrainSetting

/-! ## What keeps contexts well-founded -/

/-- Which operators are unlisted is a matter of membership. -/
theorem Graph.unlisted_append (seen : List OperatorId) (id : OperatorId) (n : Nat) :
    unlisted (seen ++ [id]) n = unlisted (id :: seen) n := by
  have hmem : ∀ o, o ∈ seen ++ [id] ↔ o ∈ id :: seen := by
    intro o
    rw [List.mem_append, List.mem_singleton, List.mem_cons, or_comm]
  induction n with
  | zero => rfl
  | succ n ih => simp only [unlisted, ih, hmem]

namespace Context

variable {ctx c : Context} {op : Operator}

/-- What an execution without loops schedules is deeper, or is a sibling that
binds an operator with which its trail lists more of the graph. -/
theorem Begets.descends {bound : Nat} (hop : ctx.operator = .ok op) (hc : ctx.Begets op c)
    (hloop : op.kind.isLoop = false) (hbound : ctx.depth ≤ bound) :
    bound + 1 - c.depth < bound + 1 - ctx.depth ∨
      c.depth = ctx.depth ∧ ∀ op', c.operator = .ok op' →
        Graph.unlisted c.trail c.graph.graph.size < Graph.unlisted ctx.trail ctx.graph.graph.size := by
  cases hc with
  | child hcalls n s =>
      left
      show bound + 1 - (ctx.depth + 1) < bound + 1 - ctx.depth
      omega
  | @hop next hnext hnew n =>
      right
      obtain ⟨id, own, s, trail, parent, rfl⟩ := ne_root_of_operator hop
      refine ⟨rfl, fun op' hop' => ?_⟩
      show Graph.unlisted (trail ++ [next]) _ < Graph.unlisted trail _
      rw [Graph.unlisted_append]
      exact Graph.unlisted_cons_lt (Graph.index_lt_of_get? (get?_of_operator rfl hop')) hnew
  | again hkind hown n =>
      rw [hkind] at hloop
      cases hloop

end Context

/-- Every context of a loopless graph settles. The induction is on the levels
that are left below it, and then on the operators of the graph that its trail
does not list. -/
theorem SharedGraph.Loopless.settles {g : SharedGraph} (hg : g.Loopless) (r : DrainSetting)
    {ctx : Context} (hctx : ctx.graph = g) : r.Settles (.atomic ctx) := by
  induction hlevels : r.config.maxContextDepth + 1 - ctx.depth using Nat.strongRecOn
    generalizing ctx with
  | _ levels ihdeep =>
      induction hleft : Graph.unlisted ctx.trail g.graph.size using Nat.strongRecOn
        generalizing ctx with
      | _ left ihtrail =>
          refine DrainSetting.settles_atomic fun pending w next w' hx c hc => ?_
          obtain ⟨-, hdepth, hx⟩ := DrainSetting.execute_eq_ok hx
          obtain ⟨op, hop, hissues⟩ := Context.execute_issues hx
          have hbegets := hissues.begets hc
          have hgraph := hbegets.graph.trans hctx
          have hkind := hg op (ctx.operator_mem hop hctx)
          rcases hbegets.descends hop hkind hdepth with hdeeper | ⟨hsame, hmore⟩
          · exact ihdeep _ (by omega) hgraph rfl
          · cases hop' : c.operator with
            | ok op' =>
                have hlisted := hmore op' hop'
                rw [hgraph, hctx, hleft] at hlisted
                exact ihtrail _ hlisted hgraph (by rw [hsame, hlevels]) rfl
            | error e =>
                -- The successor is not of the graph, and fails when its turn comes.
                refine DrainSetting.settles_atomic fun pending w next w' hx => ?_
                obtain ⟨op', hop'', -⟩ := Context.execute_issues (DrainSetting.execute_eq_ok hx).2.2
                rw [hop'] at hop''
                cases hop''

namespace Engine

variable {e : Engine} {w : World} {g : SharedGraph}

/-- From any state whose pending operations are of a loopless graph, a run ends
after boundedly many efforts. -/
theorem start_ends (hg : g.Loopless) (hpending : Operation.AllRunIn e.continuation g) (w : World) :
    ∃ fuel reply, e.start fuel w = some reply ∧
      ∀ fuel', (e.callEfforts fuel' none w).length ≤ (e.callEfforts fuel none w).length := by
  unfold start run callEfforts
  split
  · have hsettle : ∀ op ∈ e.continuation, e.setting.Settles op :=
      DrainSetting.allSettle_of_contexts _ fun c hc => hg.settles e.setting (hpending c hc)
    have hhalts := DrainSetting.halts_nil.append hsettle
    rw [List.append_nil] at hhalts
    obtain ⟨fuel, d, hd⟩ := hhalts ⟨w, e.executed, false⟩
    refine ⟨fuel, e.afterDrain d, Option.map_eq_some_iff.mpr ⟨d, hd, rfl⟩, fun fuel' => ?_⟩
    -- With more fuel than it takes to end, nothing more is done.
    have hmore := (DrainSetting.drain_mono (Nat.le_max_left fuel fuel') hd).2
    have hturns : e.setting.turns fuel' none e.continuation ⟨w, e.executed, false⟩ <+:
        e.setting.turns fuel none e.continuation ⟨w, e.executed, false⟩ :=
      hmore ▸ DrainSetting.turns_mono (Nat.le_max_right fuel fuel')
    exact (Turn.efforts_prefix hturns).length_le
  · exact ⟨0, _, rfl, fun _ => Nat.le_refl 0⟩

/-- An engine that a loopless graph has been prepared on, whichever its
successors and children, returns from `start` after boundedly many efforts,
whatever its configuration and its scopes, and whatever has been asked of it
meanwhile. -/
theorem start_returns {e₀ : Engine} {s : ScopeId} {w₀ : World} {events : List Event}
    (hg : g.Loopless) (hprep : e₀.prepare g s w₀ = ⟨.ok (), e, w, events⟩) (w' : World) :
    ∃ fuel reply, e.start fuel w' = some reply ∧
      ∀ fuel', (e.callEfforts fuel' none w').length ≤ (e.callEfforts fuel none w').length := by
  obtain ⟨rfl, -⟩ := prepare_ok hprep
  exact start_ends hg (firstOperations_runIn g s w₀.heap) w'

end Engine

namespace Sample

/-- A sequence that runs itself and an operator whose successor it is again. -/
def circleGraph : SharedGraph :=
  ⟨⟨0⟩, ⟨"Circle", .empty, #[⟨"Turn", .empty, some ⟨1⟩, .sequential [⟨1⟩, ⟨0⟩]⟩,
    ⟨"Back", .empty, some ⟨0⟩, .empty⟩], some ⟨0⟩⟩⟩

/-- It is run to an end, on a scope by itself. -/
theorem start_returns_circle :
    ∃ e w events, (Engine.ofConfig .standard ⟨0⟩).prepare circleGraph ⟨0⟩
        { World.empty.newControl.2 with heap := ⟨#[], #[.named "Global"], 0, 1⟩ } =
          ⟨.ok (), e, w, events⟩ ∧ circleGraph.Loopless ∧
      ∃ fuel reply, e.start fuel w = some reply ∧
        ∀ fuel', (e.callEfforts fuel' none w).length ≤ (e.callEfforts fuel none w).length := by
  have hprep : ∃ e w events, (Engine.ofConfig .standard ⟨0⟩).prepare circleGraph ⟨0⟩
      { World.empty.newControl.2 with heap := ⟨#[], #[.named "Global"], 0, 1⟩ } =
        ⟨.ok (), e, w, events⟩ := ⟨_, _, _, rfl⟩
  obtain ⟨e, w, events, hprep⟩ := hprep
  have hloopless : circleGraph.Loopless := by decide
  exact ⟨e, w, events, hprep, hloopless, Engine.start_returns hloopless hprep w⟩

end Sample

end ScopeFlow
