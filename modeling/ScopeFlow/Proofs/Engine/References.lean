import ScopeFlow.Proofs.Engine.Efforts
import ScopeFlow.Proofs.Operator.References

/-!
# No stray operators

A graph of built-in operators passes its check and is prepared on a tree whose
variables hold no operators but the graph's. Then no run leads to any other
operator, in a variable or in a context, and none fails over one: neither
because the graph does not have it, nor because the graph frame binds none
(`Engine.Underway.knows`). It does not matter whether variables share items
with declarations.
-/

namespace ScopeFlow

/-- The variables below a scope hold no operators but the graph's. -/
def Heap.Knows (h : Heap) (g : Graph) (r : ScopeId) : Prop :=
  ∀ t, h.Below r t → ∀ entry ∈ (h.scope t).bindings.entries, (h.value entry.2).Known g

namespace Engine

variable {e : Engine} {g : SharedGraph} {s : ScopeId} {w₀ w : World}

/-- The scopes of a tree and all that are made from now on. -/
def Reaches (h₀ : Heap) (s : ScopeId) (t : ScopeId) : Prop :=
  h₀.Below s t ∨ h₀.scopes.size ≤ t.index

/-- What a graph is prepared with has passed its check, and the engine goes on
holding the scope. -/
theorem Underway.checked (hu : e.Underway g s w₀ w) :
    g.graph.validate w₀.heap = .ok () ∧ e.scope = some s := by
  induction hu with
  | @prepared e₀ e w events hprep =>
      obtain ⟨rfl, -⟩ := prepare_ok hprep
      refine ⟨?_, rfl⟩
      unfold prepare at hprep
      split at hprep
      · cases hprep
      · cases hvalid : g.graph.validate w₀.heap with
        | error failure =>
            rw [hvalid] at hprep
            cases hprep
        | ok _ => rfl
  | @called e w fuel c x _ hcall ih =>
      obtain ⟨hvalid, hscope⟩ := ih
      refine ⟨hvalid, ?_⟩
      obtain ⟨entry, budget, reply, hrun, hengine, -⟩ | ⟨-, hengine | hengine⟩ := call_cases hcall
      · rw [hengine]
        unfold Engine.run at hrun
        split at hrun
        · obtain ⟨d, -, rfl⟩ := Option.map_eq_some_iff.mp hrun
          exact (e.afterDrain_frame d).2.2.1.trans hscope
        · cases hrun
          exact hscope
      · rwa [hengine]
      · rwa [hengine]
  | asked _ _ ih => exact ih

/-- What the heap holds at the start. -/
theorem grounds_start (hvalid : g.graph.validate w₀.heap = .ok ())
    (htree : w₀.heap.Knows g.graph s) :
    Context.Grounds (.root ⟨w₀.heap.contexts⟩ g s) (Reaches w₀.heap s)
      (firstOperations g s w₀.heap).2 := by
  have hstart : Context.Grounds (.root ⟨w₀.heap.contexts⟩ g s) (Reaches w₀.heap s) w₀.heap := by
    refine ⟨fun t ht => .inr ht, fun {t c} ht hc => ?_, fun {t entry} ht he => ?_, fun {i} hi => ?_⟩
    · rcases ht with ht | ht
      · exact .inl (ht.child hc)
      · rw [Heap.scope_of_le ht] at hc
        cases hc
    · rcases ht with ht | ht
      · exact htree t ht entry he
      · rw [Heap.scope_of_le ht] at he
        cases he
    · exact (Graph.closed_of_validate hvalid).2 i hi
  unfold firstOperations
  cases g.graph.initial with
  | none => exact hstart
  | some initial => exact hstart.newContext.newContext

/-- The first operator is known, and is to run on the global scope. -/
theorem first_known (hvalid : g.graph.validate w₀.heap = .ok ()) {c : Context}
    (hc : c ∈ Operation.contextsOfAll (firstOperations g s w₀.heap).1) :
    c.KnownIn (.root ⟨w₀.heap.contexts⟩ g s) (Reaches w₀.heap s) := by
  have hscope : ∀ t ∈ c.scopeChain, t = s := fun t => firstOperations_scopeChain hc
  obtain ⟨initial, hinitial, rfl⟩ := mem_firstOperations hc
  have hhas : g.graph.has initial = true := (Graph.closed_of_validate hvalid).1.initial hinitial
  refine ⟨⟨rfl, nofun, ?_, ?_, ?_⟩, fun t ht => .inl ?_⟩
  · simp [Context.chain, Context.operatorId?, Context.graph, hhas]
  · simp [Context.chain, Context.trail, Context.graph, hhas]
  · simp [Context.chain, Context.operatorId?]
  · obtain rfl := hscope t ht
    exact .self

/-- From a preparation on, in every state between calls and after every
execution, the operators held by variables, bound by pending contexts and by
the frames above them, and on their trails, are the graph's, and only the one
graph frame binds none. No execution fails over an operator, and so no run is
faulted by one. -/
theorem Underway.knows (hg : g.BuiltIn) (hu : e.Underway g s w₀ w)
    (htree : w₀.heap.Knows g.graph s) :
    (∀ r ∈ e.heldScopes, w.heap.Knows g.graph r) ∧
      (∀ c ∈ Operation.contextsOfAll e.continuation, c.Known (.root ⟨w₀.heap.contexts⟩ g s)) ∧
      (∀ failure, e.error = some failure → ¬ failure.Stray) ∧
      ∀ fuel budget, ∀ x ∈ e.callEfforts fuel budget w,
        x.ctx.Known (.root ⟨w₀.heap.contexts⟩ g s) ∧
          (∀ c ∈ Operation.contextsOfAll x.stack, c.Known (.root ⟨w₀.heap.contexts⟩ g s) ∧
            ∀ r ∈ c.scopeChain, x.progress.world.heap.Knows g.graph r) ∧
          x.progress.world.heap.Knows g.graph s ∧
          ∀ rest failure w', e.setting.Fails x rest failure w' → ¬ failure.Stray := by
  obtain ⟨hvalid, hscope⟩ := hu.checked
  let root : Context := .root ⟨w₀.heap.contexts⟩ g s
  let R := Reaches w₀.heap s
  have hroot : root.graph.BuiltIn ∧ root.graph.graph.Closed :=
    ⟨hg, (Graph.closed_of_validate hvalid).1⟩
  -- One execution, also where it is refused.
  have hexec : ∀ {w : World} {ctx : Context} {pending : Nat}, root.Grounds R w.heap →
      ctx.KnownIn root R →
      root.Grounds R (e.setting.execute ctx pending w).2.heap ∧
        (∀ next, (e.setting.execute ctx pending w).1 = .ok next →
          ∀ c ∈ Operation.contextsOfAll next.toList, c.KnownIn root R) ∧
        ∀ failure, (e.setting.execute ctx pending w).1 = .error failure → ¬ failure.Stray := by
    intro w ctx pending hw hctx
    by_cases hbounds : e.setting.config.maxStackDepth < pending + 1 ∨
        e.setting.config.maxContextDepth < ctx.depth
    · obtain ⟨reason, hrefused⟩ := DrainSetting.execute_refused hbounds
      rw [hrefused]
      exact ⟨hw, nofun, fun failure h => by cases h; exact not_false⟩
    · rw [not_or, Nat.not_lt, Nat.not_lt] at hbounds
      rw [DrainSetting.execute_within (Nat.not_lt.mpr hbounds.1) (Nat.not_lt.mpr hbounds.2)]
      exact Context.execute_known hroot.1 hroot.2 hctx hw _
  have hr : e.setting.KeepsUp (root.Grounds R) fun _ c => c.KnownIn root R :=
    fun w ctx pending hw hctx => ⟨⟨(hexec hw hctx).1, fun _ hc => hc⟩, (hexec hw hctx).2.1⟩
  obtain ⟨⟨hgood, hfits⟩, hefforts, herror⟩ := hu.keeps_up hr (grounds_start hvalid htree)
    fun c hc => first_known hvalid (Operation.mem_pool.mp hc)
  have hknows : ∀ {h : Heap} {r : ScopeId}, root.Grounds R h → R r → h.Knows g.graph r :=
    fun hh hr t ht entry he => hh.bound (hh.below hr ht) he
  refine ⟨fun r hr => hknows hgood ?_, fun c hc => (hfits c hc).toKnown, fun failure hfailure => ?_,
    fun fuel budget x hx => ?_⟩
  · rcases List.mem_append.mp hr with hr | hr
    · rw [hscope] at hr
      obtain rfl := List.mem_singleton.mp hr
      exact .inl .self
    · obtain ⟨op, hop, hr⟩ := List.mem_flatMap.mp hr
      obtain ⟨c, hc, hr⟩ := List.mem_flatMap.mp hr
      exact (hfits c (Operation.mem_contextsOfAll.mpr ⟨op, hop, hc⟩)).scopes r hr
  · obtain ⟨x, rest, w', hfails, hx⟩ := herror failure hfailure
    exact (hexec hx.before hx.ctx).2.2 failure (by rw [hfails.execute])
  · have hkept := hefforts fuel budget x hx
    refine ⟨hkept.ctx.toKnown, fun c hc => ?_, hknows hkept.after (.inl .self),
      fun rest failure w' hfails => ?_⟩
    · have hc := hkept.pending c hc
      exact ⟨hc.toKnown, fun r hr => hknows hkept.after (hc.scopes r hr)⟩
    · exact (hexec hkept.before hkept.ctx).2.2 failure (by rw [hfails.execute])

end Engine

namespace Sample

/-- An operator is copied from one variable to another, and is then run as what
a placeholder stands for. -/
def choosingGraph : SharedGraph :=
  ⟨⟨0⟩, ⟨"Choosing", .empty, #[
    ⟨"Choose", ⟨[{ Parameter.lookup "Left" .any with actual := "Chosen" },
      { Parameter.lookup "Right" .any with actual := "Spare" }]⟩, some ⟨1⟩, .assigner⟩,
    ⟨"Run", ⟨[{ operatorParameter "Operator" with actual := "Chosen" }]⟩, none, .placeholder⟩,
    ⟨"Idle", .empty, none, .empty⟩], some ⟨0⟩⟩⟩

/-- A scope with a variable that holds an operator, and a control. -/
def sparing : World :=
  { World.empty.newControl.2 with
    heap := ⟨#[.operator ⟨2⟩], #[⟨"Global", ⟨[("Spare", ⟨0⟩)]⟩, [], none⟩], 0, 1⟩ }

/-- Two steps: the operator is held by a second variable and is about to run,
and all that can be reached from there is of the graph. -/
theorem underway_knows_choosing :
    ∃ e w, Engine.Underway choosingGraph ⟨0⟩ sparing e w ∧
      (w.heap.binding? ⟨0⟩ "Chosen").map w.heap.value = some (.operator ⟨2⟩) ∧
      (Operation.contextsOfAll e.continuation).map Context.trail = [[⟨2⟩]] ∧
      (∀ r ∈ e.heldScopes, w.heap.Knows choosingGraph.graph r) ∧
      (∀ c ∈ Operation.contextsOfAll e.continuation, c.Known (.root ⟨0⟩ choosingGraph ⟨0⟩)) ∧
      ∀ failure, e.error = some failure → ¬ failure.Stray := by
  have hrun : ∃ e w events x y, (Engine.ofConfig .standard ⟨0⟩).prepare choosingGraph ⟨0⟩ sparing =
      ⟨.ok (), e, w, events⟩ ∧ e.call 2 w .step = some x ∧ x.engine.call 2 x.world .step = some y ∧
        (y.world.heap.binding? ⟨0⟩ "Chosen").map y.world.heap.value = some (.operator ⟨2⟩) ∧
        (Operation.contextsOfAll y.engine.continuation).map Context.trail = [[⟨2⟩]] :=
    ⟨_, _, _, _, _, rfl, rfl, rfl, rfl, rfl⟩
  obtain ⟨e, w, events, x, y, hprep, hfirst, hsecond, hchosen, hpending⟩ := hrun
  have hu : y.engine.Underway choosingGraph ⟨0⟩ sparing y.world :=
    .called (.called (.prepared hprep) hfirst) hsecond
  have htree : sparing.heap.Knows choosingGraph.graph ⟨0⟩ := by
    intro t ht
    have hlone : t = ⟨0⟩ := by
      induction ht with
      | self => rfl
      | child _ hc ih =>
          rw [ih] at hc
          cases hc
    rw [hlone]
    intro entry he
    obtain rfl := List.mem_singleton.mp he
    intro id hid
    obtain rfl := Option.some.inj hid
    rfl
  obtain ⟨hscopes, hcontexts, herror, -⟩ := hu.knows (by decide) htree
  exact ⟨y.engine, y.world, hu, hchosen, hpending, hscopes, hcontexts, herror⟩

end Sample

end ScopeFlow
