import ScopeFlow.Proofs.Engine.Frames
import ScopeFlow.Proofs.Engine.References

/-!
# Hops and loops among siblings

The contexts under one parent come from its own execution, which makes them as
children, and from one another: each execution beside them hops to a successor,
which makes the trail longer, or is that of a loop that runs again, which makes
it start afresh. A trail lists each operator of the graph at most once. So hops
have to be paid for:

* `Effort.Hops`, `Effort.Repeats` and `Effort.Restarts` are what an effort does
  beside its context, read off the contexts that it makes;
* `DrainSetting.Works.weighs` keeps the books on a weight of trails;
* `Works.hops_le` counts hops against children and restarts, and
  `Works.restarts_le` the restarts of one loop against those of the others.

All children of a context are made at once (`Works.births_once`).
-/

namespace ScopeFlow

/-- There are no more unlisted operators than operators. -/
theorem Graph.unlisted_le (seen : List OperatorId) (n : Nat) : unlisted seen n ≤ n := by
  induction n with
  | zero => exact Nat.le_refl 0
  | succ n ih =>
      rw [unlisted]
      split <;> omega

namespace Context

/-- Is the second context a successor that the first hops to? -/
def HopTo (ctx c : Context) : Prop := ∃ next id, c = ctx.sibling next (ctx.trail ++ [next]) id

/-- Is the second context the first again, on a trail of its own? -/
def AgainTo (ctx c : Context) : Prop :=
  ∃ own id, ctx.operatorId? = some own ∧ c = ctx.sibling own [own] id

/-- A context of a run has its place in the graph and its number. -/
structure Regular (root : Context) (bound : Nat) (h : Heap) (c : Context) : Prop where
  formed : c.Formed root bound
  known : c.Known root
  numbered : c.id.index < h.contexts

variable {ctx c root : Context} {op : Operator} {n n' m bound : Nat} {cs : List Context}
  {places : List (OperatorId × ScopeId)}

theorem Formed.own (h : c.Formed root bound) : c.operatorId? ≠ none := by
  rw [← h.trail_last, Ne, List.getLast?_eq_none_iff]
  exact h.trail_ne

/-- A trail ends with the bound operator, and does not start with it as well. -/
theorem Formed.head?_ne {own : OperatorId} (h : c.Formed root bound)
    (hown : c.operatorId? = some own) (hlong : c.trail ≠ [own]) : c.trail.head? ≠ some own := by
  intro hhead
  obtain ⟨later, htrail⟩ := List.head?_eq_some_iff.mp hhead
  have hlast : (own :: later).getLast? = some own := by rw [← htrail, h.trail_last, hown]
  have hnodup : (own :: later).Nodup := htrail ▸ h.trail_nodup
  cases later with
  | nil => exact hlong htrail
  | cons o later =>
      rw [List.getLast?_cons_cons] at hlast
      exact (List.nodup_cons.mp hnodup).1 (List.mem_of_getLast? hlast)

theorem HopTo.parent? (h : ctx.HopTo c) : c.parent? = ctx.parent? := by
  obtain ⟨next, id, hc⟩ := h
  rw [hc, sibling_parent?]

theorem AgainTo.parent? (h : ctx.AgainTo c) : c.parent? = ctx.parent? := by
  obtain ⟨own, id, -, hc⟩ := h
  rw [hc, sibling_parent?]

/-- A hop is longer than a fresh trail. -/
theorem HopTo.not_againTo (h : ctx.HopTo c) (hown : ctx.operatorId? ≠ none)
    (htrail : ctx.trail ≠ []) : ¬ ctx.AgainTo c := by
  rintro ⟨own, id', -, hagain⟩
  obtain ⟨next, id, hhop⟩ := h
  have hlong : c.trail = ctx.trail ++ [next] := by rw [hhop, sibling_trail hown]
  have hfresh : c.trail = [own] := by rw [hagain, sibling_trail hown]
  have hlength := congrArg List.length (hlong.symm.trans hfresh)
  rw [List.length_append, List.length_singleton, List.length_singleton] at hlength
  exact htrail (List.length_eq_zero_iff.mp (by omega))

theorem parent?_childrenFrom (hc : c ∈ ctx.childrenFrom m places) : c.parent? = some ctx := by
  obtain ⟨k, id, s, -, -, -, rfl⟩ := mem_childrenFrom hc
  rfl

/-- No context is its own parent. -/
theorem parent?_ne_self : ctx.parent? ≠ some ctx := by
  cases ctx with
  | root id g s => exact nofun
  | frame id own s trail parent =>
      intro h
      have hdepth : parent.depth = parent.depth + 1 := congrArg depth (Option.some.inj h)
      omega

theorem Onward.ids (hop : ctx.operator = .ok op) (h : ctx.Onward op n cs) :
    cs.map (fun c => c.id.index) = List.range' n cs.length := by
  obtain ⟨id, own, s, trail, parent, rfl⟩ := ne_root_of_operator hop
  cases h <;> rfl

/-- What an execution schedules has numbers of its own. -/
theorem Issues.numbers (hop : ctx.operator = .ok op) (hi : ctx.Issues op n n' cs) :
    (cs.map fun c => c.id.index).Nodup ∧ ∀ c ∈ cs, n ≤ c.id.index ∧ c.id.index < n' := by
  obtain @⟨m, m', places, onward, hm, hm', hn', -, honward⟩ := hi
  have hids : (ctx.childrenFrom m places ++ onward).map (fun c => c.id.index) =
      List.range' m places.length ++ List.range' m' onward.length := by
    rw [List.map_append, ids_childrenFrom, honward.ids hop]
  rw [hids]
  refine ⟨List.nodup_append.mpr ⟨List.nodup_range', List.nodup_range', fun a ha b hb => ?_⟩,
    fun c hc => ?_⟩
  · have hlt := (List.mem_range'_1.mp ha).2
    have hle := (List.mem_range'_1.mp hb).1
    omega
  · have hmem := List.mem_map_of_mem (f := fun c : Context => c.id.index) hc
    rw [hids, List.mem_append, List.mem_range'_1, List.mem_range'_1] at hmem
    omega

/-- Children come first, and then what the context goes on to. -/
theorem Issues.parts (hi : ctx.Issues op n n' cs) : ∃ children onward m,
    cs = children ++ onward ∧ (∀ c ∈ children, c.parent? = some ctx) ∧ ctx.Onward op m onward := by
  obtain ⟨-, -, -, -, honward⟩ := hi
  exact ⟨_, _, _, rfl, fun c hc => parent?_childrenFrom hc, honward⟩

/-- A number is given once: either it is still to be given, or it is that of at
most one of the contexts scheduled. -/
theorem Issues.once (hop : ctx.operator = .ok op) (hi : ctx.Issues op n n' cs) (id : ContextId) :
    cs.countP (fun c => c.id = id) + (if n' ≤ id.index then 1 else 0) ≤
      if n ≤ id.index then 1 else 0 := by
  obtain ⟨hnodup, hnumbers⟩ := hi.numbers hop
  have hle : cs.countP (fun c => c.id = id) ≤ 1 := by
    have hcount := List.nodup_iff_count_le_one.mp hnodup id.index
    rw [List.count, List.countP_map] at hcount
    refine (List.countP_mono_left fun c _ hc => ?_).trans hcount
    simp_all
  by_cases hnone : ∀ c ∈ cs, c.id ≠ id
  · have hzero : cs.countP (fun c => c.id = id) = 0 := by simpa [List.countP_eq_zero] using hnone
    have hmono : n ≤ n' := by
      obtain @⟨m, m', places, onward, hm, hm', hn', -, -⟩ := hi
      omega
    split <;> split <;> omega
  · push Not at hnone
    obtain ⟨c, hc, rfl⟩ := hnone
    have hnumber := hnumbers c hc
    rw [if_neg (by omega), if_pos hnumber.1]
    omega

end Context

namespace Effort

/-- The contexts that an effort makes: those on its stack with numbers that
were free before. -/
def made (x : Effort) : List Context :=
  (Operation.contextsOfAll x.stack).filter fun c => x.before.world.heap.contexts ≤ c.id.index

theorem mem_made {x : Effort} {c : Context} (hc : c ∈ Operation.contextsOfAll x.stack)
    (hnew : x.before.world.heap.contexts ≤ c.id.index) : c ∈ x.made :=
  List.mem_filter.mpr ⟨hc, decide_eq_true hnew⟩

/-- The effort hops to a successor, which is to run in this context. -/
def HopsTo (x : Effort) (c : Context) : Prop := c ∈ x.made ∧ x.ctx.HopTo c

/-- The effort is that of a loop, which is to run again in this context. -/
def RepeatsIn (x : Effort) (c : Context) : Prop := c ∈ x.made ∧ x.ctx.AgainTo c

/-- The effort hops to a successor. -/
def Hops (x : Effort) : Prop := ∃ c, x.HopsTo c

/-- The effort is that of a loop, which is to run again. -/
def Repeats (x : Effort) : Prop := ∃ c, x.RepeatsIn c

/-- The loop that is to run again has been hopped to: its trail starts
afresh. -/
def Restarts (x : Effort) (a : OperatorId) : Prop :=
  x.ctx.operatorId? = some a ∧ x.ctx.trail ≠ [a] ∧ x.Repeats

/-- The operator of the effort has done its work, and its successor is next. -/
def ComesTo (x : Effort) (control : ControlId) (next : OperatorId) : Prop :=
  ∃ op ops w, x.ctx.operator = .ok op ∧ op.successor = some next ∧
    op.undertake ⟨x.before.world.token control, some control⟩ x.ctx x.before.world =
      (.ok (.before ops), w)

/-- How an effort goes on beside its context, under a graph frame. -/
inductive GoesOn (x : Effort) (root : Context) : List Context → Prop
  | last (hhops : ¬ x.Hops) (hrepeats : ¬ x.Repeats) : x.GoesOn root []
  | hop {next : OperatorId} (hnew : next ∉ x.ctx.trail)
      (hhas : root.graph.graph.has next = true) (hrepeats : ¬ x.Repeats) (id : ContextId) :
      x.GoesOn root [x.ctx.sibling next (x.ctx.trail ++ [next]) id]
  | again {own : OperatorId} {op : Operator} (hown : x.ctx.operatorId? = some own)
      (hget : root.graph.graph.get? own = some op) (hloop : op.kind.isLoop = true)
      (hhops : ¬ x.Hops) (hrepeats : x.Repeats) (id : ContextId) :
      x.GoesOn root [x.ctx.sibling own [own] id]

/-- It goes on to nothing or to one context under the same parent. -/
theorem GoesOn.shape {x : Effort} {root : Context} {onward : List Context}
    (h : x.GoesOn root onward) :
    onward = [] ∧ ¬ (x.Hops ∨ x.Repeats) ∨ ∃ c, onward = [c] ∧ c.parent? = x.ctx.parent? := by
  cases h with
  | last hhops hrepeats => exact .inl ⟨rfl, not_or.mpr ⟨hhops, hrepeats⟩⟩
  | hop hnew hhas hrepeats id => exact .inr ⟨_, rfl, Context.sibling_parent? ..⟩
  | again hown hget hloop hhops hrepeats id => exact .inr ⟨_, rfl, Context.sibling_parent? ..⟩

/-- The operators that a chain of hops has executed are listed at the end of
the trail that it has led to. -/
theorem chain_suffix {xs : List Effort} {x : Effort} {root : Context} {bound : Nat}
    (hchain : xs.IsChain fun x y => x.HopsTo y.ctx) (hlast : xs.getLast? = some x)
    (hformed : ∀ y ∈ xs, y.ctx.Formed root bound) :
    xs.map (fun y => y.ctx.operatorId?) <:+ x.ctx.trail.map some := by
  induction xs using List.reverseRecOn generalizing x with
  | nil => cases hlast
  | append_singleton ys y ih =>
      rw [List.getLast?_concat] at hlast
      obtain rfl := Option.some.inj hlast
      obtain ⟨hchain, -, hlink⟩ := List.isChain_append.mp hchain
      rw [List.map_append, List.map_singleton]
      cases hbefore : ys.getLast? with
      | none =>
          rw [List.getLast?_eq_none_iff.mp hbefore]
          have hy := hformed y (List.mem_append_right _ (List.mem_singleton_self y))
          obtain ⟨own, hown⟩ := Option.ne_none_iff_exists'.mp hy.own
          obtain ⟨before, htrail⟩ := List.getLast?_eq_some_iff.mp (hy.trail_last.trans hown)
          rw [htrail, List.map_append, hown]
          exact List.suffix_append ..
      | some z =>
          obtain ⟨-, next, id, hhop⟩ := hlink z hbefore y rfl
          have hz := hformed z (List.mem_append_left _ (List.mem_of_getLast? hbefore))
          obtain ⟨earlier, hearlier⟩ :=
            ih hchain hbefore fun y hy => hformed y (List.mem_append_left _ hy)
          rw [hhop, Context.sibling_trail hz.own, Context.sibling_operatorId? hz.own,
            List.map_append, ← hearlier, List.append_assoc]
          exact List.suffix_append ..

end Effort

namespace DrainSetting

open Operation (pool)

variable {r : DrainSetting} {root P : Context} {M M' : Multiset Context} {p p' : Progress}
  {xs : List Effort} {x : Effort} {rest : List Operation} {next : Option Operation} {w : World}
  {e : Failure}

/-- No execution takes back a number. -/
theorem execute_contexts_le (r : DrainSetting) (ctx : Context) (pending : Nat) (w : World) :
    w.heap.contexts ≤ (r.execute ctx pending w).2.heap.contexts := by
  rcases r.execute_cases ctx pending with ⟨failure, -, hfails⟩ | hexecutes
  · rw [hfails]
  · rw [hexecutes]
    exact Context.contexts_le (ctx.execute_along _ w)

/-- The pool of a run in a closed graph stays one of regular contexts. -/
theorem keepsUp_regular (hclosed : root.graph.graph.Closed) :
    r.KeepsUp (fun _ => True) (Context.Regular root r.config.maxContextDepth) := by
  intro w ctx pending _ hctx
  have hle := r.execute_contexts_le ctx pending w
  refine ⟨⟨trivial, fun c hc => ⟨hc.formed, hc.known, hc.numbered.trans_le hle⟩⟩,
    fun next hnext c hc => ?_⟩
  obtain ⟨-, hdepth, hx⟩ := execute_eq_ok (Prod.ext hnext rfl)
  obtain ⟨op, hop, hissues⟩ := Context.execute_issues hx
  have hbegets := hissues.begets hc
  exact ⟨hbegets.formed hctx.formed hop hdepth, hbegets.known hclosed hctx.known hop,
    ((hissues.numbers hop).2 c hc).2⟩

/-- A pool of regular contexts. -/
abbrev Stocked (r : DrainSetting) (root : Context) (h : Heap) (M : Multiset Context) : Prop :=
  InOrder (fun _ => True) (Context.Regular root r.config.maxContextDepth) h M

/-- What is left on a stack of the pool is not made by the effort. -/
theorem not_made (hrest : pool rest ≤ M) (hM : r.Stocked root x.before.world.heap (x.ctx ::ₘ M))
    {c : Context} (hc : c ∈ Operation.contextsOfAll rest) :
    ¬ x.before.world.heap.contexts ≤ c.id.index := by
  have hmem : c ∈ x.ctx ::ₘ M :=
    Multiset.mem_cons_of_mem (Multiset.mem_of_le hrest (Operation.mem_pool.mpr hc))
  exact Nat.not_le.mpr (hM.fits c hmem).numbered

/-- A failing effort makes nothing. -/
theorem Fails.made (hx : r.Fails x rest e w) (hrest : pool rest ≤ M)
    (hM : r.Stocked root x.before.world.heap (x.ctx ::ₘ M)) : x.made = [] := by
  unfold Effort.made
  rw [hx.turn, List.filter_eq_nil_iff]
  intro c hc
  rw [decide_eq_true_eq]
  rcases List.mem_cons.mp hc with hc | hc
  · rw [hc]
    exact Nat.not_le.mpr (hM.fits _ (Multiset.mem_cons_self _ M)).numbered
  · exact not_made hrest hM hc

/-- What an effort answers, it makes: children, and what it goes on to. -/
theorem Answers.goesOn (hclosed : root.graph.graph.Closed) (hx : r.Answers x rest next w)
    (hrest : pool rest ≤ M) (hM : r.Stocked root x.before.world.heap (x.ctx ::ₘ M)) :
    x.made = Operation.contextsOfAll next.toList ∧ ∃ op children onward,
      x.ctx.operator = .ok op ∧
      x.ctx.Issues op x.before.world.heap.contexts w.heap.contexts x.made ∧
      x.made = children ++ onward ∧ (∀ c ∈ children, c.parent? = some x.ctx) ∧
      x.GoesOn root onward := by
  have hctx := hM.fits _ (Multiset.mem_cons_self x.ctx M)
  obtain ⟨-, -, hexec⟩ := execute_eq_ok hx.execute
  obtain ⟨op, hop, hissues⟩ := Context.execute_issues hexec
  have hmade : x.made = Operation.contextsOfAll next.toList := by
    unfold Effort.made
    rw [hx.turn, Operation.contextsOfAll_append, List.filter_append,
      List.filter_eq_self.mpr fun c hc => decide_eq_true ((hissues.numbers hop).2 c hc).1,
      List.filter_eq_nil_iff.mpr fun c hc => by simpa using not_made hrest hM hc,
      List.append_nil]
  rw [← hmade] at hissues
  refine ⟨hmade, op, ?_⟩
  obtain ⟨children, onward, n, hlist, hchildren, honward⟩ := hissues.parts
  refine ⟨children, onward, hop, hissues, hlist, hchildren, ?_⟩
  -- Only what it goes on to can be under the same parent.
  have hbeside : ∀ c ∈ x.made, c.parent? = x.ctx.parent? → c ∈ onward := by
    intro c hc hparent
    rw [hlist] at hc
    refine (List.mem_append.mp hc).resolve_left fun hchild => ?_
    exact Context.parent?_ne_self (hparent.symm.trans (hchildren c hchild))
  have hhops : ∀ {c}, c ∈ x.made → x.ctx.HopTo c → c ∈ onward :=
    fun hc h => hbeside _ hc h.parent?
  have hrepeats : ∀ {c}, c ∈ x.made → x.ctx.AgainTo c → c ∈ onward :=
    fun hc h => hbeside _ hc h.parent?
  cases honward with
  | last hlast =>
      refine .last ?_ ?_
      · rintro ⟨c, hc, h⟩
        cases hhops hc h
      · rintro ⟨c, hc, h⟩
        cases hrepeats hc h
  | @hop next hnext hnew =>
      have hmem := x.ctx.operator_mem hop hctx.known.graph
      refine .hop hnew (hclosed.successor hmem hnext) ?_ _
      rintro ⟨c, hc, h⟩
      obtain rfl := List.mem_singleton.mp (hrepeats hc h)
      exact Context.HopTo.not_againTo ⟨next, _, rfl⟩ hctx.known.own hctx.formed.trail_ne h
  | @again body terminator own hloop hown =>
      have hagain : x.ctx.AgainTo (x.ctx.sibling own [own] ⟨n⟩) := ⟨own, _, hown, rfl⟩
      have hget := Context.get?_of_operator hown hop
      rw [hctx.known.graph] at hget
      refine .again hown hget (by rw [hloop]; rfl) ?_ ⟨_, ?_, hagain⟩ _
      · rintro ⟨c, hc, h⟩
        obtain rfl := List.mem_singleton.mp (hhops hc h)
        exact h.not_againTo hctx.known.own hctx.formed.trail_ne hagain
      · rw [hlist]
        exact List.mem_append_right _ (List.mem_singleton_self _)

/-- What every effort of a run makes. -/
theorem Works.goesOn (hclosed : root.graph.graph.Closed) (h : r.Works M p xs M' p')
    (hM : r.Stocked root p.world.heap M) (hx : x ∈ xs) :
    Context.Regular root r.config.maxContextDepth x.before.world.heap x.ctx ∧ ∃ children onward,
      x.made = children ++ onward ∧ (∀ c ∈ children, c.parent? = some x.ctx) ∧
      x.GoesOn root onward := by
  obtain ⟨N, rest, hrest, hN, hexec⟩ := h.stands (keepsUp_regular hclosed) hM hx
  refine ⟨hN.fits _ (Multiset.mem_cons_self _ N), ?_⟩
  rcases hexec with ⟨next, w, hexec⟩ | ⟨e, w, hexec⟩
  · obtain ⟨-, op, children, onward, -, -, hlist, hchildren, hgoes⟩ := hexec.goesOn hclosed hrest hN
    exact ⟨children, onward, hlist, hchildren, hgoes⟩
  · have hnone := hexec.made hrest hN
    refine ⟨[], [], hnone, nofun, .last ?_ ?_⟩
    · rintro ⟨c, hc, -⟩
      simp [hnone] at hc
    · rintro ⟨c, hc, -⟩
      simp [hnone] at hc

/-- Where the successor is on the trail, the execution fails. -/
theorem execute_revisits (hclosed : root.graph.graph.Closed)
    (hctx : x.ctx.Known root) {again : OperatorId} (hcomes : x.ComesTo r.control again)
    (hseen : again ∈ x.ctx.trail) (pending : Nat) :
    ∃ name reason w,
      r.execute x.ctx pending x.before.world = (.error (.graphCycle name reason), w) := by
  by_cases hbounds : r.config.maxStackDepth < pending + 1 ∨ r.config.maxContextDepth < x.ctx.depth
  · obtain ⟨reason, hrefused⟩ := execute_refused hbounds
    exact ⟨_, reason, _, hrefused x.before.world⟩
  · rw [not_or, Nat.not_lt, Nat.not_lt] at hbounds
    obtain ⟨op, ops, w, hop, hnext, htask⟩ := hcomes
    -- The operator that is revisited is one of the graph, and is named.
    have hmem := x.ctx.operator_mem hop hctx.graph
    obtain ⟨revisited, hget⟩ := Option.isSome_iff_exists.mp (hclosed.successor hmem hnext)
    have hgo : x.ctx.goOn (.before ops) w.heap =
        (.error (.graphCycle revisited.name "successor chain revisits this operator"), w.heap) := by
      rw [Context.goOn, Context.thenSuccessor, Act.bind_apply,
        Context.successor_revisit hop hnext hseen, hctx.graph, Graph.get, hget]
      rfl
    refine ⟨revisited.name, "successor chain revisits this operator", w, ?_⟩
    rw [execute_within (Nat.not_lt.mpr hbounds.1) (Nat.not_lt.mpr hbounds.2), Context.execute,
      Act.bind_apply, Act.ofExcept_apply, hop]
    dsimp only
    rw [op.execute_eq, Act.bind_apply, htask]
    dsimp only
    rw [World.onHeap_apply, hgo]

/-- A chain of hops executes no operator twice: where one comes to a successor
that has been executed in it, it fails. -/
theorem Works.revisit_fails (hclosed : root.graph.graph.Closed) (h : r.Works M p xs M' p')
    (hM : r.Stocked root p.world.heap M) {chain : List Effort} (hmem : ∀ y ∈ chain, y ∈ xs)
    (hchain : chain.IsChain fun y z => y.HopsTo z.ctx) (hlast : chain.getLast? = some x) :
    (chain.map fun y => y.ctx.operatorId?).Nodup ∧
      ∀ again, some again ∈ chain.map (fun y => y.ctx.operatorId?) → x.ComesTo r.control again →
        ∃ rest name reason w, r.Fails x rest (.graphCycle name reason) w := by
  have hregular : ∀ y ∈ chain, Context.Regular root r.config.maxContextDepth
      y.before.world.heap y.ctx := fun y hy => (h.goesOn hclosed hM (hmem y hy)).1
  have hx := List.mem_of_getLast? hlast
  have hlisted := Effort.chain_suffix hchain hlast fun y hy => (hregular y hy).formed
  refine ⟨?_, fun again hseen hcomes => ?_⟩
  · have hnodup := (hregular x hx).formed.trail_nodup.map (Option.some_injective _)
    exact hnodup.sublist hlisted.sublist
  · obtain ⟨seen, hseen, hsame⟩ := List.mem_map.mp (hlisted.subset hseen)
    rw [Option.some.inj hsame] at hseen
    obtain ⟨N, rest, -, -, hexec⟩ := h.stands (keepsUp_regular hclosed) hM (hmem x hx)
    obtain ⟨name, reason, w, hfails⟩ :=
      execute_revisits hclosed (hregular x hx).known hcomes hseen rest.length
    rcases hexec with ⟨next, w', hexec⟩ | ⟨e, w', hexec⟩
    · have hboth := hexec.execute.symm.trans hfails
      cases hboth
    · have hboth := hexec.execute.symm.trans hfails
      cases hboth
      exact ⟨rest, name, reason, w, hexec⟩

/-! ## Births -/

/-- How often a context is pending, or may still be. -/
def turnsOf (P : Context) (h : Heap) (M : Multiset Context) : Nat :=
  M.countP (fun c => c.id = P.id) + if h.contexts ≤ P.id.index then 1 else 0

theorem turnsOf_le_one {h : Heap} (hM : r.Stocked root h M) (hlone : M.card ≤ 1) (P : Context) :
    turnsOf P h M ≤ 1 := by
  unfold turnsOf
  by_cases hpending : ∃ c ∈ M, c.id = P.id
  · obtain ⟨c, hc, hid⟩ := hpending
    have hgiven := (hM.fits c hc).numbered
    rw [hid] at hgiven
    rw [if_neg (by omega)]
    exact (Multiset.countP_le_card _ M).trans hlone
  · push Not at hpending
    rw [Multiset.countP_eq_zero.mpr hpending]
    split <;> omega

/-- All children of a context are made by one effort. -/
theorem Works.births_once (hclosed : root.graph.graph.Closed) (h : r.Works M p xs M' p')
    (hM : r.Stocked root p.world.heap M) (P : Context) :
    Effort.count (fun x => x.ctx.id = P.id ∧ x.made ≠ []) xs ≤ turnsOf P p.world.heap M := by
  have haccount := Works.accounts (turnsOf P) (fun x => x.ctx.id = P.id ∧ x.made ≠ [])
    (fun _ => 0) (keepsUp_regular hclosed) ?_ ?_ ?_ h hM
  · simp only [List.map_const', List.sum_replicate_nat, Nat.mul_zero, Nat.add_zero] at haccount
    exact (Nat.le_add_right _ _).trans haccount
  · intro x rest next w M hx hrest hM
    obtain ⟨hmade, op, children, onward, hop, hissues, -⟩ := hx.goesOn hclosed hrest hM
    have honce := hissues.once hop P.id
    rw [turnsOf, turnsOf, Multiset.countP_add, Multiset.countP_cons, pool, ← hmade,
      Multiset.coe_countP]
    by_cases hself : x.ctx.id = P.id
    · -- Its number has been given, so none of what it makes has it.
      have hgiven := (hM.fits _ (Multiset.mem_cons_self _ M)).numbered
      rw [hself] at hgiven
      rw [if_neg (show ¬ x.before.world.heap.contexts ≤ P.id.index by omega)] at honce ⊢
      rw [if_pos hself]
      split <;> omega
    · rw [if_neg fun h => hself h.1, if_neg hself]
      omega
  · intro x rest e w M hx hrest hM
    rw [hx.made hrest hM, if_neg fun h => h.2 rfl]
    have hle := r.execute_contexts_le x.ctx rest.length x.before.world
    rw [hx.execute] at hle
    dsimp only at hle
    unfold turnsOf
    split <;> split <;> omega
  · intro h M M' hle
    exact Nat.add_le_add_right (Multiset.countP_le_of_le _ hle) _

/-! ## Weights of trails -/

open scoped Classical in
/-- How many children an effort makes for a parent. -/
noncomputable def births (P : Context) (x : Effort) : Nat := if x.ctx = P then x.made.length else 0

open scoped Classical in
/-- What the trail of a context weighs under a parent. -/
noncomputable def weight (P : Context) (φ : List OperatorId → Nat) (c : Context) : Nat :=
  if c.parent? = some P then φ c.trail else 0

theorem births_le (P : Context) (x : Effort) : births P x ≤ x.made.length := by
  unfold births
  split
  · exact Nat.le_refl _
  · exact Nat.zero_le _

theorem births_of_idle (hidle : ¬ (x.ctx.id = P.id ∧ x.made ≠ [])) : births P x = 0 := by
  unfold births
  split
  · next hself =>
    rw [not_and, not_not] at hidle
    rw [hidle (congrArg Context.id hself), List.length_nil]
  · rfl

theorem sum_births_of_idle (hidle : ∀ x ∈ xs, ¬ (x.ctx.id = P.id ∧ x.made ≠ [])) :
    (xs.map (births P)).sum = 0 := by
  rw [List.sum_eq_zero]
  intro n hn
  obtain ⟨x, hx, rfl⟩ := List.mem_map.mp hn
  exact births_of_idle (hidle x hx)

/-- Where one effort at most makes children for a parent, it makes them all. -/
theorem sum_births_le (hone : Effort.count (fun x => x.ctx.id = P.id ∧ x.made ≠ []) xs ≤ 1)
    (hx : x ∈ xs) (hmakes : x.ctx.id = P.id ∧ x.made ≠ []) :
    (xs.map (births P)).sum ≤ x.made.length := by
  obtain ⟨ys, zs, rfl⟩ := List.append_of_mem hx
  rw [Effort.count_append, Effort.count_cons, if_pos hmakes] at hone
  have hys : (ys.map (births P)).sum = 0 :=
    sum_births_of_idle (Effort.forall_not_of_count (by omega))
  have hzs : (zs.map (births P)).sum = 0 :=
    sum_births_of_idle (Effort.forall_not_of_count (by omega))
  rw [List.map_append, List.map_cons, List.sum_append, List.sum_cons, hys, hzs]
  have hle := births_le P x
  omega

section Weights

variable {φ : List OperatorId → Nat} {K : Nat}

theorem weight_le (hK : ∀ t, φ t ≤ K) (c : Context) : weight P φ c ≤ K := by
  unfold weight
  split
  · exact hK c.trail
  · exact Nat.zero_le K

theorem sum_weight_le (hK : ∀ t, φ t ≤ K) (cs : List Context) :
    (cs.map (weight P φ)).sum ≤ K * cs.length := by
  induction cs with
  | nil => exact Nat.zero_le _
  | cons c cs ih =>
      have hle := weight_le (P := P) hK c
      rw [List.map_cons, List.sum_cons, List.length_cons, Nat.mul_succ]
      omega

/-- Children weigh something under the context that is executed only. -/
theorem weight_children {children : List Context} (hK : ∀ t, φ t ≤ K)
    (hchildren : ∀ c ∈ children, c.parent? = some x.ctx)
    (hlength : children.length ≤ x.made.length) :
    (children.map (weight P φ)).sum ≤ K * births P x := by
  unfold births
  split
  · exact (sum_weight_le hK children).trans (Nat.mul_le_mul_left K hlength)
  · next hother =>
    have hzero : ∀ n ∈ children.map (weight P φ), n = 0 := by
      intro n hn
      obtain ⟨c, hc, rfl⟩ := List.mem_map.mp hn
      unfold weight
      rw [hchildren c hc, if_neg fun h => hother (Option.some.inj h)]
    rw [List.sum_eq_zero hzero]
    exact Nat.zero_le _

open scoped Classical in
theorem sum_gains (special : Effort → Prop) (xs : List Effort) :
    (xs.map fun x => K * births P x + if special x then K else 0).sum =
      K * ((xs.map (births P)).sum + Effort.count special xs) := by
  induction xs with
  | nil => simp
  | cons x xs ih =>
      rw [List.map_cons, List.sum_cons, ih, List.map_cons, List.sum_cons, Effort.count_cons]
      simp only [Nat.mul_add]
      split <;> omega

open scoped Classical in
/-- The books on a weight of the trails under a parent: what is spent beside a
context lightens its trail, unless the effort is special. -/
theorem Works.weighs (φ : List OperatorId → Nat) (K : Nat) (spent special : Effort → Prop)
    (hclosed : root.graph.graph.Closed) (h : r.Works M p xs M' p')
    (hM : r.Stocked root p.world.heap M) (hK : ∀ t, φ t ≤ K)
    (hspent : ∀ {x}, spent x → x.ctx.parent? = some P ∧ (x.Hops ∨ x.Repeats))
    (hstep : ∀ {x c}, x.ctx.Formed root r.config.maxContextDepth → x.GoesOn root [c] →
      x.ctx.parent? = some P →
        (if spent x then 1 else 0) + φ c.trail ≤ φ x.ctx.trail + if special x then K else 0) :
    Effort.count spent xs ≤ (M.map (weight P φ)).sum +
      K * ((xs.map (births P)).sum + Effort.count special xs) := by
  have haccount := Works.accounts (fun _ M => (M.map (weight P φ)).sum) spent
    (fun x => K * births P x + if special x then K else 0) (keepsUp_regular hclosed) ?_ ?_ ?_ h hM
  · rw [sum_gains] at haccount
    exact (Nat.le_add_right _ _).trans haccount
  · intro x rest next w M hx hrest hM
    obtain ⟨hmade, op, children, onward, hop, -, hlist, hchildren, hgoes⟩ :=
      hx.goesOn hclosed hrest hM
    have hborn := weight_children (P := P) hK hchildren (by rw [hlist, List.length_append]; omega)
    have hctx := (hM.fits _ (Multiset.mem_cons_self _ M)).formed
    rw [Multiset.map_add, Multiset.sum_add, Multiset.map_cons, Multiset.sum_cons, pool, ← hmade,
      hlist, Multiset.map_coe, Multiset.sum_coe, List.map_append, List.sum_append]
    have hbeside : (if spent x then 1 else 0) + (onward.map (weight P φ)).sum ≤
        weight P φ x.ctx + if special x then K else 0 := by
      rcases hgoes.shape with ⟨rfl, hidle⟩ | ⟨c, rfl, hparent⟩
      · rw [if_neg fun h => hidle (hspent h).2]
        exact Nat.zero_le _
      · rw [List.map_singleton, List.sum_singleton, weight, weight, hparent]
        by_cases hP : x.ctx.parent? = some P
        · rw [if_pos hP, if_pos hP]
          exact hstep hctx hgoes hP
        · rw [if_neg hP, if_neg hP, if_neg fun h => hP (hspent h).1]
          exact Nat.zero_le _
    omega
  · intro x rest e w M hx hrest hM
    have hidle : ¬ spent x := by
      intro h
      have hnone := hx.made hrest hM
      rcases (hspent h).2 with ⟨c, hc, -⟩ | ⟨c, hc, -⟩ <;> simp [hnone] at hc
    rw [if_neg hidle]
    omega
  · intro h M M' hle
    obtain ⟨N, rfl⟩ := Multiset.le_iff_exists_add.mp hle
    rw [Multiset.map_add, Multiset.sum_add]
    exact Nat.le_add_right _ _

/-- Hops under a parent are paid for by its children and by loops that start
afresh: the weight of a trail is how many operators it does not list. -/
theorem Works.hops_le (hclosed : root.graph.graph.Closed) (h : r.Works M p xs M' p')
    (hM : r.Stocked root p.world.heap M) (P : Context) :
    Effort.count (fun x => x.ctx.parent? = some P ∧ x.Hops) xs ≤
      (M.map (weight P fun t => Graph.unlisted t root.graph.graph.size)).sum +
        root.graph.graph.size * ((xs.map (births P)).sum +
          Effort.count (fun x => x.ctx.parent? = some P ∧ ∃ a, x.Restarts a) xs) := by
  refine Works.weighs (fun t => Graph.unlisted t root.graph.graph.size) root.graph.graph.size
    (fun x => x.ctx.parent? = some P ∧ x.Hops)
    (fun x => x.ctx.parent? = some P ∧ ∃ a, x.Restarts a) hclosed h hM
    (fun t => Graph.unlisted_le t _) (fun h => ⟨h.1, .inl h.2⟩) ?_
  intro x c hctx hgoes hP
  cases hgoes with
  | @hop next hnew hhas hrepeats id =>
      obtain ⟨op, hop⟩ := Option.isSome_iff_exists.mp hhas
      have hlighter := Graph.unlisted_cons_lt (Graph.index_lt_of_get? hop) hnew
      rw [Context.sibling_trail hctx.own, Graph.unlisted_append]
      split <;> omega
  | @again own op hown hget hloop hhops hrepeats id =>
      rw [Context.sibling_trail hctx.own, if_neg fun h => hhops h.2, Nat.zero_add]
      by_cases hfresh : x.ctx.trail = [own]
      · rw [hfresh]
        exact Nat.le_add_right _ _
      · rw [if_pos ⟨hP, own, hown, hfresh, hrepeats⟩]
        exact (Graph.unlisted_le _ _).trans (Nat.le_add_left _ _)

/-- Restarts of one loop under a parent are paid for by its children and by
restarts of other loops: the weight of a trail is whether it starts with
another operator. -/
theorem Works.restarts_le (hclosed : root.graph.graph.Closed) (h : r.Works M p xs M' p')
    (hM : r.Stocked root p.world.heap M) (P : Context) (a : OperatorId) :
    Effort.count (fun x => x.ctx.parent? = some P ∧ x.Restarts a) xs ≤
      (M.map (weight P fun t => if t.head? = some a then 0 else 1)).sum +
        1 * ((xs.map (births P)).sum +
          Effort.count (fun x => x.ctx.parent? = some P ∧ ∃ b, b ≠ a ∧ x.Restarts b) xs) := by
  refine Works.weighs (fun t => if t.head? = some a then 0 else 1) 1
    (fun x => x.ctx.parent? = some P ∧ x.Restarts a)
    (fun x => x.ctx.parent? = some P ∧ ∃ b, b ≠ a ∧ x.Restarts b) hclosed h hM
    (fun t => by split <;> omega) (fun h => ⟨h.1, .inr h.2.2.2⟩) ?_
  intro x c hctx hgoes hP
  cases hgoes with
  | @hop next hnew hhas hrepeats id =>
      rw [Context.sibling_trail hctx.own, if_neg fun h => hrepeats h.2.2.2]
      rw [List.head?_append_of_ne_nil _ hctx.trail_ne]
      omega
  | @again own op hown hget hloop hhops hrepeats id =>
      rw [Context.sibling_trail hctx.own, List.head?_singleton]
      by_cases hsame : own = a
      · rw [if_pos (congrArg some hsame), Nat.add_zero]
        by_cases hfresh : x.ctx.trail = [own]
        · rw [if_neg fun h => h.2.2.1 (hsame ▸ hfresh)]
          exact Nat.zero_le _
        · have hhead : x.ctx.trail.head? ≠ some a := hsame ▸ hctx.head?_ne hown hfresh
          rw [if_neg hhead]
          split <;> omega
      · have hother : ¬ x.Restarts a := fun h => hsame (Option.some.inj (hown.symm.trans h.1))
        rw [if_neg fun h => hother h.2, if_neg fun h => hsame (Option.some.inj h)]
        by_cases hfresh : x.ctx.trail = [own]
        · rw [hfresh, List.head?_singleton, if_neg fun h => hsame (Option.some.inj h)]
          omega
        · have hspecial : x.ctx.parent? = some P ∧ ∃ b, b ≠ a ∧ x.Restarts b :=
            ⟨hP, own, hsame, hown, hfresh, hrepeats⟩
          rw [if_pos hspecial]
          omega

end Weights

end DrainSetting

end ScopeFlow
