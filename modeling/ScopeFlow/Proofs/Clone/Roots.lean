import ScopeFlow.Proofs.Clone.Isomorphic
import ScopeFlow.Proofs.Scope.Operations

/-!
# Copying several roots

Some roots, which may overlap or lie one within another, are copied one after
another in a session of their own. What the copies reach is the image of what
the originals reach, and nothing of it was there before
(`Heap.Forest.copies_isomorphic`). A copied scope is attached to the copy of
its parent if that has been copied as well, be it before or after, and the
session counts each thing reached once. In any other order the copies are the
same up to their identities.
-/

namespace ScopeFlow

/-! ## Roots -/

namespace Handle

/-- The contexts that a handle mentions, with the frames above. -/
def contexts : Handle → List Context
  | context ctx => ctx.chain
  | operation op => op.contexts.flatMap Context.chain
  | _ => []

/-- The graphs in use that a handle mentions. -/
def graphs : Handle → List SharedGraph
  | shared g => [g]
  | x => x.contexts.map Context.graph

/-- The scopes that a handle mentions. -/
def scopes : Handle → List ScopeId
  | scope s => [s]
  | x => x.contexts.map Context.scope

/-- The items that a handle mentions, those of declarations included. -/
def items : Handle → List ItemId
  | item i => [i]
  | binding _ i => [i]
  | parameter p => p.held
  | parameters ps => ps.held
  | operator op => op.parameters.held
  | graph g => g.held
  | x => x.graphs.flatMap fun g => g.graph.held

end Handle

/-- What some roots mention is in the heap, and no two contexts or graphs in
use among it have the same identity. -/
structure Heap.Holds (h : Heap) (roots : List Handle) : Prop where
  item : ∀ i ∈ roots.flatMap Handle.items, i.index < h.items.size
  scope : ∀ s ∈ roots.flatMap Handle.scopes, s.index < h.scopes.size
  graph : ∀ g ∈ roots.flatMap Handle.graphs, g.id.index < h.graphs
  context : ∀ ctx ∈ roots.flatMap Handle.contexts, ctx.id.index < h.contexts
  graph_id : ∀ g ∈ roots.flatMap Handle.graphs, ∀ g' ∈ roots.flatMap Handle.graphs,
    g.id = g'.id → g = g'
  context_id : ∀ ctx ∈ roots.flatMap Handle.contexts, ∀ ctx' ∈ roots.flatMap Handle.contexts,
    ctx.id = ctx'.id → ctx = ctx'

/-- All items and scopes of a heap, with the graphs and contexts that some
roots mention. -/
def Region.around (h : Heap) (roots : List Handle) : Region :=
  .whole h (fun g => g ∈ roots.flatMap Handle.graphs) fun ctx => ctx ∈ roots.flatMap Handle.contexts

section

variable {h : Heap} {roots roots' : List Handle} {x : Handle}

theorem Context.self_mem_chain (ctx : Context) : ctx ∈ ctx.chain := by
  cases ctx <;> exact List.mem_cons_self

theorem Context.chain_subset {ctx other : Context} (h : other ∈ ctx.chain) :
    other.chain ⊆ ctx.chain := by
  induction ctx with
  | root id g s =>
      obtain rfl := List.mem_singleton.mp h
      exact fun _ h => h
  | frame id op s trail p ih =>
      rcases List.mem_cons.mp h with rfl | h
      · exact fun _ h => h
      · exact fun a ha => List.mem_cons_of_mem _ (ih h ha)

namespace Handle

/-- With a context a handle mentions the frames above it. -/
theorem chain_subset_contexts {ctx : Context} (hctx : ctx ∈ x.contexts) :
    ctx.chain ⊆ x.contexts := by
  cases x with
  | context root => exact Context.chain_subset hctx
  | operation op =>
      obtain ⟨root, hroot, hmem⟩ := List.mem_flatMap.mp hctx
      exact fun a ha => List.mem_flatMap.mpr ⟨root, hroot, Context.chain_subset hmem ha⟩
  | _ => cases hctx

theorem graph_mem_graphs {ctx : Context} (hctx : ctx ∈ x.contexts) : ctx.graph ∈ x.graphs := by
  cases x with
  | context root => exact List.mem_map.mpr ⟨ctx, hctx, rfl⟩
  | operation op => exact List.mem_map.mpr ⟨ctx, hctx, rfl⟩
  | _ => cases hctx

theorem scope_mem_scopes {ctx : Context} (hctx : ctx ∈ x.contexts) : ctx.scope ∈ x.scopes := by
  cases x with
  | context root => exact List.mem_map.mpr ⟨ctx, hctx, rfl⟩
  | operation op => exact List.mem_map.mpr ⟨ctx, hctx, rfl⟩
  | _ => cases hctx

theorem held_subset_items {g : SharedGraph} (hg : g ∈ x.graphs) : g.graph.held ⊆ x.items := by
  cases x with
  | shared g' => exact fun i hi => List.mem_flatMap.mpr ⟨g, hg, hi⟩
  | context ctx => exact fun i hi => List.mem_flatMap.mpr ⟨g, hg, hi⟩
  | operation op => exact fun i hi => List.mem_flatMap.mpr ⟨g, hg, hi⟩
  | _ => cases hg

end Handle

namespace Heap.Holds

theorem around_closed (hf : h.Forest) (hr : h.Holds roots) :
    (Region.around h roots).Closed h := by
  apply hf.toSound.whole_closed
  · intro g hg
    obtain ⟨x, hx, hmem⟩ := List.mem_flatMap.mp hg
    exact ⟨hr.graph g hg, fun i hi =>
      hr.item i (List.mem_flatMap.mpr ⟨x, hx, Handle.held_subset_items hmem hi⟩)⟩
  · exact fun g g' hg hg' => hr.graph_id g hg g' hg'
  · intro ctx hctx
    refine ⟨hr.context ctx hctx, ?_⟩
    obtain ⟨x, hx, hmem⟩ := List.mem_flatMap.mp hctx
    have hscope : ctx.scope.index < h.scopes.size :=
      hr.scope _ (List.mem_flatMap.mpr ⟨x, hx, Handle.scope_mem_scopes hmem⟩)
    cases ctx with
    | root id g s => exact ⟨List.mem_flatMap.mpr ⟨x, hx, Handle.graph_mem_graphs hmem⟩, hscope⟩
    | frame id op s trail p =>
        refine ⟨hscope, List.mem_flatMap.mpr ⟨x, hx, Handle.chain_subset_contexts hmem ?_⟩⟩
        exact List.mem_cons_of_mem _ p.self_mem_chain
  · exact fun c c' hc hc' => hr.context_id c hc c' hc'

theorem inside (hr : h.Holds roots) (hx : x ∈ roots) : x.In (.around h roots) := by
  have hmem : ∀ {α : Type} {f : Handle → List α} {a : α}, a ∈ f x → a ∈ roots.flatMap f :=
    fun ha => List.mem_flatMap.mpr ⟨x, hx, ha⟩
  cases x with
  | scope s => exact hr.scope s (hmem List.mem_cons_self)
  | item i => exact hr.item i (hmem List.mem_cons_self)
  | binding name i => exact hr.item i (hmem List.mem_cons_self)
  | parameter p => exact fun i hi => hr.item i (hmem hi)
  | parameters ps => exact fun i hi => hr.item i (hmem hi)
  | operator op => exact fun i hi => hr.item i (hmem hi)
  | graph g => exact fun i hi => hr.item i (hmem hi)
  | shared g => exact hmem List.mem_cons_self
  | context ctx => exact hmem ctx.self_mem_chain
  | operation op =>
      exact fun ctx hctx => hmem (List.mem_flatMap.mpr ⟨ctx, hctx, ctx.self_mem_chain⟩)

theorem perm (hr : h.Holds roots) (hp : roots'.Perm roots) : h.Holds roots' := by
  have hmem : ∀ {α : Type} {f : Handle → List α} {a : α},
      a ∈ roots'.flatMap f → a ∈ roots.flatMap f := by
    intro α f a ha
    obtain ⟨x, hx, ha⟩ := List.mem_flatMap.mp ha
    exact List.mem_flatMap.mpr ⟨x, hp.mem_iff.mp hx, ha⟩
  exact ⟨fun i hi => hr.item i (hmem hi), fun s hs => hr.scope s (hmem hs),
    fun g hg => hr.graph g (hmem hg), fun ctx hctx => hr.context ctx (hmem hctx),
    fun g hg g' hg' => hr.graph_id g (hmem hg) g' (hmem hg'),
    fun c hc c' hc' => hr.context_id c (hmem hc) c' (hmem hc')⟩

end Heap.Holds

end

/-! ## Copies -/

namespace Heap

/-- Some roots copied one after another, in a session in which nothing has been
copied before and operators are mapped as told. -/
def copyAll (h : Heap) (ops : List (OperatorId × OperatorId)) (roots : List Handle) :
    List Handle × Copying :=
  Handle.copyAll roots ⟨.mapping ops, h⟩

/-- Is the one handle among the roots, and the other its copy? -/
def CopyOf (h : Heap) (ops : List (OperatorId × OperatorId)) (roots : List Handle)
    (x y : Handle) : Prop :=
  (x, y) ∈ roots.zip (h.copyAll ops roots).1

/-- What the copies of some roots come to. -/
structure Copies (h : Heap) (ops : List (OperatorId × OperatorId)) (roots : List Handle) :
    Prop where
  /-- Every root has a copy. -/
  each : (h.copyAll ops roots).1.length = roots.length
  /-- The originals are as they were. -/
  kept : h.Kept (h.copyAll ops roots).2.heap
  /-- The session maps operators as before. -/
  operators : (h.copyAll ops roots).2.session.operator = (Session.mapping ops).operator
  /-- What is reached from the copies is the image of what is reached from the
  roots. -/
  image : Handle.Isomorphic (Session.mapping ops).operator (h.CopyOf ops roots) h
    (h.copyAll ops roots).2.heap
  /-- Nothing that is reached from the copies is an original. -/
  fresh : ∀ y, Handle.Reached (h.copyAll ops roots).2.heap (h.copyAll ops roots).1 y → y.NewTo h
  /-- The session has as many entries as there are things that the roots reach. -/
  size : ∃ keys : List Key, keys.Nodup ∧
    (∀ k, k ∈ keys ↔ ∃ x, Handle.Reached h roots x ∧ x.key? = some k) ∧
    (h.copyAll ops roots).2.session.size = keys.length

section

variable {h : Heap} {ops : List (OperatorId × OperatorId)} {roots roots' : List Handle}

/-- What is known of the session after some roots have been copied. -/
theorem Holds.copied (hf : h.Forest) (hr : h.Holds roots) (ops : List (OperatorId × OperatorId)) :
    CopiedAll (.reached h roots) (Session.mapping ops).operator h (h.copyAll ops roots).2 ∧
      (h.copyAll ops roots).2.Linked h ∧
      List.Forall₂ (Handle.Alike ((h.copyAll ops roots).2.renaming (.reached h roots))
        (Session.mapping ops).operator) roots (h.copyAll ops roots).1 := by
  have hP := (hr.around_closed hf).reached fun _ => hr.inside
  obtain ⟨hadv, hall⟩ := Handle.copyAll_yields hP
    (fun x hx => (Handle.Reached.root hx).mem_reached) ⟨.mapping ops, h⟩ (.start hP ops) .refl
  exact ⟨hadv.copied, hadv.linked hf (hf.start _), hall⟩

theorem copyOf_each (heach : (h.copyAll ops roots).1.length = roots.length) :
    List.Forall₂ (h.CopyOf ops roots) roots (h.copyAll ops roots).1 :=
  List.forall₂_iff_zip.mpr ⟨heach.symm, fun hmem => hmem⟩

/-- The copies of roots are an image of what the roots reach. -/
theorem Holds.copies (hf : h.Forest) (hr : h.Holds roots) (ops : List (OperatorId × OperatorId)) :
    h.Copies ops roots := by
  have hP := (hr.around_closed hf).reached fun _ => hr.inside
  obtain ⟨hc, hl, hall⟩ := hr.copied hf ops
  have heach : (h.copyAll ops roots).1.length = roots.length := hall.length_eq.symm
  have hR : ∀ {x y}, h.CopyOf ops roots x y → x.Alike _ _ y :=
    (List.forall₂_iff_zip.mp hall).2
  have hboth := copyOf_each heach
  refine ⟨heach, hc.kept, hc.operators, ?_, ?_, _, hc.keys_nodup, ?_, Session.size_eq _⟩
  · -- The region is what the roots reach, so that no scope of it lies off all paths.
    refine hc.isomorphic hP hf hl hR ?_
    rintro s ⟨root, hroot, path, hpath⟩
    obtain ⟨root', -, hcopy⟩ := forall₂_mem hboth hroot
    exact ⟨root, root', hcopy, path, hpath⟩
  · rintro y ⟨root', hroot', path, hpath⟩
    obtain ⟨root, -, hcopy⟩ := forall₂_mem hboth.flip hroot'
    obtain ⟨x, -, hxy⟩ := rel_some_right ((hR hcopy).path hc path) hpath
    exact hc.newTo hxy
  · intro k
    constructor
    · intro hk
      obtain ⟨x, hx, hkey⟩ := hc.of_mem_keys hk
      exact ⟨x, hx.reached hkey, hkey⟩
    · -- What a path leads to has been copied, to where the path leads from the copy.
      rintro ⟨x, ⟨root, hroot, path, hpath⟩, hkey⟩
      obtain ⟨root', -, hcopy⟩ := forall₂_mem hboth hroot
      obtain ⟨y, -, hxy⟩ := rel_some_left ((hR hcopy).path hc path) hpath
      obtain ⟨l, -, hkl⟩ := rel_some_left hxy.key hkey
      exact Copying.mem_keys_of_alike hkl

/-- The copies of roots in two orders are isomorphic to each other. -/
theorem Copies.reorder (hc : h.Copies ops roots) (hc' : h.Copies ops roots')
    (hp : roots'.Perm roots) :
    Handle.Isomorphic id (Handle.Both (h.CopyOf ops roots) (h.CopyOf ops roots'))
        (h.copyAll ops roots).2.heap (h.copyAll ops roots').2.heap ∧
      (h.copyAll ops roots').2.session.size = (h.copyAll ops roots).2.session.size := by
  constructor
  · refine hc.image.between hc'.image fun root y' hy' => ?_
    have hroot : root ∈ roots := hp.mem_iff.mp (List.of_mem_zip hy').1
    obtain ⟨y, -, hy⟩ := forall₂_mem (copyOf_each hc.each) hroot
    exact ⟨y, hy⟩
  · obtain ⟨keys, hnodup, hmem, hsize⟩ := hc.size
    obtain ⟨keys', hnodup', hmem', hsize'⟩ := hc'.size
    have hreached : ∀ x, Handle.Reached h roots' x ↔ Handle.Reached h roots x :=
      fun x => by simp only [Handle.Reached, hp.mem_iff]
    have hsame : keys'.Perm keys := by
      refine (List.perm_ext_iff_of_nodup hnodup' hnodup).mpr fun k => ?_
      rw [hmem, hmem']
      simp only [hreached]
    rw [hsize, hsize', hsame.length_eq]

/-- Roots of a forest that are copied in one session have an isomorphic image,
whatever the order in which they are copied. -/
theorem Forest.copies_isomorphic (hf : h.Forest) (hr : h.Holds roots)
    (ops : List (OperatorId × OperatorId)) :
    h.Copies ops roots ∧ ∀ roots' : List Handle, roots'.Perm roots →
      Handle.Isomorphic id (Handle.Both (h.CopyOf ops roots) (h.CopyOf ops roots'))
          (h.copyAll ops roots).2.heap (h.copyAll ops roots').2.heap ∧
        (h.copyAll ops roots').2.session.size = (h.copyAll ops roots).2.session.size := by
  have hc := hr.copies hf ops
  exact ⟨hc, fun roots' hp => hc.reorder ((hr.perm hp).copies hf ops) hp⟩

end

end Heap

namespace Sample

/-- A graph whose one declaration holds an operator. -/
def holding : SharedGraph :=
  ⟨⟨0⟩, ⟨"Holding", ⟨[{ Parameter.lookup "Next" .operator with default := some ⟨0⟩ }]⟩, #[],
    some ⟨3⟩⟩⟩

/-- Two scopes, one within the other, that share an item. -/
def shared : World :=
  [ScopeOp.create "outer", .create "inner", .append ⟨0⟩ ⟨1⟩, .bindValue ⟨0⟩ "X" (.int 7),
    .bind ⟨1⟩ "Y" ⟨1⟩].foldl (fun w op => (op.run w).2)
    { World.empty with heap := ⟨#[.operator ⟨3⟩], #[], 1, 1⟩ }

/-- The inner scope before the outer one, and a context over the inner one. -/
def overlapping : List Handle :=
  [.scope ⟨1⟩, .context (.root ⟨0⟩ holding ⟨1⟩), .binding "X" ⟨1⟩, .scope ⟨0⟩]

theorem shared_forest : shared.heap.Forest := by
  have hstart : World.Built { World.empty with heap := ⟨#[.operator ⟨3⟩], #[], 1, 1⟩ } :=
    .start rfl
  have hshared : shared.Built :=
    ((((hstart.step (.create "outer") ⟨nofun, nofun⟩).step (.create "inner") ⟨nofun, nofun⟩).step
      (.append ⟨0⟩ ⟨1⟩) ⟨by decide, nofun⟩).step
      (.bindValue ⟨0⟩ "X" (.int 7)) ⟨by decide, nofun⟩).step
      (.bind ⟨1⟩ "Y" ⟨1⟩) ⟨by decide, by decide⟩
  exact hshared.forest

theorem shared_holds : shared.heap.Holds overlapping where
  item := by decide
  scope := by decide
  graph := by
    intro g hg
    obtain rfl : g = holding := List.mem_singleton.mp hg
    decide
  context := by
    intro ctx hctx
    obtain rfl := List.mem_singleton.mp hctx
    decide
  graph_id := by
    intro g hg g' hg' _
    exact (List.mem_singleton.mp hg).trans (List.mem_singleton.mp hg').symm
  context_id := by
    intro ctx hctx ctx' hctx' _
    exact (List.mem_singleton.mp hctx).trans (List.mem_singleton.mp hctx').symm

/-- Operator 3 becomes operator 5 in the copies. -/
def renumbered : List (OperatorId × OperatorId) := [(⟨3⟩, ⟨5⟩)]

/-- The copy of the inner scope is made first and comes under the copy of the
outer one later; the other way round, the copies are the same. -/
theorem overlapping_copies :
    shared.heap.Copies renumbered overlapping ∧
      (shared.heap.copyAll renumbered overlapping).2.session.size = 6 ∧
      ((shared.heap.copyAll renumbered overlapping).2.heap.scope ⟨2⟩).parent = some ⟨3⟩ ∧
      Handle.Isomorphic id (Handle.Both (shared.heap.CopyOf renumbered overlapping)
          (shared.heap.CopyOf renumbered overlapping.reverse))
        (shared.heap.copyAll renumbered overlapping).2.heap
        (shared.heap.copyAll renumbered overlapping.reverse).2.heap := by
  obtain ⟨hcopies, horder⟩ := shared_forest.copies_isomorphic shared_holds renumbered
  refine ⟨hcopies, ?_, ?_, (horder _ overlapping.reverse_perm).1⟩
  · decide +kernel
  · decide +kernel

end Sample

end ScopeFlow
