import ScopeFlow.Proofs.Clone.States

/-!
# Handles

A handle is whatever can be copied in a session: a scope, an item, a variable,
a declaration or a collection of them, an operator, a graph, a context or an
operation. From a handle there are steps downwards to further handles, and a
path is a list of steps.

* `Handle.at?` follows a path;
* `Handle.key?` is the identity of what has one, and `Handle.form` is all that
  is seen of a handle without a step;
* what is reached from some handles is a region (`Region.Closed.reached`);
* copying a handle yields one that corresponds to it (`Handle.copy_yields`).
-/

namespace ScopeFlow

/-- What can be copied in a session. -/
inductive Handle where
  | scope (s : ScopeId)
  | item (i : ItemId)
  /-- A variable: an item under a name. -/
  | binding (name : String) (i : ItemId)
  | parameter (p : Parameter)
  | parameters (ps : Parameters)
  | operator (op : Operator)
  /-- A graph not yet in use. -/
  | graph (g : Graph)
  /-- A graph in use. -/
  | shared (g : SharedGraph)
  | context (ctx : Context)
  | operation (op : Operation)

/-- A step from a handle to one below it. -/
inductive Step where
  /-- From a scope to its variable of a name. -/
  | binding (name : String)
  /-- From a scope to the sub-scope at a place. -/
  | child (place : Nat)
  /-- From a variable to its item. -/
  | value
  /-- From a declaration to its default. -/
  | default
  /-- From a declaration to its fixed value. -/
  | fixed
  /-- From a collection to the declaration at a place. -/
  | declaration (place : Nat)
  /-- From an operator or a graph to what it declares. -/
  | parameters
  /-- From a graph to the operator of a number. -/
  | operator (place : Nat)
  /-- From a graph in use to what it holds. -/
  | contents
  /-- From a context to its graph. -/
  | graph
  /-- From a context to the scope that it binds. -/
  | scope
  /-- From a context to the frame above. -/
  | parent
  /-- From an atomic operation to its context. -/
  | context
  /-- From several operations to the one at a place. -/
  | branch (place : Nat)

/-- The identity of a scope, an item, a context or a graph in use. -/
inductive Key where
  | scope (s : ScopeId)
  | item (i : ItemId)
  | context (id : ContextId)
  | graph (id : GraphId)
deriving DecidableEq

/-- What is seen of a handle before any step is taken. -/
inductive Form where
  | scope (name : String) (names : List String) (children : Nat)
  | item (v : Value)
  | binding (name : String)
  | parameter (name description : String) (type : ValueType) (actual : String)
      (default fixed : Bool)
  | parameters (count : Nat)
  | operator (name : String) (successor : Option OperatorId) (kind : OperatorKind)
  | graph (name : String) (operators : Nat) (initial : Option OperatorId)
  | shared
  | context (operator : Option OperatorId) (trail : List OperatorId)
  | atomic
  | sequence (count : Nat)
  | parallel (count : Nat)

/-- A form with other numbers for operators. -/
def Form.mapOperators (φ : OperatorId → OperatorId) : Form → Form
  | item v => item (v.mapOperator φ)
  | operator name successor kind => operator name (successor.map φ) (kind.mapOperators φ)
  | graph name operators initial => graph name operators (initial.map φ)
  | context op trail => context (op.map φ) (trail.map φ)
  | form => form

theorem Form.of_mapOperators_scope {φ : OperatorId → OperatorId} {form : Form} {name : String}
    {names : List String} {n : Nat} (hform : form.mapOperators φ = .scope name names n) :
    form = .scope name names n := by
  cases form with
  | scope _ _ _ => exact hform
  | _ => cases hform

theorem Form.mapOperators_id (form : Form) : form.mapOperators id = form := by
  cases form <;> simp [mapOperators, Value.mapOperator_id]

namespace Handle

/-- The handle that a step leads to. -/
def step? (h : Heap) : Handle → Step → Option Handle
  | scope s, .binding name => ((h.scope s).bindings.find? name).map (binding name)
  | scope s, .child place => (h.scope s).children[place]?.map scope
  | binding _ i, .value => some (item i)
  | parameter p, .default => p.default.map item
  | parameter p, .fixed => p.fixed.map item
  | parameters ps, .declaration place => ps.list[place]?.map parameter
  | operator op, .parameters => some (parameters op.parameters)
  | graph g, .parameters => some (parameters g.parameters)
  | graph g, .operator place => g.operators.toList[place]?.map operator
  | shared g, .contents => some (graph g.graph)
  | context ctx, .graph => some (shared ctx.graph)
  | context ctx, .scope => some (scope ctx.scope)
  | context ctx, .parent => ctx.parent?.map context
  | operation (.atomic ctx), .context => some (context ctx)
  | operation (.sequence ops), .branch place => ops[place]?.map operation
  | operation (.parallel ops), .branch place => ops[place]?.map operation
  | _, _ => none

/-- The handle that a path leads to. -/
def at? (h : Heap) (x : Handle) : List Step → Option Handle
  | [] => some x
  | step :: path => (x.step? h step).bind fun y => y.at? h path

/-- The identity of what has one. -/
def key? : Handle → Option Key
  | scope s => some (.scope s)
  | item i => some (.item i)
  | context ctx => some (.context ctx.id)
  | shared g => some (.graph g.id)
  | _ => none

/-- What is seen of a handle. -/
def form (h : Heap) : Handle → Form
  | scope s => .scope (h.scope s).name (h.scope s).bindings.names (h.scope s).children.length
  | item i => .item (h.value i)
  | binding name _ => .binding name
  | parameter p =>
    .parameter p.name p.description p.type p.actual p.default.isSome p.fixed.isSome
  | parameters ps => .parameters ps.list.length
  | operator op => .operator op.name op.successor op.kind
  | graph g => .graph g.name g.operators.size g.initial
  | shared _ => .shared
  | context ctx => .context ctx.operatorId? ctx.trail
  | operation (.atomic _) => .atomic
  | operation (.sequence ops) => .sequence ops.length
  | operation (.parallel ops) => .parallel ops.length

/-- The copy of a handle. -/
def copy : Handle → Copy Handle
  | scope s => do pure (scope (← s.copy))
  | item i => do pure (item (← i.copy))
  | binding name i => do pure (binding name (← i.copy))
  | parameter p => do pure (parameter (← p.copy))
  | parameters ps => do pure (parameters (← ps.copy))
  | operator op => do pure (operator (← op.copy))
  | graph g => do pure (graph (← g.copy))
  | shared g => do pure (shared (← g.copy))
  | context ctx => do pure (context (← ctx.copy))
  | operation op => do pure (operation (← op.copy))

/-- The copies of handles in order. -/
def copyAll : List Handle → Copy (List Handle)
  | [] => pure []
  | x :: xs => do
    let x' ← x.copy
    let xs' ← copyAll xs
    pure (x' :: xs')

/-- A path leads to the handle from one of some roots. -/
def Reached (h : Heap) (roots : List Handle) (x : Handle) : Prop :=
  ∃ root ∈ roots, ∃ path, root.at? h path = some x

/-- What a handle refers to lies in the region. -/
def In (P : Region) : Handle → Prop
  | scope s => P.scopes s
  | item i => P.items i
  | binding _ i => P.items i
  | parameter p => ∀ i ∈ p.held, P.items i
  | parameters ps => ∀ i ∈ ps.held, P.items i
  | operator op => ∀ i ∈ op.parameters.held, P.items i
  | graph g => ∀ i ∈ g.held, P.items i
  | shared g => P.graphs g
  | context ctx => P.contexts ctx
  | operation op => ∀ ctx ∈ op.contexts, P.contexts ctx

variable {P : Region} {h : Heap} {roots : List Handle} {x y : Handle} {next : Step}

theorem at?_append (path path' : List Step) (x : Handle) :
    x.at? h (path ++ path') = (x.at? h path).bind fun y => y.at? h path' := by
  induction path generalizing x with
  | nil => rfl
  | cons next path ih =>
      rw [List.cons_append, at?, at?]
      cases x.step? h next with
      | none => rfl
      | some y => exact ih y

/-- Nothing leads out of a region. -/
theorem In.step (hP : P.Closed h) (hx : x.In P) (hy : x.step? h next = some y) : y.In P := by
  cases x with
  | scope s =>
      cases next with
      | binding name =>
          obtain ⟨i, hi, rfl⟩ := Option.map_eq_some_iff.mp hy
          exact hP.bound hx (name, i) ((hP.sorted hx).find?_iff.mp hi)
      | child place =>
          obtain ⟨c, hc, rfl⟩ := Option.map_eq_some_iff.mp hy
          exact hP.child hx c (List.mem_of_getElem? hc)
      | _ => cases hy
  | item i => cases next <;> cases hy
  | binding name i =>
      cases next with
      | value =>
          cases hy
          exact hx
      | _ => cases hy
  | parameter p =>
      cases next with
      | default =>
          obtain ⟨i, hi, rfl⟩ := Option.map_eq_some_iff.mp hy
          exact hx i (List.mem_append_left _ (Option.mem_toList.mpr hi))
      | fixed =>
          obtain ⟨i, hi, rfl⟩ := Option.map_eq_some_iff.mp hy
          exact hx i (List.mem_append_right _ (Option.mem_toList.mpr hi))
      | _ => cases hy
  | parameters ps =>
      cases next with
      | declaration place =>
          obtain ⟨p, hp, rfl⟩ := Option.map_eq_some_iff.mp hy
          exact fun i hi => hx i (List.mem_flatMap.mpr ⟨p, List.mem_of_getElem? hp, hi⟩)
      | _ => cases hy
  | operator op =>
      cases next with
      | parameters =>
          cases hy
          exact hx
      | _ => cases hy
  | graph g =>
      cases next with
      | parameters =>
          cases hy
          exact fun i hi => hx i (List.mem_append_left _ hi)
      | operator place =>
          obtain ⟨op, hop, rfl⟩ := Option.map_eq_some_iff.mp hy
          intro i hi
          exact hx i (List.mem_append_right _
            (List.mem_flatMap.mpr ⟨op, List.mem_of_getElem? hop, hi⟩))
      | _ => cases hy
  | shared g =>
      cases next with
      | contents =>
          cases hy
          exact hP.held hx
      | _ => cases hy
  | context ctx =>
      cases next with
      | graph =>
          cases hy
          exact hP.context_graph hx
      | scope =>
          cases hy
          exact hP.context_scope hx
      | parent =>
          obtain ⟨p, hp, rfl⟩ := Option.map_eq_some_iff.mp hy
          exact hP.context_parent hx hp
      | _ => cases hy
  | operation op =>
      -- A branch is drained in contexts of the whole.
      have hbranch : ∀ {ops : List Operation} {place : Nat},
          (∀ ctx ∈ Operation.contextsOfAll ops, P.contexts ctx) →
          ops[place]?.map operation = some y → y.In P := by
        intro ops place hops hy
        obtain ⟨op', hop', rfl⟩ := Option.map_eq_some_iff.mp hy
        exact fun ctx hctx => hops ctx
          (Operation.mem_contextsOfAll.mpr ⟨op', List.mem_of_getElem? hop', hctx⟩)
      cases op with
      | atomic ctx =>
          cases next with
          | context =>
              cases hy
              exact hx ctx List.mem_cons_self
          | _ => cases hy
      | sequence ops =>
          cases next with
          | branch place => exact hbranch hx hy
          | _ => cases hy
      | parallel ops =>
          cases next with
          | branch place => exact hbranch hx hy
          | _ => cases hy

theorem In.at (hP : P.Closed h) {path : List Step} :
    ∀ {x : Handle}, x.In P → x.at? h path = some y → y.In P := by
  induction path with
  | nil =>
      intro x hx hy
      cases hy
      exact hx
  | cons next path ih =>
      intro x hx hy
      obtain ⟨z, hz, hy⟩ := Option.bind_eq_some_iff.mp hy
      exact ih (hx.step hP hz) hy

/-! ## Reaching -/

namespace Reached

theorem root (hx : x ∈ roots) : Reached h roots x := ⟨x, hx, [], rfl⟩

theorem step (hx : Reached h roots x) (next : Step) (hy : x.step? h next = some y) :
    Reached h roots y := by
  obtain ⟨root, hroot, path, hpath⟩ := hx
  refine ⟨root, hroot, path ++ [next], ?_⟩
  rw [at?_append, hpath]
  simp [at?, hy]

theorem inside (hP : P.Closed h) (hroots : ∀ root ∈ roots, root.In P)
    (hx : Reached h roots x) : x.In P := by
  obtain ⟨root, hroot, path, hpath⟩ := hx
  exact (hroots root hroot).at hP hpath

theorem of_parameter {p : Parameter} (hp : Reached h roots (parameter p)) {i : ItemId}
    (hi : i ∈ p.held) : Reached h roots (item i) := by
  rcases List.mem_append.mp hi with hi | hi
  · exact hp.step .default (by simp [step?, Option.mem_toList.mp hi])
  · exact hp.step .fixed (by simp [step?, Option.mem_toList.mp hi])

theorem of_parameters {ps : Parameters} (hps : Reached h roots (parameters ps)) {i : ItemId}
    (hi : i ∈ ps.held) : Reached h roots (item i) := by
  obtain ⟨p, hp, hi⟩ := List.mem_flatMap.mp hi
  obtain ⟨place, hplace⟩ := List.mem_iff_getElem?.mp hp
  have hreach : Reached h roots (parameter p) :=
    hps.step (.declaration place) (by simp [step?, hplace])
  exact hreach.of_parameter hi

theorem of_operator {op : Operator} (hop : Reached h roots (operator op)) {i : ItemId}
    (hi : i ∈ op.parameters.held) : Reached h roots (item i) :=
  (hop.step .parameters rfl).of_parameters hi

theorem of_graph {g : Graph} (hg : Reached h roots (graph g)) {i : ItemId} (hi : i ∈ g.held) :
    Reached h roots (item i) := by
  rcases List.mem_append.mp hi with hi | hi
  · exact (hg.step .parameters rfl).of_parameters hi
  · obtain ⟨op, hop, hi⟩ := List.mem_flatMap.mp hi
    obtain ⟨place, hplace⟩ := List.mem_iff_getElem?.mp hop
    have hreach : Reached h roots (operator op) :=
      hg.step (.operator place) (by simp only [step?, hplace, Option.map_some])
    exact hreach.of_operator hi

mutual

theorem of_operation : ∀ op : Operation, Reached h roots (operation op) →
    ∀ ctx ∈ op.contexts, Reached h roots (context ctx)
  | .atomic ctx, hop, x, hx => by
      obtain rfl := List.mem_singleton.mp hx
      exact hop.step .context rfl
  | .sequence ops, hop, x, hx => by
      refine of_operations ops (fun op hmem => ?_) x hx
      obtain ⟨place, hplace⟩ := List.mem_iff_getElem?.mp hmem
      exact hop.step (.branch place) (by simp [step?, hplace])
  | .parallel ops, hop, x, hx => by
      refine of_operations ops (fun op hmem => ?_) x hx
      obtain ⟨place, hplace⟩ := List.mem_iff_getElem?.mp hmem
      exact hop.step (.branch place) (by simp [step?, hplace])

theorem of_operations : ∀ ops : List Operation, (∀ op ∈ ops, Reached h roots (operation op)) →
    ∀ ctx ∈ Operation.contextsOfAll ops, Reached h roots (context ctx)
  | [], _, x, hx => by cases hx
  | op :: ops, hops, x, hx => by
      rcases List.mem_append.mp hx with hx | hx
      · exact of_operation op (hops op List.mem_cons_self) x hx
      · exact of_operations ops (fun op hmem => hops op (List.mem_cons_of_mem _ hmem)) x hx

end

end Reached

end Handle

/-- What is reached from some roots. -/
def Region.reached (h : Heap) (roots : List Handle) : Region where
  items i := Handle.Reached h roots (.item i)
  scopes s := Handle.Reached h roots (.scope s)
  graphs g := Handle.Reached h roots (.shared g)
  contexts ctx := Handle.Reached h roots (.context ctx)

section

variable {P : Region} {h : Heap} {roots : List Handle}

theorem Handle.Reached.mem_reached {x : Handle} (hx : Reached h roots x) :
    x.In (.reached h roots) := by
  cases x with
  | scope s => exact hx
  | item i => exact hx
  | binding name i => exact hx.step .value rfl
  | parameter p => exact fun _ => hx.of_parameter
  | parameters ps => exact fun _ => hx.of_parameters
  | operator op => exact fun _ => hx.of_operator
  | graph g => exact fun _ => hx.of_graph
  | shared g => exact hx
  | context ctx => exact hx
  | operation op => exact of_operation op hx

theorem Handle.In.reached {x : Handle} {k : Key} (hx : x.In (.reached h roots))
    (hk : x.key? = some k) : Reached h roots x := by
  cases x with
  | scope s => exact hx
  | item i => exact hx
  | shared g => exact hx
  | context ctx => exact hx
  | _ => cases hk

/-- What is reached from roots in a region is a region itself. -/
theorem Region.Closed.reached (hP : P.Closed h) (hroots : ∀ root ∈ roots, root.In P) :
    (Region.reached h roots).Closed h where
  item := fun hi => hP.item (hi.inside hP hroots)
  scope := fun hs => hP.scope (hs.inside hP hroots)
  sorted := fun hs => hP.sorted (hs.inside hP hroots)
  bound := by
    intro s hs entry hentry
    have hfound := (hP.sorted (hs.inside hP hroots)).find?_iff.mpr hentry
    have hreach : Handle.Reached h roots (.binding entry.1 entry.2) :=
      hs.step (.binding entry.1) (by simp [Handle.step?, hfound])
    exact hreach.step .value rfl
  child := by
    intro s hs c hc
    obtain ⟨place, hplace⟩ := List.mem_iff_getElem?.mp hc
    exact hs.step (.child place) (by simp [Handle.step?, hplace])
  graph := fun hg => hP.graph (hg.inside hP hroots)
  held := by
    intro g hg i hi
    have hreach : Handle.Reached h roots (.graph g.graph) := hg.step .contents rfl
    exact hreach.of_graph hi
  graph_id := fun hg hg' => hP.graph_id (hg.inside hP hroots) (hg'.inside hP hroots)
  context := by
    intro ctx hctx
    refine ⟨(hP.context (hctx.inside hP hroots)).1, ?_⟩
    cases ctx with
    | root id g s => exact ⟨hctx.step .graph rfl, hctx.step .scope rfl⟩
    | frame id op s trail p =>
        exact ⟨hctx.step .scope rfl, hctx.step .parent rfl⟩
  context_id := fun hc hc' => hP.context_id (hc.inside hP hroots) (hc'.inside hP hroots)
  rooted := hP.rooted
  ranked := hP.ranked.imp fun _ hrank s hs => hrank s (hs.inside hP hroots)

end

end ScopeFlow
