import ScopeFlow.Proofs.Clone.Handles

/-!
# Copies of handles

A handle and its copy correspond: they look the same, up to the numbers of
operators, and the same step leads to handles that correspond again
(`Handle.Alike.step`), or from neither. Identities correspond one to one
(`CopiedAll.key_iff`). Both are facts about the session alone, so that it does
not matter in which order its entries were made.
-/

namespace ScopeFlow

open Copy

section

variable {α β γ δ : Type} {R : α → β → Prop} {S : γ → δ → Prop} {x : Option α} {y : Option β}

theorem rel_map {f : α → γ} {g : β → δ} (h : Option.Rel R x y)
    (hRS : ∀ {a b}, R a b → S (f a) (g b)) : Option.Rel S (x.map f) (y.map g) := by
  cases h with
  | none => exact .none
  | some hab => exact .some (hRS hab)

theorem rel_bind {f : α → Option γ} {g : β → Option δ} (h : Option.Rel R x y)
    (hRS : ∀ {a b}, R a b → Option.Rel S (f a) (g b)) : Option.Rel S (x.bind f) (y.bind g) := by
  cases h with
  | none => exact .none
  | some hab => exact hRS hab

theorem rel_some_left {a : α} (h : Option.Rel R x y) (hx : x = some a) :
    ∃ b, y = some b ∧ R a b := by
  cases h with
  | none => cases hx
  | some hab =>
      cases hx
      exact ⟨_, rfl, hab⟩

theorem rel_some_right {b : β} (h : Option.Rel R x y) (hy : y = some b) :
    ∃ a, x = some a ∧ R a b := by
  cases h with
  | none => cases hy
  | some hab =>
      cases hy
      exact ⟨_, rfl, hab⟩

theorem rel_isSome (h : Option.Rel R x y) : x.isSome = y.isSome := by
  cases h <;> rfl

end

/-- Handles that correspond, with the numbers of operators mapped. -/
inductive Handle.Alike (ρ : Renaming) (φ : OperatorId → OperatorId) : Handle → Handle → Prop
  | scope {s t : ScopeId} : ρ.scopes s t → Alike ρ φ (.scope s) (.scope t)
  | item {i j : ItemId} : ρ.items i j → Alike ρ φ (.item i) (.item j)
  | binding {name : String} {i j : ItemId} :
      ρ.items i j → Alike ρ φ (.binding name i) (.binding name j)
  | parameter {p q : Parameter} : p.Alike ρ q → Alike ρ φ (.parameter p) (.parameter q)
  | parameters {ps qs : Parameters} :
      ps.Alike ρ qs → Alike ρ φ (.parameters ps) (.parameters qs)
  | operator {op op' : Operator} :
      (op.mapOperators φ).Alike ρ op' → Alike ρ φ (.operator op) (.operator op')
  | graph {g g' : Graph} : (g.mapOperators φ).Alike ρ g' → Alike ρ φ (.graph g) (.graph g')
  | shared {g g' : SharedGraph} : ρ.graphs g g' → Alike ρ φ (.shared g) (.shared g')
  | context {ctx ctx' : Context} : ρ.contexts ctx ctx' → Alike ρ φ (.context ctx) (.context ctx')
  | operation {op op' : Operation} : op.Alike ρ op' → Alike ρ φ (.operation op) (.operation op')

/-- Identities that correspond. -/
inductive Key.Alike (ρ : Renaming) : Key → Key → Prop
  | scope {s t : ScopeId} : ρ.scopes s t → Alike ρ (.scope s) (.scope t)
  | item {i j : ItemId} : ρ.items i j → Alike ρ (.item i) (.item j)
  | context {ctx ctx' : Context} : ρ.contexts ctx ctx' → Alike ρ (.context ctx.id) (.context ctx'.id)
  | graph {g g' : SharedGraph} : ρ.graphs g g' → Alike ρ (.graph g.id) (.graph g'.id)

variable {P : Region} {φ : OperatorId → OperatorId} {h₀ : Heap} {c : Copying} {ρ σ : Renaming}
  {x y x' y' : Handle}

/-! ## Copying -/

theorem Handle.Alike.mono (hw : ρ.Within σ) (h : x.Alike ρ φ y) : x.Alike σ φ y := by
  cases h with
  | scope hst => exact .scope (hw.scopes hst)
  | item hij => exact .item (hw.items hij)
  | binding hij => exact .binding (hw.items hij)
  | parameter hp => exact .parameter (hp.mono hw)
  | parameters hps => exact .parameters (hps.mono hw)
  | operator hop => exact .operator (hop.mono hw)
  | graph hg => exact .graph (hg.mono hw)
  | shared hg => exact .shared (hw.graphs hg)
  | context hctx => exact .context (hw.contexts hctx)
  | operation hop => exact .operation (hop.mono hw)

namespace Handle

/-- The copy of a handle corresponds to it. -/
theorem copy_yields (hP : P.Closed h₀) (hx : x.In P) :
    Yields P φ h₀ (fun _ => True) (fun _ => True) ρ (fun ρ' y => x.Alike ρ' φ y) x.copy := by
  cases x with
  | scope s =>
      exact .bind (.scope hP hx) fun _ t _ hst => .pure fun _ hw => .scope (hw.scopes hst)
  | item i => exact .bind (.item hP hx) fun _ j _ hij => .pure fun _ hw => .item (hw.items hij)
  | binding name i =>
      exact .bind (.item hP hx) fun _ j _ hij => .pure fun _ hw => .binding (hw.items hij)
  | parameter p =>
      exact .bind (p.copy_yields hP hx) fun _ q _ hq => .pure fun _ hw => .parameter (hq.mono hw)
  | parameters ps =>
      refine .bind (Parameters.copy_yields hP hx) fun _ qs _ hqs => ?_
      exact .pure fun _ hw => .parameters (hqs.mono hw)
  | operator op =>
      refine .bind (Operator.copy_yields hP hx) fun _ op' _ hop => ?_
      exact .pure fun _ hw => .operator (hop.mono hw)
  | graph g =>
      exact .bind (Graph.copy_yields hP hx) fun _ g' _ hg => .pure fun _ hw => .graph (hg.mono hw)
  | shared g =>
      refine .bind (SharedGraph.copy_yields hP hx) fun _ g' _ hg => ?_
      exact .pure fun _ hw => .shared (hw.graphs hg)
  | context ctx =>
      refine .bind ((Context.copy_yields hP ctx hx).mono (fun _ h => h) fun _ _ => trivial) ?_
      exact fun _ ctx' _ hctx => .pure fun _ hw => .context (hw.contexts hctx)
  | operation op =>
      refine .bind (Operation.copy_yields hP op hx) fun _ op' _ hop => ?_
      exact .pure fun _ hw => .operation (hop.mono hw)

/-- The copies of handles correspond to them one by one. -/
theorem copyAll_yields (hP : P.Closed h₀) {xs : List Handle} (hxs : ∀ x ∈ xs, x.In P) :
    Yields P φ h₀ (fun _ => True) (fun _ => True) ρ
      (fun ρ' ys => List.Forall₂ (fun x y => x.Alike ρ' φ y) xs ys) (copyAll xs) := by
  induction xs generalizing ρ with
  | nil => exact .pure fun _ _ => .nil
  | cons x xs ih =>
      rw [copyAll]
      refine .bind (copy_yields hP (hxs x List.mem_cons_self)) fun ρ' y _ hy => ?_
      refine .bind (ih fun x hx => hxs x (List.mem_cons_of_mem _ hx)) fun ρ'' ys hw hys => ?_
      exact .pure fun τ hw' => .cons (hy.mono (hw.trans hw')) (hys.imp fun _ _ h => h.mono hw')

end Handle

/-! ## Contexts -/

namespace CopiedAll

variable {ctx ctx' : Context} (hc : CopiedAll P φ h₀ c)
  (hctx : (c.renaming P).contexts ctx ctx')
include hc hctx

theorem context_scope : (c.renaming P).scopes ctx.scope ctx'.scope := by
  simpa using (hc.context hctx).2.2.scope

theorem context_parent : Option.Rel (c.renaming P).contexts ctx.parent? ctx'.parent? := by
  simpa using (hc.context hctx).2.2.parent?

theorem context_graph : (c.renaming P).graphs ctx.graph ctx'.graph := by
  induction ctx generalizing ctx' with
  | root id g s =>
      have hal := (hc.context hctx).2.2
      cases ctx' with
      | root _ _ _ => exact hal.1
      | frame _ _ _ _ _ => exact hal.elim
  | frame id op s trail p ih =>
      have hal := (hc.context hctx).2.2
      cases ctx' with
      | root _ _ _ => exact hal.elim
      | frame _ _ _ _ q =>
          show (c.renaming P).graphs p.graph q.graph
          exact ih hal.2.2.2

/-- The operator of a copied context, and its trail, are those of the original
by their new numbers. -/
theorem context_numbers :
    ctx.operatorId?.map φ = ctx'.operatorId? ∧ ctx.trail.map φ = ctx'.trail := by
  have hal := (hc.context hctx).2.2
  have hop := hal.operatorId?
  have htrail := hal.trail
  rw [Context.operatorId?_mapOperators] at hop
  rw [Context.trail_mapOperators] at htrail
  exact ⟨hop, htrail⟩

end CopiedAll

/-! ## Steps and paths -/

theorem Operation.Alike.branch {ops ops' : List Operation} (h : AllAlike ρ ops ops') (place : Nat) :
    Option.Rel (Handle.Alike ρ φ) (ops[place]?.map .operation) (ops'[place]?.map .operation) :=
  rel_map (forall₂_getElem? h place) fun hop => .operation hop

namespace Handle.Alike

variable (hc : CopiedAll P φ h₀ c)
include hc

/-- The same step leads to handles that correspond, or from neither. -/
theorem step (hxy : x.Alike (c.renaming P) φ y) (next : Step) :
    Option.Rel (Handle.Alike (c.renaming P) φ) (x.step? h₀ next) (y.step? c.heap next) := by
  cases hxy with
  | scope hst =>
      have hcontent := hc.content hst id
      cases next with
      | binding name =>
          exact rel_map (Bindings.lookup_same hcontent.bindings name) fun hij => .binding hij
      | child place => exact rel_map (forall₂_getElem? hcontent.children place) fun h => .scope h
      | _ => exact .none
  | item _ => cases next <;> exact .none
  | binding hij =>
      cases next with
      | value => exact .some (.item hij)
      | _ => exact .none
  | parameter hp =>
      cases next with
      | default => exact rel_map hp.default fun hij => .item hij
      | fixed => exact rel_map hp.fixed fun hij => .item hij
      | _ => exact .none
  | parameters hps =>
      cases next with
      | declaration place => exact rel_map (forall₂_getElem? hps place) fun hp => .parameter hp
      | _ => exact .none
  | operator hop =>
      cases next with
      | parameters => exact .some (.parameters hop.parameters)
      | _ => exact .none
  | @graph g g' hg =>
      cases next with
      | parameters => exact .some (.parameters hg.parameters)
      | operator place =>
          -- The operators of the copy are compared with the originals, not yet mapped.
          have hops := hg.operators
          change List.Forall₂ _ (g.operators.map (Operator.mapOperators φ)).toList _ at hops
          rw [Array.toList_map, List.forall₂_map_left_iff] at hops
          exact rel_map (forall₂_getElem? hops place) fun hop => .operator hop
      | _ => exact .none
  | shared hg =>
      cases next with
      | contents => exact .some (.graph (hc.graph hg).2.2)
      | _ => exact .none
  | context hctx =>
      cases next with
      | graph => exact .some (.shared (hc.context_graph hctx))
      | scope => exact .some (.scope (hc.context_scope hctx))
      | parent => exact rel_map (hc.context_parent hctx) fun h => .context h
      | _ => exact .none
  | operation hop =>
      cases hop with
      | atomic hctx =>
          cases next with
          | context => exact .some (.context hctx)
          | _ => exact .none
      | sequence hops =>
          cases next with
          | branch place => exact Operation.Alike.branch hops place
          | _ => exact .none
      | parallel hops =>
          cases next with
          | branch place => exact Operation.Alike.branch hops place
          | _ => exact .none

/-- The same path leads to handles that correspond, or from neither. -/
theorem path (hxy : x.Alike (c.renaming P) φ y) (steps : List Step) :
    Option.Rel (Handle.Alike (c.renaming P) φ) (x.at? h₀ steps) (y.at? c.heap steps) := by
  induction steps generalizing x y with
  | nil => exact .some hxy
  | cons next steps ih => exact rel_bind (hxy.step hc next) ih

/-- Handles that correspond look the same, but for the numbers of operators. -/
theorem form (hxy : x.Alike (c.renaming P) φ y) :
    (x.form h₀).mapOperators φ = y.form c.heap := by
  cases hxy with
  | scope hst =>
      have hcontent := hc.content hst id
      simp only [Handle.form, Form.mapOperators, hcontent.name, hcontent.children.length_eq,
        Bindings.names, Bindings.names_same hcontent.bindings]
  | item hij =>
      obtain ⟨-, -, -, hv⟩ := hc.item hij
      simp only [Handle.form, Form.mapOperators, hv]
  | binding _ => rfl
  | parameter hp =>
      simp only [Handle.form, Form.mapOperators, hp.name, hp.description, hp.type, hp.actual,
        rel_isSome hp.default, rel_isSome hp.fixed]
  | parameters hps =>
      simp only [Handle.form, Form.mapOperators, List.Forall₂.length_eq hps]
  | @operator op op' hop =>
      have hname : op.name = op'.name := hop.name
      have hsuccessor : op.successor.map φ = op'.successor := hop.successor
      have hkind : op.kind.mapOperators φ = op'.kind := hop.kind
      simp only [Handle.form, Form.mapOperators, hname, hsuccessor, hkind]
  | @graph g g' hg =>
      have hname : g.name = g'.name := hg.name
      have hinitial : g.initial.map φ = g'.initial := hg.initial
      have hsize : g.operators.size = g'.operators.size := by
        have hlength := hg.operators.length_eq
        rwa [Array.length_toList, Array.length_toList, Graph.mapOperators, Array.size_map] at hlength
      simp only [Handle.form, Form.mapOperators, hname, hinitial, hsize]
  | shared _ => rfl
  | context hctx =>
      obtain ⟨hop, htrail⟩ := hc.context_numbers hctx
      simp only [Handle.form, Form.mapOperators, hop, htrail]
  | operation hop =>
      cases hop with
      | atomic _ => rfl
      | sequence hops =>
          simp only [Handle.form, Form.mapOperators, List.Forall₂.length_eq hops]
      | parallel hops =>
          simp only [Handle.form, Form.mapOperators, List.Forall₂.length_eq hops]

omit hc in
theorem key (hxy : x.Alike ρ φ y) : Option.Rel (Key.Alike ρ) x.key? y.key? := by
  cases hxy with
  | scope hst => exact .some (.scope hst)
  | item hij => exact .some (.item hij)
  | shared hg => exact .some (.graph hg)
  | context hctx => exact .some (.context hctx)
  | _ => exact .none

end Handle.Alike

/-! ## Identities -/

namespace CopiedAll

variable (hP : P.Closed h₀) (hc : CopiedAll P φ h₀ c)
include hP hc

theorem context_unique {a b a' b' : Context} (h : (c.renaming P).contexts a b)
    (h' : (c.renaming P).contexts a' b') : a.id = a'.id ↔ b.id = b'.id := by
  constructor
  · intro hid
    obtain rfl := hP.context_id h.1 h'.1 hid
    exact congrArg Context.id (Option.some.inj (h.2.symm.trans h'.2))
  · exact fun hid => congrArg Context.id (hc.context_inj h h' hid)

theorem graph_unique {a b a' b' : SharedGraph} (h : (c.renaming P).graphs a b)
    (h' : (c.renaming P).graphs a' b') : a.id = a'.id ↔ b.id = b'.id := by
  constructor
  · intro hid
    obtain rfl := hP.graph_id h.1 h'.1 hid
    exact congrArg SharedGraph.id (Option.some.inj (h.2.symm.trans h'.2))
  · exact fun hid => congrArg SharedGraph.id (hc.graph_inj h h' hid)

theorem key_unique {k l k' l' : Key} (h : k.Alike (c.renaming P) l)
    (h' : k'.Alike (c.renaming P) l') : k = k' ↔ l = l' := by
  cases h with
  | @scope s t hst =>
      cases h' with
      | @scope s' t' hst' =>
          rw [Key.scope.injEq, Key.scope.injEq]
          exact hc.scope_iff hst hst'
      | _ => simp
  | @item i j hij =>
      cases h' with
      | @item i' j' hij' =>
          rw [Key.item.injEq, Key.item.injEq]
          exact hc.item_iff hij hij'
      | _ => simp
  | context hctx =>
      cases h' with
      | context hctx' =>
          rw [Key.context.injEq, Key.context.injEq]
          exact hc.context_unique hP hctx hctx'
      | _ => simp
  | graph hg =>
      cases h' with
      | graph hg' =>
          rw [Key.graph.injEq, Key.graph.injEq]
          exact hc.graph_unique hP hg hg'
      | _ => simp

/-- Two handles are the same thing exactly if their copies are. -/
theorem key_iff (hxy : x.Alike (c.renaming P) φ y) (hxy' : x'.Alike (c.renaming P) φ y') :
    x.key? = x'.key? ↔ y.key? = y'.key? := by
  have hkey := hxy.key
  have hkey' := hxy'.key
  generalize x.key? = k at hkey ⊢
  generalize y.key? = l at hkey ⊢
  generalize x'.key? = k' at hkey' ⊢
  generalize y'.key? = l' at hkey' ⊢
  cases hkey with
  | none =>
      cases hkey' with
      | none => simp
      | some _ => simp
  | some h =>
      cases hkey' with
      | none => simp
      | some h' =>
          rw [Option.some.injEq, Option.some.injEq]
          exact hc.key_unique hP h h'

end CopiedAll

end ScopeFlow
