import Mathlib.Data.Set.Function
import ScopeFlow.Graph.Duplicate
import ScopeFlow.Proofs.Clone.Correspondence
import ScopeFlow.Proofs.Graph.Reachable

/-!
# Duplicates

Duplicating what an operator leads to appends an image of it to the graph.

* `Copy.Scopeless` is a copying that has nothing to do with scopes, as that of
  operators is;
* `Graph.Carries` takes what an operator leads to into another graph, under
  other numbers; its listing is taken along (`Carries.reachable`);
* `Graph.Duplicated` says what a duplicate is: the new operators are an image,
  all else is as it was;
* `Graph.duplicate_isomorphic` puts it together, with what becomes of the
  check of the graph.
-/

namespace ScopeFlow

/-! ## Numbers -/

namespace Session

variable {σ : Session} {id other copy : OperatorId} {ids : List OperatorId} {base k : Nat}

theorem operator_mapOperator_self : (σ.mapOperator id copy).operator id = copy := by
  simp [mapOperator, operator]

theorem operator_mapOperator_ne (hne : other ≠ id) :
    (σ.mapOperator id copy).operator other = σ.operator other := by
  have hbeq : (other == id) = false := beq_false_of_ne hne
  simp [mapOperator, operator, List.lookup_cons, hbeq]

theorem operator_mapOperatorsFrom_of_notMem (hid : id ∉ ids) :
    (σ.mapOperatorsFrom base ids).operator id = σ.operator id := by
  induction ids generalizing σ base with
  | nil => rfl
  | cons first ids ih =>
    obtain ⟨hne, hid⟩ := not_or.mp (List.mem_cons.not.mp hid)
    rw [mapOperatorsFrom, ih hid, operator_mapOperator_ne hne]

/-- Of different numbers, each is mapped to that of its place. -/
theorem operator_mapOperatorsFrom (hnodup : ids.Nodup) (hk : ids[k]? = some id) :
    (σ.mapOperatorsFrom base ids).operator id = ⟨base + k⟩ := by
  induction ids generalizing σ base k with
  | nil => cases hk
  | cons first ids ih =>
    obtain ⟨hfirst, hnodup⟩ := List.nodup_cons.mp hnodup
    rw [mapOperatorsFrom]
    cases k with
    | zero =>
      cases hk
      rw [operator_mapOperatorsFrom_of_notMem hfirst, operator_mapOperator_self]
      rfl
    | succ k => rw [ih hnodup hk, Nat.add_right_comm, Nat.add_assoc]

/-- Different numbers are mapped to as many consecutive ones, one to one. -/
theorem bijOn_mapOperatorsFrom (hnodup : ids.Nodup) :
    Set.BijOn (σ.mapOperatorsFrom base ids).operator {id | id ∈ ids}
      {id | base ≤ id.index ∧ id.index < base + ids.length} := by
  refine .mk ?_ ?_ ?_
  · intro id hid
    obtain ⟨k, hk⟩ := List.mem_iff_getElem?.mp hid
    obtain ⟨hlt, -⟩ := List.getElem?_eq_some_iff.mp hk
    rw [operator_mapOperatorsFrom hnodup hk]
    exact ⟨Nat.le_add_right .., Nat.add_lt_add_left hlt base⟩
  · intro a ha b hb hab
    obtain ⟨k, hk⟩ := List.mem_iff_getElem?.mp ha
    obtain ⟨m, hm⟩ := List.mem_iff_getElem?.mp hb
    rw [operator_mapOperatorsFrom hnodup hk, operator_mapOperatorsFrom hnodup hm,
      OperatorId.mk.injEq, Nat.add_left_cancel_iff] at hab
    rw [hab, hm] at hk
    exact (Option.some.inj hk).symm
  · rintro ⟨n⟩ ⟨hle, hlt⟩
    obtain ⟨k, rfl⟩ := Nat.exists_eq_add_of_le hle
    have hk : k < ids.length := Nat.lt_of_add_lt_add_left hlt
    exact ⟨ids[k], List.getElem_mem hk,
      operator_mapOperatorsFrom hnodup (List.getElem?_eq_getElem hk)⟩

theorem mapOperatorsFrom_mapping (ops : List (OperatorId × OperatorId)) (base : Nat)
    (ids : List OperatorId) :
    ∃ ops', (mapping ops).mapOperatorsFrom base ids = mapping ops' := by
  induction ids generalizing ops base with
  | nil => exact ⟨ops, rfl⟩
  | cons id ids ih => exact ih ((id, ⟨base⟩) :: ops) (base + 1)

/-- The items that a session has copied, and nothing else. -/
def itemRenaming (σ : Session) : Renaming :=
  ⟨σ.itemTo, fun _ _ => False, fun _ _ => False, fun _ _ => False, fun _ => False⟩

end Session

/-! ## Copying without scopes -/

/-- The same state of copying over other scopes. -/
def Copying.over (c : Copying) (scopes : Array Scope) : Copying :=
  ⟨c.session, { c.heap with scopes }⟩

/-- The copying goes the same way over any scopes, and leaves them as they are. -/
def Copy.Scopeless {α : Type} (x : Copy α) : Prop :=
  ∀ c scopes, x (c.over scopes) = ((x c).1, (x c).2.over scopes)

namespace Copy.Scopeless

variable {α β : Type}

theorem pure (a : α) : Scopeless (Pure.pure a : Copy α) := fun _ _ => rfl

theorem session : Scopeless Copy.session := fun _ _ => rfl

theorem bind {x : Copy α} {f : α → Copy β} (hx : x.Scopeless) (hf : ∀ a, (f a).Scopeless) :
    (x >>= f).Scopeless := by
  intro c scopes
  rw [bind_apply, bind_apply, hx]
  exact hf _ _ _

end Copy.Scopeless

theorem ItemId.copy_scopeless (i : ItemId) : i.copy.Scopeless := by
  intro c scopes
  cases hi : c.session.items.lookup i with
  | some j => rw [copy_found hi, copy_found (c := c.over scopes) hi]
  | none =>
    rw [copy_fresh hi, copy_fresh (c := c.over scopes) hi]
    rfl

theorem copyItem?_scopeless (i? : Option ItemId) : (copyItem? i?).Scopeless := by
  cases i? with
  | none => exact .pure none
  | some i => exact i.copy_scopeless.bind fun _ => .pure _

theorem Parameter.copy_scopeless (p : Parameter) : p.copy.Scopeless :=
  (copyItem?_scopeless p.default).bind fun _ => (copyItem?_scopeless p.fixed).bind fun _ => .pure _

theorem copyParameterList_scopeless (ps : List Parameter) : (copyParameterList ps).Scopeless := by
  induction ps with
  | nil => exact .pure []
  | cons p ps ih => exact p.copy_scopeless.bind fun _ => ih.bind fun _ => .pure _

theorem Operator.copy_scopeless (op : Operator) : op.copy.Scopeless := by
  have hparameters : op.parameters.copy.Scopeless :=
    (copyParameterList_scopeless op.parameters.list).bind fun _ => .pure _
  exact hparameters.bind fun _ => .bind .session fun _ => .pure _

theorem copyOperators_scopeless (ops : List Operator) : (copyOperators ops).Scopeless := by
  induction ops with
  | nil => exact .pure []
  | cons op ops ih => exact op.copy_scopeless.bind fun _ => ih.bind fun _ => .pure _

/-! ## References of copies -/

@[simp] theorem OperatorKind.children_mapOperators (f : OperatorId → OperatorId)
    (kind : OperatorKind) : (kind.mapOperators f).children = kind.children.map f := by
  cases kind <;> simp [mapOperators, children, Option.toList_map]

@[simp] theorem Value.operator?_mapOperator (f : OperatorId → OperatorId) (v : Value) :
    (v.mapOperator f).operator? = v.operator?.map f := by
  cases v <;> rfl

theorem Heap.operatorsIn_map {h h' : Heap} {f : OperatorId → OperatorId}
    {R : ItemId → ItemId → Prop} {is js : List ItemId} (hij : List.Forall₂ R is js)
    (hvalue : ∀ {i j}, R i j → h'.value j = (h.value i).mapOperator f) :
    h'.operatorsIn js = (h.operatorsIn is).map f := by
  unfold Heap.operatorsIn
  induction hij with
  | nil => rfl
  | cons hij _ ih =>
    rw [List.filterMap_cons, List.filterMap_cons, hvalue hij, Value.operator?_mapOperator, ih]
    rename_i i _ _ _ _
    cases (h.value i).operator? <;> rfl

/-- An operator that is like another under other numbers refers to the same
under other numbers. -/
theorem Operator.references_map {h h' : Heap} {f : OperatorId → OperatorId} {ρ : Renaming}
    {op op' : Operator} (hop : (op.mapOperators f).Alike ρ op')
    (hvalue : ∀ {i j}, ρ.items i j → h'.value j = (h.value i).mapOperator f) :
    op'.references h' = (op.references h).map f := by
  have hheld := Heap.operatorsIn_map hop.parameters.forall₂_held hvalue
  have hsuccessor : op'.successor = op.successor.map f := hop.successor.symm
  have hkind : op'.kind = op.kind.mapOperators f := hop.kind.symm
  rw [references, references, hheld, hsuccessor, hkind, OperatorKind.children_mapOperators,
    Option.toList_map, List.map_append, List.map_append]
  rfl

namespace Graph

/-! ## What is taken along -/

/-- What an operator leads to is taken into another graph under other numbers,
references included. -/
structure Carries (g : Graph) (h : Heap) (start : OperatorId) (f : OperatorId → OperatorId)
    (g' : Graph) (h' : Heap) : Prop where
  injective : Set.InjOn f {id | g.LeadsTo h start id}
  operator : ∀ {id}, g.LeadsTo h start id → ∃ op op', g.get? id = some op ∧
    g'.get? (f id) = some op' ∧ op'.references h' = (op.references h).map f

section

variable {g g' : Graph} {h h' : Heap} {start id : OperatorId} {f : OperatorId → OperatorId}
  {seen queue ids : List OperatorId}

/-- A listing under way is taken along. The induction is on its turns. -/
theorem Carries.reachFrom (hc : g.Carries h start f g' h')
    (hseen : ∀ id ∈ seen, g.LeadsTo h start id) (hqueue : ∀ id ∈ queue, g.LeadsTo h start id) :
    g'.reachFrom h' (seen.map f) (queue.map f) = (g.reachFrom h seen queue).map (List.map f) := by
  induction seen, queue using reachFrom.induct g h with
  | case1 seen =>
    rw [List.map_nil, reachFrom_nil, reachFrom_nil, ← List.map_reverse]
    rfl
  | case2 seen id rest hid ih =>
    rw [List.map_cons, reachFrom_seen hid, reachFrom_seen (List.mem_map_of_mem hid)]
    exact ih hseen (List.forall_mem_of_forall_mem_cons hqueue)
  | case3 seen id rest _ hop =>
    obtain ⟨op, -, hop', -⟩ := hc.operator (hqueue id List.mem_cons_self)
    rw [hop] at hop'
    cases hop'
  | case4 seen id rest hid op hop ih =>
    have hto := hqueue id List.mem_cons_self
    obtain ⟨_, op', hop₂, hop', hrefs⟩ := hc.operator hto
    obtain rfl := Option.some.inj (hop.symm.trans hop₂)
    have hnew : f id ∉ seen.map f := by
      intro hmem
      obtain ⟨other, hother, heq⟩ := List.mem_map.mp hmem
      exact hid (hc.injective (hseen other hother) hto heq ▸ hother)
    rw [List.map_cons, reachFrom_list hid hop, reachFrom_list hnew hop', hrefs, ← List.map_append,
      ← List.map_cons]
    refine ih (List.forall_mem_cons.mpr ⟨hto, hseen⟩) fun b hb => ?_
    rcases List.mem_append.mp hb with hb | hb
    · exact hqueue b (List.mem_cons_of_mem _ hb)
    · exact hto.next ⟨op, hop, hb⟩

/-- The listing is taken along, in its order. -/
theorem Carries.reachable (hc : g.Carries h start f g' h') (hids : g.reachable h start = .ok ids) :
    g'.reachable h' (f start) = .ok (ids.map f) := by
  have hnone : ∀ id ∈ ([] : List OperatorId), g.LeadsTo h start id := nofun
  have hlist := hc.reachFrom hnone (List.forall_mem_singleton.mpr leadsTo_start)
  rw [Graph.reachable] at hids
  rw [hids] at hlist
  exact hlist

end

/-! ## The duplicate -/

theorem appendCopies_apply (g : Graph) (ids : List OperatorId) (c : Copying) :
    g.appendCopies ids c =
      let copied := copyOperators (ids.filterMap g.get?)
        { c with session := c.session.mapOperatorsFrom g.size ids }
      ({ g with operators := g.operators ++ copied.1.toArray }, copied.2) :=
  rfl

variable {g g' : Graph} {h : Heap} {start id : OperatorId} {c : Copying}
  {ids : List OperatorId} {op : Operator} {i : ItemId} {b : OperatorId}

theorem duplicate_of_reachable (hids : g.reachable c.heap start = .ok ids) :
    g.duplicate start c =
      (.ok ((g.appendCopies ids c).2.session.operator start, (g.appendCopies ids c).1),
        (g.appendCopies ids c).2) := by
  unfold duplicate
  rw [Act.bind_apply, Act.look_apply, hids]
  rfl

theorem duplicate_of_error {failure : Failure} (hids : g.reachable c.heap start = .error failure) :
    g.duplicate start c = (.error failure, c) := by
  unfold duplicate
  rw [Act.bind_apply, Act.look_apply, hids]

/-- The numbers of a graph, one by one. -/
theorem forall₂_get? (hknown : ∀ id ∈ ids, g.has id = true) :
    List.Forall₂ (fun id op => g.get? id = some op) ids (ids.filterMap g.get?) := by
  induction ids with
  | nil => exact .nil
  | cons id ids ih =>
    obtain ⟨op, hop⟩ := has_iff.mp (hknown id List.mem_cons_self)
    rw [List.filterMap_cons_some hop]
    exact .cons hop (ih fun other hother => hknown other (List.mem_cons_of_mem _ hother))

/-- A graph with an image of what an operator of it leads to: the session maps
the numbers of the image, and the items that the image holds. -/
structure Duplicated (g : Graph) (h : Heap) (start : OperatorId) (g' : Graph) (c : Copying) :
    Prop where
  /-- What is led to is mapped onto the new numbers, one to one. -/
  numbers : Set.BijOn c.session.operator {id | g.LeadsTo h start id}
    {id | g.size ≤ id.index ∧ id.index < g'.size}
  /-- An operator and its copy differ in the numbers and items in them alone. -/
  operator : ∀ {id op}, g.LeadsTo h start id → g.get? id = some op →
    ∃ op', g'.get? (c.session.operator id) = some op' ∧
      (op.mapOperators c.session.operator).Alike c.session.itemRenaming op'
  /-- A copied item is new, and has the value of the original under the mapping. -/
  item : ∀ {i j}, c.session.itemTo i j → h.items.size ≤ j.index ∧ j.index < c.heap.items.size ∧
    c.heap.value j = (h.value i).mapOperator c.session.operator
  /-- Different items have different copies. -/
  item_inj : ∀ {i i' j}, c.session.itemTo i j → c.session.itemTo i' j → i = i'
  original : ∀ id, id.index < g.size → g'.get? id = g.get? id
  name : g'.name = g.name
  parameters : g'.parameters = g.parameters
  initial : g'.initial = g.initial
  kept : h.Kept c.heap

/-- Copies of operators in a session that has copied nothing yet. No scope
matters to them, so the invariant of copying holds over a heap without any. -/
theorem copyOperators_alike (ops : List Operator) (table : List (OperatorId × OperatorId))
    (hheld : ∀ op ∈ ops, ∀ i ∈ op.parameters.held, i.index < h.items.size) :
    let φ := (Session.mapping table).operator
    ∃ ops' c, copyOperators ops ⟨.mapping table, h⟩ = (ops', c) ∧
      List.Forall₂ (fun op op' => (op.mapOperators φ).Alike c.session.itemRenaming op') ops ops' ∧
      c.session.operator = φ ∧ h.Kept c.heap ∧
      (∀ {i j}, c.session.itemTo i j → h.items.size ≤ j.index ∧ j.index < c.heap.items.size ∧
        c.heap.value j = (h.value i).mapOperator φ) ∧
      ∀ {i i' j}, c.session.itemTo i j → c.session.itemTo i' j → i = i' := by
  intro φ
  let bare : Heap := { h with scopes := #[] }
  let P : Region := ⟨fun i => i.index < h.items.size, fun _ => False, fun _ => False,
    fun _ => False⟩
  have hP : P.Closed bare :=
    { item := id, scope := nofun, sorted := nofun, bound := nofun, child := nofun, graph := nofun,
      held := nofun, graph_id := nofun, context := nofun, context_id := nofun,
      rooted := nofun, ranked := ⟨fun _ => 0, nofun⟩ }
  obtain ⟨hadv, halike⟩ := copyOperators_yields (G := fun _ => False) (C := fun _ => False) hP ops
    hheld ⟨.mapping table, bare⟩ (.start hP table) .refl
  have hrun := copyOperators_scopeless ops ⟨.mapping table, bare⟩ h.scopes
  have hcopied := hadv.copied
  have hitems : ((copyOperators ops ⟨.mapping table, bare⟩).2.renaming P).Within
      (copyOperators ops ⟨.mapping table, bare⟩).2.session.itemRenaming :=
    ⟨id, fun hst => (hcopied.scope hst).1, fun hg => hg.1, fun hx => hx.1, id⟩
  refine ⟨_, _, hrun, halike.imp fun _ _ hop => hop.mono hitems, hcopied.operators, ?_,
    fun hij => (hcopied.item hij).2, hcopied.item_inj⟩
  exact { hcopied.kept with scopes := Nat.le_refl _, scope := fun _ => rfl }

theorem mem_held (hop : g.get? id = some op) (hi : i ∈ op.parameters.held) : i ∈ g.held :=
  List.mem_append_right _ (List.mem_flatMap.mpr
    ⟨op, Array.mem_toList_iff.mpr (Array.mem_of_getElem? hop), hi⟩)

/-- The graph with the copies of what an operator leads to is a duplicate. -/
theorem duplicated_of_reachable (hheld : ∀ i ∈ g.held, i.index < h.items.size)
    (hids : g.reachable h start = .ok ids) :
    g.Duplicated h start (g.appendCopies ids ⟨.empty, h⟩).1 (g.appendCopies ids ⟨.empty, h⟩).2 := by
  have hbreadth := breadthFirst_of_reachable hids
  have hget := forall₂_get? hbreadth.known
  obtain ⟨table, htable⟩ := Session.mapOperatorsFrom_mapping [] g.size ids
  obtain ⟨ops', c, hrun, halike, hφ, hkept, hitem, hinj⟩ :=
    copyOperators_alike (h := h) (ids.filterMap g.get?) table fun op hop i hi => by
      obtain ⟨id, -, hid⟩ := List.mem_filterMap.mp hop
      exact hheld i (mem_held hid hi)
  rw [← hφ] at halike hitem
  have happend : g.appendCopies ids ⟨.empty, h⟩ =
      ({ g with operators := g.operators ++ ops'.toArray }, c) := by
    have hstart : (Session.empty.mapOperatorsFrom g.size ids) = .mapping table := htable
    rw [appendCopies_apply, hstart, hrun]
  have hφ : c.session.operator = (Session.empty.mapOperatorsFrom g.size ids).operator := by
    rw [hφ, ← htable]
    rfl
  have hsize : (g.operators ++ ops'.toArray).size = g.size + ids.length := by
    rw [Array.size_append, hget.length_eq, halike.length_eq]
    rfl
  have hled : {id | g.LeadsTo h start id} = {id | id ∈ ids} :=
    Set.ext fun id => (hbreadth.mem_iff id).symm
  rw [happend]
  refine ⟨?_, fun {id op} hid hop => ?_, hitem, hinj, fun id => Array.getElem?_append_left, rfl,
    rfl, rfl, hkept⟩
  · show Set.BijOn c.session.operator _
      {id | g.size ≤ id.index ∧ id.index < (g.operators ++ ops'.toArray).size}
    rw [hsize, hled, hφ]
    exact Session.bijOn_mapOperatorsFrom hbreadth.nodup
  · obtain ⟨k, hk⟩ := List.mem_iff_getElem?.mp ((hbreadth.mem_iff id).mpr hid)
    obtain ⟨op₂, hk₂, hop₂⟩ := rel_some_left (forall₂_getElem? hget k) hk
    obtain rfl := Option.some.inj (hop.symm.trans hop₂)
    obtain ⟨op', hk', hop'⟩ := rel_some_left (forall₂_getElem? halike k) hk₂
    refine ⟨op', ?_, hop'⟩
    rw [hφ, Session.operator_mapOperatorsFrom hbreadth.nodup hk]
    show (g.operators ++ ops'.toArray)[g.operators.size + k]? = some op'
    rw [Array.getElem?_append_right (Nat.le_add_right ..), Nat.add_sub_cancel_left,
      List.getElem?_toArray]
    exact hk'

namespace Duplicated

/-! ### What a duplicate is like -/

section

variable (hd : g.Duplicated h start g' c)
include hd

theorem has_of_has (hid : g.has id = true) : g'.has id = true := by
  rw [has, hd.original id (has_iff_lt.mp hid)]
  exact hid

theorem carries (hknown : ∀ id, g.LeadsTo h start id → g.has id = true) :
    g.Carries h start c.session.operator g' c.heap where
  injective := hd.numbers.injOn
  operator := fun hid => by
    obtain ⟨op, hop⟩ := has_iff.mp (hknown _ hid)
    obtain ⟨op', hop', halike⟩ := hd.operator hid hop
    exact ⟨op, op', hop, hop', Operator.references_map halike fun hij => (hd.item hij).2.2⟩

/-- A new operator is the copy of one that is led to. -/
theorem of_new (hknown : ∀ id, g.LeadsTo h start id → g.has id = true) (hid : g.size ≤ id.index)
    (hop : g'.get? id = some op) : ∃ a original, g.LeadsTo h start a ∧ g.get? a = some original ∧
      (original.mapOperators c.session.operator).Alike c.session.itemRenaming op := by
  obtain ⟨a, ha, rfl⟩ := hd.numbers.surjOn ⟨hid, index_lt_of_get? hop⟩
  obtain ⟨original, horiginal⟩ := has_iff.mp (hknown a ha)
  obtain ⟨op', hop', halike⟩ := hd.operator ha horiginal
  obtain rfl := Option.some.inj (hop'.symm.trans hop)
  exact ⟨a, original, ha, horiginal, halike⟩

/-- A copy refers to copies. -/
theorem reference_new (hknown : ∀ id, g.LeadsTo h start id → g.has id = true)
    (hid : g.size ≤ id.index) (hop : g'.get? id = some op) (hb : b ∈ op.references c.heap) :
    g.size ≤ b.index ∧ b.index < g'.size := by
  obtain ⟨a, original, ha, horiginal, halike⟩ := hd.of_new hknown hid hop
  rw [Operator.references_map halike fun hij => (hd.item hij).2.2] at hb
  obtain ⟨b₀, hb₀, rfl⟩ := List.mem_map.mp hb
  exact hd.numbers.mapsTo (ha.next ⟨original, horiginal, hb₀⟩)

/-- A copy holds new items. -/
theorem held_new (hknown : ∀ id, g.LeadsTo h start id → g.has id = true)
    (hid : g.size ≤ id.index) (hop : g'.get? id = some op) (hi : i ∈ op.parameters.held) :
    h.items.size ≤ i.index := by
  obtain ⟨a, original, -, -, halike⟩ := hd.of_new hknown hid hop
  obtain ⟨_, -, hitem⟩ := forall₂_mem halike.parameters.forall₂_held.flip hi
  exact (hd.item hitem).1

theorem operatorsIn_eq {is : List ItemId} (his : ∀ i ∈ is, i.index < h.items.size) :
    c.heap.operatorsIn is = h.operatorsIn is :=
  List.filterMap_congr fun i hi => congrArg Value.operator? (hd.kept.value (his i hi))

/-- The originals refer to what they referred to. -/
theorem refers_iff (hheld : ∀ i ∈ g.held, i.index < h.items.size) (hid : id.index < g.size) :
    g'.Refers c.heap id b ↔ g.Refers h id b := by
  unfold Refers
  rw [hd.original id hid]
  refine exists_congr fun op => and_congr_right fun hop => ?_
  rw [Operator.references, hd.operatorsIn_eq fun i hi => hheld i (mem_held hop hi)]
  rfl

/-- The check passes if what the graph referred to is now in it. -/
theorem validate_iff (hheld : ∀ i ∈ g.held, i.index < h.items.size)
    (hknown : ∀ id, g.LeadsTo h start id → g.has id = true) :
    g'.validate c.heap = .ok () ↔ ∀ id ∈ g.allReferences h, g'.has id = true := by
  have hown : c.heap.operatorsIn g'.parameters.held = h.operatorsIn g.parameters.held := by
    rw [hd.parameters]
    exact hd.operatorsIn_eq fun i hi => hheld i (List.mem_append_left _ hi)
  rw [validate_eq_ok_iff]
  simp only [mem_allReferences, hd.initial, hown]
  constructor
  · rintro hall b (hinitial | ⟨a, hab⟩ | hb)
    · exact hall b (.inl hinitial)
    · obtain ⟨op, hop, -⟩ := id hab
      exact hall b (.inr (.inl ⟨a, (hd.refers_iff hheld (index_lt_of_get? hop)).mpr hab⟩))
    · exact hall b (.inr (.inr hb))
  · rintro hall b (hinitial | ⟨a, hab⟩ | hb)
    · exact hall b (.inl hinitial)
    · rcases Nat.lt_or_ge a.index g.size with hlt | hge
      · exact hall b (.inr (.inl ⟨a, (hd.refers_iff hheld hlt).mp hab⟩))
      · obtain ⟨op, hop, hb⟩ := hab
        exact has_iff_lt.mpr (hd.reference_new hknown hge hop hb).2
    · exact hall b (.inr (.inr hb))

end

end Duplicated

/-- **Duplicates.** Where all that an operator leads to is in the graph, the
duplicate is an image of it among the new operators, listed in the order of the
originals, that refers to nothing and holds nothing of the originals. The check
passes on the longer graph if all that was referred to before is in it by now,
and so if it passed before. Where something that the operator leads to is not
in the graph, duplicating fails over such a number and changes nothing. -/
theorem duplicate_isomorphic (g : Graph) (h : Heap) (start : OperatorId)
    (hheld : ∀ i ∈ g.held, i.index < h.items.size) :
    ((∀ id, g.LeadsTo h start id → g.has id = true) →
      ∃ ids g' c, g.reachable h start = .ok ids ∧
        g.duplicate start ⟨.empty, h⟩ = (.ok (c.session.operator start, g'), c) ∧
        g.Duplicated h start g' c ∧
        g'.reachable c.heap (c.session.operator start) = .ok (ids.map c.session.operator) ∧
        (∀ id op, g.size ≤ id.index → g'.get? id = some op →
          (∀ b ∈ op.references c.heap, g.size ≤ b.index) ∧
            ∀ i ∈ op.parameters.held, i ∉ g.held) ∧
        (g'.validate c.heap = .ok () ↔ ∀ id ∈ g.allReferences h, g'.has id = true) ∧
        (g.validate h = .ok () → g'.validate c.heap = .ok ())) ∧
      ((∃ id, g.LeadsTo h start id ∧ g.has id = false) →
        ∃ id, g.LeadsTo h start id ∧ g.has id = false ∧
          ∀ σ, g.duplicate start ⟨σ, h⟩ = (.error (.unknownOperator id), ⟨σ, h⟩)) := by
  constructor
  · intro hknown
    obtain ⟨ids, hids⟩ := reachable_ok_iff.mpr hknown
    have hd := duplicated_of_reachable hheld hids
    have hvalid := hd.validate_iff hheld hknown
    refine ⟨ids, _, _, hids, duplicate_of_reachable hids, hd, (hd.carries hknown).reachable hids,
      fun id op hid hop =>
        ⟨fun b hb => (hd.reference_new hknown hid hop hb).1, fun i hi hold => ?_⟩,
      hvalid, fun hbefore => hvalid.mpr fun id hid => ?_⟩
    · exact Nat.not_lt.mpr (hd.held_new hknown hid hop hi) (hheld i hold)
    · exact hd.has_of_has (validate_eq_ok_iff.mp hbefore id hid)
  · rintro ⟨stray, hstray, hnot⟩
    rcases g.reachable_cases h start with ⟨ids, hids, -⟩ | ⟨id, hid, hto, hnone⟩
    · rw [reachable_ok_iff.mp ⟨ids, hids⟩ stray hstray] at hnot
      cases hnot
    · exact ⟨id, hto, hnone, fun σ => duplicate_of_error (c := ⟨σ, h⟩) hid⟩

end Graph

namespace Sample

/-- The tangle is duplicated as a whole, and the frayed one not at all. -/
theorem duplicate_tangle :
    (∀ i ∈ tangle.held, i.index < tangleHeap.items.size) ∧
      (∀ id, tangle.LeadsTo tangleHeap ⟨0⟩ id → tangle.has id = true) ∧
      tangle.validate tangleHeap = .ok () ∧
      (∃ g' c, tangle.duplicate ⟨0⟩ ⟨.empty, tangleHeap⟩ = (.ok (⟨4⟩, g'), c) ∧
        tangle.Duplicated tangleHeap ⟨0⟩ g' c ∧
        g'.reachable c.heap ⟨4⟩ = .ok [⟨4⟩, ⟨5⟩, ⟨6⟩, ⟨7⟩] ∧ g'.validate c.heap = .ok ()) ∧
      frayedTangle.LeadsTo tangleHeap ⟨4⟩ ⟨9⟩ ∧ frayedTangle.has ⟨9⟩ = false ∧
      ∃ id, frayedTangle.has id = false ∧ ∀ σ,
        frayedTangle.duplicate ⟨4⟩ ⟨σ, tangleHeap⟩ =
          (.error (.unknownOperator id), ⟨σ, tangleHeap⟩) := by
  have hids : tangle.reachable tangleHeap ⟨0⟩ = .ok [⟨0⟩, ⟨1⟩, ⟨2⟩, ⟨3⟩] :=
    Graph.reachFrom_of_within 7 (by decide)
  have hheld : ∀ i ∈ tangle.held, i.index < tangleHeap.items.size := by decide
  have hfrayed : ∀ i ∈ frayedTangle.held, i.index < tangleHeap.items.size := by decide
  have hknown := Graph.reachable_ok_iff.mp ⟨_, hids⟩
  have hvalid : tangle.validate tangleHeap = .ok () := by decide
  have hstray : frayedTangle.LeadsTo tangleHeap ⟨4⟩ ⟨9⟩ :=
    Graph.leadsTo_start.next ⟨_, rfl, List.mem_cons_self⟩
  obtain ⟨ids, g', c, hids', hdup, hd, hlist, -, -, hstill⟩ :=
    (Graph.duplicate_isomorphic tangle tangleHeap ⟨0⟩ hheld).1 hknown
  obtain rfl := Except.ok.inj (hids.symm.trans hids')
  obtain ⟨id, -, hnot, hfails⟩ :=
    (Graph.duplicate_isomorphic frayedTangle tangleHeap ⟨4⟩ hfrayed).2 ⟨_, hstray, rfl⟩
  obtain ⟨hanswer, rfl⟩ := Prod.mk.inj ((Graph.duplicate_of_reachable hids).symm.trans hdup)
  obtain ⟨-, rfl⟩ := Prod.mk.inj (Except.ok.inj hanswer)
  exact ⟨hheld, hknown, hvalid, ⟨_, _, hdup, hd, hlist, hstill hvalid⟩, hstray, rfl, id, hnot,
    hfails⟩

/-- An operator, and a sequence of one that is not there yet. -/
def loose : Graph :=
  ⟨"Loose", .empty, #[⟨"Alone", .empty, none, .empty⟩, ⟨"Before", .empty, none, .sequential [⟨2⟩]⟩],
    none⟩

/-- A duplicate may take the very number that was missing: the check fails on
the loose graph, and passes once the first operator is duplicated. -/
theorem duplicate_fills_gap :
    (∀ id, loose.LeadsTo .empty ⟨0⟩ id → loose.has id = true) ∧
      loose.validate .empty = .error (.unknownOperator ⟨2⟩) ∧
      ∃ g' c, loose.duplicate ⟨0⟩ ⟨.empty, .empty⟩ = (.ok (⟨2⟩, g'), c) ∧
        g'.validate c.heap = .ok () := by
  have hids : loose.reachable .empty ⟨0⟩ = .ok [⟨0⟩] := Graph.reachFrom_of_within 1 (by decide)
  have hrun := Graph.duplicate_of_reachable (c := ⟨.empty, .empty⟩) hids
  exact ⟨Graph.reachable_ok_iff.mp ⟨_, hids⟩, by decide, _, _, hrun, by decide⟩

end Sample

end ScopeFlow
