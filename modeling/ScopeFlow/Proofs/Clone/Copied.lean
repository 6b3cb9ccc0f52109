import ScopeFlow.Clone.Deep
import ScopeFlow.Proofs.Likeness.Heap

/-!
# Heaps in the course of copying

A region is a part of a heap that nothing leads out of. `Copied` is the
invariant of a session that copies from a region: what was there is kept, and
whatever is registered has a copy of its own, made since. The content of a
copied scope is that of the original, up to the session, unless the scope is
still being copied; such a scope is called busy. The numbers of operators are
mapped as the session says, which does not change while things are copied.

`Later` is what a step of copying may do to what has been copied before.
-/

namespace ScopeFlow

/-- A part of a heap. -/
structure Region where
  items : ItemId → Prop
  scopes : ScopeId → Prop
  graphs : SharedGraph → Prop
  contexts : Context → Prop

/-- The items that the declarations of a graph hold. -/
def Graph.held (g : Graph) : List ItemId :=
  g.parameters.held ++ g.operators.toList.flatMap fun op => op.parameters.held

/-- What a context refers to lies in the region. -/
def Context.PartsIn (P : Region) : Context → Prop
  | root _ g s => P.graphs g ∧ P.scopes s
  | frame _ _ s _ p => P.scopes s ∧ P.contexts p

/-- A region that nothing leads out of, downwards. -/
structure Region.Closed (P : Region) (h : Heap) : Prop where
  item : ∀ {i}, P.items i → i.index < h.items.size
  scope : ∀ {s}, P.scopes s → s.index < h.scopes.size
  sorted : ∀ {s}, P.scopes s → (h.scope s).bindings.Sorted
  bound : ∀ {s}, P.scopes s → ∀ entry ∈ (h.scope s).bindings.entries, P.items entry.2
  child : ∀ {s}, P.scopes s → ∀ c ∈ (h.scope s).children, P.scopes c
  graph : ∀ {g}, P.graphs g → g.id.index < h.graphs
  held : ∀ {g}, P.graphs g → ∀ i ∈ g.graph.held, P.items i
  graph_id : ∀ {g g'}, P.graphs g → P.graphs g' → g.id = g'.id → g = g'
  context : ∀ {c}, P.contexts c → c.id.index < h.contexts ∧ c.PartsIn P
  context_id : ∀ {c c'}, P.contexts c → P.contexts c' → c.id = c'.id → c = c'
  rooted : h.Rooted
  ranked : h.Ranked P.scopes

/-! ## Sessions -/

/-- The item has been copied to that one. -/
def Session.itemTo (σ : Session) (i j : ItemId) : Prop := σ.items.lookup i = some j

/-- The scope has been copied to that one. -/
def Session.scopeTo (σ : Session) (s t : ScopeId) : Prop := σ.scopes.lookup s = some t

theorem Session.scopeTo_congr {σ τ : Session} (h : τ.scopes = σ.scopes) :
    τ.scopeTo = σ.scopeTo := by
  funext s t
  rw [scopeTo, scopeTo, h]

/-- The content of a scope and of its copy. -/
structure Scope.CopiedTo (σ : Session) (node node' : Scope) : Prop where
  name : node.name = node'.name
  bindings : List.Forall₂ (SameEntry σ.itemTo) node.bindings.entries node'.bindings.entries
  children : List.Forall₂ σ.scopeTo node.children node'.children

/-- Two states of a scope that differ in the parent, at most. -/
structure Scope.SameContent (node node' : Scope) : Prop where
  name : node.name = node'.name
  bindings : node.bindings = node'.bindings
  children : node.children = node'.children

theorem Scope.SameContent.refl {node : Scope} : node.SameContent node := ⟨rfl, rfl, rfl⟩

theorem Scope.SameContent.trans {x y z : Scope} (h : x.SameContent y) (h' : y.SameContent z) :
    x.SameContent z :=
  ⟨h.name.trans h'.name, h.bindings.trans h'.bindings, h.children.trans h'.children⟩

theorem Scope.CopiedTo.congr {σ : Session} {node x y : Scope} (h : node.CopiedTo σ x)
    (hxy : x.SameContent y) : node.CopiedTo σ y :=
  ⟨h.name.trans hxy.name, hxy.bindings ▸ h.bindings, hxy.children ▸ h.children⟩

theorem Scope.CopiedTo.mono {σ τ : Session} {node node' : Scope} (h : node.CopiedTo σ node')
    (hitem : ∀ {i j}, σ.itemTo i j → τ.itemTo i j)
    (hscope : ∀ {s t}, σ.scopeTo s t → τ.scopeTo s t) : node.CopiedTo τ node' :=
  ⟨h.name, h.bindings.imp fun _ _ he => ⟨he.1, hitem he.2⟩, h.children.imp fun _ _ => hscope⟩

/-- The invariant of copying from a region in a session that maps operators by
`φ`. -/
structure Copied (P : Region) (φ : OperatorId → OperatorId) (h₀ : Heap) (busy : ScopeId → Prop)
    (c : Copying) : Prop where
  kept : h₀.Kept c.heap
  rooted : c.heap.Rooted
  item : ∀ {i j}, c.session.itemTo i j → P.items i ∧ h₀.items.size ≤ j.index ∧
    j.index < c.heap.items.size ∧ c.heap.value j = (h₀.value i).mapOperator φ
  item_inj : ∀ {i i' j}, c.session.itemTo i j → c.session.itemTo i' j → i = i'
  scope : ∀ {s t}, c.session.scopeTo s t → P.scopes s ∧ h₀.scopes.size ≤ t.index ∧
    t.index < c.heap.scopes.size ∧
      ∀ q, (c.heap.scope t).parent = some q → ∃ p, c.session.scopeTo p q
  scope_inj : ∀ {s s' t}, c.session.scopeTo s t → c.session.scopeTo s' t → s = s'
  content : ∀ {s t}, c.session.scopeTo s t → ¬ busy s →
    (h₀.scope s).CopiedTo c.session (c.heap.scope t)
  madeItem : ∀ {j}, h₀.items.size ≤ j.index → j.index < c.heap.items.size →
    ∃ i, c.session.itemTo i j
  madeScope : ∀ {t}, h₀.scopes.size ≤ t.index → t.index < c.heap.scopes.size →
    ∃ s, c.session.scopeTo s t
  itemKeys : (c.session.items.map Prod.fst).Nodup
  scopeKeys : (c.session.scopes.map Prod.fst).Nodup
  operators : c.session.operator = φ

namespace Copied

variable {P : Region} {φ : OperatorId → OperatorId} {h₀ : Heap} {busy : ScopeId → Prop}
  {c : Copying} {i i' j j' : ItemId} {s s' t t' : ScopeId}

/-- Items and their copies correspond one to one. -/
theorem item_iff (hc : Copied P φ h₀ busy c) (hij : c.session.itemTo i j)
    (hij' : c.session.itemTo i' j') : i = i' ↔ j = j' := by
  constructor
  · rintro rfl
    exact Option.some.inj (hij.symm.trans hij')
  · rintro rfl
    exact hc.item_inj hij hij'

/-- So do scopes and theirs. -/
theorem scope_iff (hc : Copied P φ h₀ busy c) (hst : c.session.scopeTo s t)
    (hst' : c.session.scopeTo s' t') : s = s' ↔ t = t' := by
  constructor
  · rintro rfl
    exact Option.some.inj (hst.symm.trans hst')
  · rintro rfl
    exact hc.scope_inj hst hst'

end Copied

/-- A session in which nothing has been copied, with numbers mapped as told. -/
def Session.mapping (ops : List (OperatorId × OperatorId)) : Session := ⟨[], [], [], [], ops⟩

/-- The invariant holds before anything is copied. -/
theorem Copied.start {P : Region} {h₀ : Heap} {busy : ScopeId → Prop} (hr : h₀.Rooted)
    (ops : List (OperatorId × OperatorId)) :
    Copied P (Session.mapping ops).operator h₀ busy ⟨.mapping ops, h₀⟩ where
  kept := .refl
  rooted := hr
  item := fun h => by cases h
  item_inj := fun h => by cases h
  scope := fun h => by cases h
  scope_inj := fun h => by cases h
  content := fun h => by cases h
  madeItem := fun hle hlt => absurd hlt (Nat.not_lt.mpr hle)
  madeScope := fun hle hlt => absurd hlt (Nat.not_lt.mpr hle)
  itemKeys := .nil
  scopeKeys := .nil
  operators := rfl

/-- The invariant holds before anything is copied in an empty session. -/
theorem Copied.start_empty {P : Region} {h₀ : Heap} {busy : ScopeId → Prop} (hr : h₀.Rooted) :
    Copied P id h₀ busy ⟨.empty, h₀⟩ :=
  .start hr []

/-- What has been copied stays so, and only the content of some scopes made
before changes. -/
structure Copying.Later (own : ScopeId → Prop) (c c' : Copying) : Prop where
  item : ∀ {i j}, c.session.itemTo i j → c'.session.itemTo i j
  scope : ∀ {s t}, c.session.scopeTo s t → c'.session.scopeTo s t
  graphs : c'.session.graphs = c.session.graphs
  contexts : c'.session.contexts = c.session.contexts
  graphCount : c'.heap.graphs = c.heap.graphs
  contextCount : c'.heap.contexts = c.heap.contexts
  size : c.heap.scopes.size ≤ c'.heap.scopes.size
  content : ∀ {t}, t.index < c.heap.scopes.size → ¬ own t →
    (c.heap.scope t).SameContent (c'.heap.scope t)

namespace Copying.Later

variable {own own' : ScopeId → Prop} {c c' c'' : Copying}

theorem refl : Later own c c :=
  ⟨id, id, rfl, rfl, rfl, rfl, Nat.le_refl _, fun _ _ => .refl⟩

/-- One step after another, where what the second one owns was not made
before, or is owned by both. -/
theorem trans (h : Later own c c') (h' : Later own' c' c'')
    (hown : ∀ t, t.index < c.heap.scopes.size → own' t → own t) : Later own c c'' where
  item := h'.item ∘ h.item
  scope := h'.scope ∘ h.scope
  graphs := h'.graphs.trans h.graphs
  contexts := h'.contexts.trans h.contexts
  graphCount := h'.graphCount.trans h.graphCount
  contextCount := h'.contextCount.trans h.contextCount
  size := Nat.le_trans h.size h'.size
  content := by
    intro t ht hno
    exact (h.content ht hno).trans
      (h'.content (Nat.lt_of_lt_of_le ht h.size) fun hown' => hno (hown t ht hown'))

theorem mono (h : Later own c c') (hown : ∀ t, own t → own' t) : Later own' c c' :=
  { h with content := fun ht hno => h.content ht fun hown' => hno (hown _ hown') }

theorem copiedTo (h : Later own c c') {node node' : Scope} (hc : node.CopiedTo c.session node') :
    node.CopiedTo c'.session node' :=
  hc.mono h.item h.scope

end Copying.Later

/-! ## Associations -/

theorem lookup_cons_iff {α β : Type} [DecidableEq α] {a x : α} {b y : β} {l : List (α × β)} :
    ((a, b) :: l).lookup x = some y ↔ x = a ∧ b = y ∨ x ≠ a ∧ l.lookup x = some y := by
  by_cases hx : x = a
  · subst hx
    simp
  · have hbeq : (x == a) = false := by simp [hx]
    simp [List.lookup_cons, hbeq, hx]

theorem mem_keys_iff {α β : Type} [DecidableEq α] {a : α} {l : List (α × β)} :
    a ∈ l.map Prod.fst ↔ ∃ b, l.lookup a = some b := by
  rw [← Option.isSome_iff_exists, List.lookup_isSome_iff]
  simp

theorem not_mem_keys {α β : Type} [DecidableEq α] {a : α} {l : List (α × β)}
    (h : l.lookup a = none) : a ∉ l.map Prod.fst := by
  rw [mem_keys_iff, h]
  simp

/-! ## Copying as a function -/

namespace Copy

variable {α β : Type}

theorem bind_apply (x : Copy α) (f : α → Copy β) (c : Copying) :
    (x >>= f) c = f (x c).1 (x c).2 := rfl

theorem session_apply (c : Copying) : Copy.session c = (c.session, c) := rfl

end Copy

/-! ## Items -/

theorem ItemId.copy_found {i j : ItemId} {c : Copying} (h : c.session.itemTo i j) :
    i.copy c = (j, c) := by
  rw [Session.itemTo] at h
  simp only [ItemId.copy, Copy.bind_apply, Copy.session_apply, h]
  rfl

theorem ItemId.copy_fresh {i : ItemId} {c : Copying} (h : c.session.items.lookup i = none) :
    i.copy c = (⟨c.heap.items.size⟩,
      ⟨{ c.session with items := (i, ⟨c.heap.items.size⟩) :: c.session.items },
        (c.heap.newItem ((c.heap.value i).mapOperator c.session.operator)).2⟩) := by
  rw [ItemId.copy, Copy.bind_apply]
  simp only [Copy.session_apply, h]
  rfl

theorem Value.mapOperator_id (v : Value) : v.mapOperator id = v := by
  cases v <;> rfl

section

variable {P : Region} {φ : OperatorId → OperatorId} {h₀ : Heap} {busy : ScopeId → Prop}
  {c : Copying}

/-- No scope is touched by copying an item. -/
theorem ItemId.copy_scopes (i : ItemId) (c : Copying) :
    (i.copy c).2.heap.scopes = c.heap.scopes ∧ (i.copy c).2.session.scopes = c.session.scopes := by
  cases hi : c.session.items.lookup i with
  | some j =>
      rw [ItemId.copy_found hi]
      exact ⟨rfl, rfl⟩
  | none =>
      rw [ItemId.copy_fresh hi]
      exact ⟨rfl, rfl⟩

/-- The session has the item from then on. -/
theorem ItemId.copy_later (i : ItemId) (c : Copying) :
    c.Later (fun _ => False) (i.copy c).2 ∧ (i.copy c).2.session.itemTo i (i.copy c).1 := by
  cases hfound : c.session.items.lookup i with
  | some j =>
      rw [copy_found hfound]
      exact ⟨.refl, hfound⟩
  | none =>
      rw [copy_fresh hfound]
      have hto : ∀ {i' j'}, c.session.itemTo i' j' → i' ≠ i := by
        rintro i' j' h rfl
        rw [Session.itemTo, hfound] at h
        cases h
      exact ⟨{ (Copying.Later.refl : c.Later (fun _ => False) c) with
        item := fun h => lookup_cons_iff.mpr (.inr ⟨hto h, h⟩)
        content := fun _ _ => .refl }, lookup_cons_iff.mpr (.inl ⟨rfl, rfl⟩)⟩

/-- The copy of an item of the region. -/
theorem ItemId.copy_copied (hP : P.Closed h₀) (hc : Copied P φ h₀ busy c) {i : ItemId}
    (hi : P.items i) :
    Copied P φ h₀ busy (i.copy c).2 ∧ c.Later (fun _ => False) (i.copy c).2 ∧
      (i.copy c).2.session.itemTo i (i.copy c).1 ∧
      (i.copy c).2.heap.scopes = c.heap.scopes := by
  obtain ⟨hlater, hto⟩ := i.copy_later c
  refine ⟨?_, hlater, hto, (i.copy_scopes c).1⟩
  cases hfound : c.session.items.lookup i with
  | some j =>
      rw [copy_found hfound]
      exact hc
  | none =>
      rw [copy_fresh hfound, hc.operators] at hlater ⊢
      exact { hc with
        kept := hc.kept.trans .newItem
        item := by
          intro i' j' h
          rcases lookup_cons_iff.mp h with ⟨rfl, rfl⟩ | ⟨-, h⟩
          · refine ⟨hi, hc.kept.items, by simp [Heap.newItem], ?_⟩
            rw [Heap.value_newItem_self, hc.kept.value (hP.item hi)]
          · obtain ⟨hP', hle, hlt, hv⟩ := hc.item h
            refine ⟨hP', hle, by simp only [Heap.newItem, Array.size_push]; omega, ?_⟩
            rw [Heap.value_newItem_lt hlt, hv]
        item_inj := by
          intro a b j ha hb
          rcases lookup_cons_iff.mp ha with ⟨rfl, rfl⟩ | ⟨-, ha'⟩
          · rcases lookup_cons_iff.mp hb with ⟨rfl, -⟩ | ⟨-, hb'⟩
            · rfl
            · exact absurd (hc.item hb').2.2.1 (Nat.lt_irrefl _)
          · rcases lookup_cons_iff.mp hb with ⟨rfl, rfl⟩ | ⟨-, hb'⟩
            · exact absurd (hc.item ha').2.2.1 (Nat.lt_irrefl _)
            · exact hc.item_inj ha' hb'
        madeItem := by
          intro j hle hlt
          by_cases hj : j.index < c.heap.items.size
          · exact (hc.madeItem hle hj).imp fun _ => hlater.item
          · rw [Heap.newItem, Array.size_push] at hlt
            have hj' : j.index = c.heap.items.size := by omega
            exact ⟨i, lookup_cons_iff.mpr (.inl ⟨rfl, congrArg ItemId.mk hj'.symm⟩)⟩
        itemKeys := List.nodup_cons.mpr ⟨not_mem_keys hfound, hc.itemKeys⟩
        content := fun hst hb => hlater.copiedTo (hc.content hst hb) }

end

end ScopeFlow
