import ScopeFlow.Proofs.Footprint.Places
import ScopeFlow.Proofs.Likeness.Schedule
import ScopeFlow.Proofs.Operator.References

/-!
# Heaps that match on some places

Two heaps in which the same is to be done need not be alike all over, as long
as they are where it reads and writes. What is made in the one meanwhile has
another identity than what is made in the other, so a `Pairing` says which
items and scopes stand for which.

* `HeapsMatch`: what is paired is there on both sides, one to one, and on the
  places of a set the contents are paired as well;
* `InStep`: what comes of two heaps that match when the same is done in both.
  They match still, with more paired, and of the second one only places paired
  with those of a set have changed;
* `HeapsMatch.advance`: how they come to be so. Changes of paired places, and new
  items and scopes, are instances of it.
-/

namespace ScopeFlow

/-! ## Contents -/

/-- What is found at a place. -/
inductive Content where
  | bound (i : Option ItemId)
  | value (v : Value)
  | listed (cs : List ScopeId)

namespace Heap

/-- What a place of the heap holds. -/
def content (h : Heap) : Place → Content
  | .binding s name => .bound (h.binding? s name)
  | .item i => .value (h.value i)
  | .children s => .listed (h.scope s).children

/-- Is there the scope or item that a place belongs to? -/
def Has (h : Heap) : Place → Prop
  | .binding s _ => s.index < h.scopes.size
  | .item i => i.index < h.items.size
  | .children s => s.index < h.scopes.size

/-- What was there before is as it was, apart from some places and from which
scope is attached to which. -/
structure KeepsBut (V : Set Place) (h h' : Heap) : Prop where
  items : h.items.size ≤ h'.items.size
  scopes : h.scopes.size ≤ h'.scopes.size
  name : ∀ {s : ScopeId}, s.index < h.scopes.size → (h'.scope s).name = (h.scope s).name
  content : ∀ {x}, h.Has x → x ∉ V → h'.content x = h.content x

namespace KeepsBut

variable {V V' : Set Place} {h h' h'' : Heap} {s : ScopeId} {f : Scope → Scope}

theorem has (hk : h.KeepsBut V h') {x : Place} (hx : h.Has x) : h'.Has x := by
  cases x with
  | binding s name => exact Nat.lt_of_lt_of_le hx hk.scopes
  | item i => exact Nat.lt_of_lt_of_le hx hk.items
  | children s => exact Nat.lt_of_lt_of_le hx hk.scopes

theorem refl : h.KeepsBut V h := ⟨Nat.le_refl _, Nat.le_refl _, fun _ => rfl, fun _ _ => rfl⟩

theorem mono (hk : h.KeepsBut V h') (hV : V ⊆ V') : h.KeepsBut V' h' :=
  { hk with content := fun hx hno => hk.content hx fun hmem => hno (hV hmem) }

theorem trans (hk : h.KeepsBut V h') (hk' : h'.KeepsBut V h'') : h.KeepsBut V h'' where
  items := Nat.le_trans hk.items hk'.items
  scopes := Nat.le_trans hk.scopes hk'.scopes
  name := fun hs => (hk'.name (Nat.lt_of_lt_of_le hs hk.scopes)).trans (hk.name hs)
  content := fun hx hno => (hk'.content (hk.has hx) hno).trans (hk.content hx hno)

theorem of_kept (hk : h.Kept h') : h.KeepsBut V h' where
  items := hk.items
  scopes := hk.scopes
  name := fun hs => by rw [hk.scope hs]
  content := by
    intro x hx _
    cases x with
    | binding s name =>
        exact congrArg (fun node => Content.bound (node.bindings.find? name)) (hk.scope hx)
    | item i => exact congrArg Content.value (hk.value hx)
    | children s => exact congrArg (fun node => Content.listed node.children) (hk.scope hx)

/-- Changes of items leave what scopes hold alone. -/
theorem of_scopes (hsame : h'.scopes = h.scopes) (hitems : h.items.size ≤ h'.items.size)
    (hvalue : ∀ {i : ItemId}, i.index < h.items.size → .item i ∉ V → h'.value i = h.value i) :
    h.KeepsBut V h' := by
  have hscope := Heap.scope_congr hsame
  refine ⟨hitems, Nat.le_of_eq (congrArg Array.size hsame.symm), fun _ => by rw [hscope], ?_⟩
  intro x hx hno
  cases x with
  | binding s name =>
      exact congrArg (fun node => Content.bound (node.bindings.find? name)) (hscope s)
  | item i => exact congrArg Content.value (hvalue hx hno)
  | children s => exact congrArg (fun node => Content.listed node.children) (hscope s)

/-- A change of single scopes. -/
theorem of_items (hsame : h'.items = h.items) (hsize : h'.scopes.size = h.scopes.size)
    (hname : ∀ s, (h'.scope s).name = (h.scope s).name)
    (hbinding : ∀ s name, .binding s name ∉ V → h'.binding? s name = h.binding? s name)
    (hchildren : ∀ s, .children s ∉ V → (h'.scope s).children = (h.scope s).children) :
    h.KeepsBut V h' where
  items := Nat.le_of_eq (congrArg Array.size hsame.symm)
  scopes := Nat.le_of_eq hsize.symm
  name := fun _ => hname _
  content := by
    intro x _ hno
    cases x with
    | binding s name => exact congrArg Content.bound (hbinding s name hno)
    | item i =>
        exact congrArg (fun items => Content.value ((items[i.index]?).getD (.bool false))) hsame
    | children s => exact congrArg Content.listed (hchildren s hno)

end KeepsBut

end Heap

/-! ## Pairings -/

/-- Which items and scopes of one heap stand for which of another. -/
structure Pairing where
  items : ItemId → ItemId → Prop
  scopes : ScopeId → ScopeId → Prop

/-- Places that stand for one another, those of scopes and items that do. -/
inductive Pairing.Places (ρ : Pairing) : Place → Place → Prop
  | binding {s t : ScopeId} (hst : ρ.scopes s t) (name : String) :
      ρ.Places (.binding s name) (.binding t name)
  | item {i j : ItemId} (hij : ρ.items i j) : ρ.Places (.item i) (.item j)
  | children {s t : ScopeId} (hst : ρ.scopes s t) : ρ.Places (.children s) (.children t)

/-- Contents that are the same up to what stands for what. -/
inductive Content.Alike (ρ : Pairing) : Content → Content → Prop
  | bound {i j : Option ItemId} (hij : Option.Rel ρ.items i j) : Alike ρ (.bound i) (.bound j)
  | value (v : Value) : Alike ρ (.value v) (.value v)
  | listed {cs ds : List ScopeId} (hcd : List.Forall₂ ρ.scopes cs ds) :
      Alike ρ (.listed cs) (.listed ds)

/-- Contexts for the same operator in the same graph of built-in operators, with
the same trail, over scopes that stand for one another. What the declarations
hold stands for itself. -/
def Context.Moved (ρ : Pairing) : Context → Context → Prop
  | root _ g s, root _ g' t =>
    g = g' ∧ g.BuiltIn ∧ (∀ i ∈ g.graph.held, ρ.items i i) ∧ ρ.scopes s t
  | frame _ op s trail p, frame _ op' t trail' q =>
    op = op' ∧ trail = trail' ∧ ρ.scopes s t ∧ p.Moved ρ q
  | _, _ => False

namespace Pairing

variable {ρ σ τ : Pairing} {W : Set Place}

/-- Is what is paired by `ρ` paired by `σ`? -/
structure Within (ρ σ : Pairing) : Prop where
  items : ∀ {i j}, ρ.items i j → σ.items i j
  scopes : ∀ {s t}, ρ.scopes s t → σ.scopes s t

theorem Within.refl : ρ.Within ρ := ⟨id, id⟩

theorem Within.trans (h : ρ.Within σ) (h' : σ.Within τ) : ρ.Within τ :=
  ⟨h'.items ∘ h.items, h'.scopes ∘ h.scopes⟩

theorem Within.places (h : ρ.Within σ) {x y : Place} (hxy : ρ.Places x y) : σ.Places x y := by
  cases hxy with
  | binding hst name => exact .binding (h.scopes hst) name
  | item hij => exact .item (h.items hij)
  | children hst => exact .children (h.scopes hst)

/-- The places that stand for those of a set. -/
def image (ρ : Pairing) (W : Set Place) : Set Place := fun y => ∃ x ∈ W, ρ.Places x y

theorem Within.image (h : ρ.Within σ) : ρ.image W ⊆ σ.image W :=
  fun _ ⟨x, hx, hxy⟩ => ⟨x, hx, h.places hxy⟩

/-- The pairing as a renaming of what operations refer to. -/
def asRenaming (ρ : Pairing) : Renaming where
  items := ρ.items
  scopes := ρ.scopes
  graphs g g' := g = g' ∧ ∀ i ∈ g.graph.held, ρ.items i i
  contexts := Context.Moved ρ
  outer _ := False

/-- What is paired by one of two pairings. -/
def join (ρ σ : Pairing) : Pairing where
  items i j := ρ.items i j ∨ σ.items i j
  scopes s t := ρ.scopes s t ∨ σ.scopes s t

theorem within_join_left : ρ.Within (ρ.join σ) := ⟨.inl, .inl⟩

theorem within_join_right : σ.Within (ρ.join σ) := ⟨.inr, .inr⟩

theorem join_places {x y : Place} :
    (ρ.join σ).Places x y ↔ ρ.Places x y ∨ σ.Places x y := by
  constructor
  · intro hxy
    cases hxy with
    | binding hst name => exact hst.imp (.binding · name) (.binding · name)
    | item hij => exact hij.imp .item .item
    | children hst => exact hst.imp .children .children
  · rintro (hxy | hxy)
    · exact within_join_left.places hxy
    · exact within_join_right.places hxy

/-- One more item paired with another. -/
def withItem (ρ : Pairing) (i j : ItemId) : Pairing :=
  { ρ with items := fun i' j' => ρ.items i' j' ∨ i' = i ∧ j' = j }

end Pairing

theorem Content.Alike.mono {ρ σ : Pairing} (hw : ρ.Within σ) {a b : Content} (h : a.Alike ρ b) :
    a.Alike σ b := by
  cases h with
  | bound hij => exact .bound (rel_imp hw.items hij)
  | value v => exact .value v
  | listed hcd => exact .listed (hcd.imp fun _ _ => hw.scopes)

/-! ## Contexts -/

namespace Context.Moved

variable {ρ σ : Pairing} {c d p q : Context} {s t : ScopeId}

theorem mono (hw : ρ.Within σ) (h : c.Moved ρ d) : c.Moved σ d := by
  induction c generalizing d with
  | root id g s =>
      cases d with
      | root id' g' t =>
          exact ⟨h.1, h.2.1, fun i hi => hw.items (h.2.2.1 i hi), hw.scopes h.2.2.2⟩
      | frame _ _ _ _ _ => exact h.elim
  | frame id op s trail p ih =>
      cases d with
      | root _ _ _ => exact h.elim
      | frame id' op' t trail' q => exact ⟨h.1, h.2.1, hw.scopes h.2.2.1, ih h.2.2.2⟩

/-- What does not depend on scopes is the same. -/
theorem same (h : c.Moved ρ d) : c.graph = d.graph ∧ c.graph.BuiltIn ∧
    (∀ i ∈ c.graph.graph.held, ρ.items i i) ∧ c.depth = d.depth ∧
    ∀ g parameter type w, c.follow g parameter type w = d.follow g parameter type w := by
  induction c generalizing d with
  | root id g s =>
      cases d with
      | root id' g' t => exact ⟨h.1, h.2.1, h.2.2.1, rfl, fun _ _ _ _ => rfl⟩
      | frame _ _ _ _ _ => exact h.elim
  | frame id op s trail p ih =>
      cases d with
      | root _ _ _ => exact h.elim
      | frame id' op' t trail' q =>
          obtain ⟨rfl, rfl, -, hpq⟩ := h
          obtain ⟨hgraph, hbuilt, hheld, hdepth, hfollow⟩ := ih hpq
          refine ⟨hgraph, hbuilt, hheld, congrArg (· + 1) hdepth, fun g parameter type w => ?_⟩
          rw [follow, follow]
          split
          · rfl
          · split
            · rfl
            · rfl
            · exact hfollow g parameter type _

theorem graph (h : c.Moved ρ d) : c.graph = d.graph := h.same.1

theorem alike (h : c.Moved ρ d) : c.Alike ρ.asRenaming d := by
  cases c with
  | root id g s =>
      cases d with
      | root id' g' t => exact ⟨⟨h.1, h.2.2.1⟩, h.2.2.2⟩
      | frame _ _ _ _ _ => exact h.elim
  | frame id op s trail p =>
      cases d with
      | root _ _ _ => exact h.elim
      | frame id' op' t trail' q => exact h

theorem scope (h : c.Moved ρ d) : ρ.scopes c.scope d.scope := h.alike.scope

theorem operator (h : c.Moved ρ d) : c.operator = d.operator := by
  unfold Context.operator
  rw [h.alike.operatorId?, h.graph]

theorem resolve (h : c.Moved ρ d) (parameter : String) :
    c.resolve parameter = d.resolve parameter := by
  obtain ⟨hgraph, -, -, -, hfollow⟩ := h.same
  unfold Context.resolve parameters operatorName
  rw [h.alike.operatorId?, hgraph]
  simp only [hfollow]

theorem scopeChain (h : c.Moved ρ d)
    (hiff : ∀ {s t s' t'}, ρ.scopes s t → ρ.scopes s' t' → (s = s' ↔ t = t')) :
    List.Forall₂ ρ.scopes c.scopeChain d.scopeChain := by
  induction c generalizing d with
  | root id g s =>
      cases d with
      | root id' g' t => exact .cons h.2.2.2 .nil
      | frame _ _ _ _ _ => exact h.elim
  | frame id op s trail p ih =>
      cases d with
      | root _ _ _ => exact h.elim
      | frame id' op' t trail' q =>
          obtain ⟨-, -, hst, hpq⟩ := h
          rw [Context.scopeChain, Context.scopeChain]
          by_cases hs : p.scope = s
          · rw [if_pos hs, if_pos ((hiff hpq.scope hst).mp hs)]
            exact ih hpq
          · rw [if_neg hs, if_neg fun ht => hs ((hiff hpq.scope hst).mpr ht)]
            exact .cons hst (ih hpq)

theorem child (h : c.Moved ρ d) (hst : ρ.scopes s t) (op : OperatorId) (m n : ContextId) :
    (Context.frame m op s [op] c).Moved ρ (.frame n op t [op] d) :=
  ⟨rfl, rfl, hst, h⟩

theorem sibling (h : c.Moved ρ d) (op : OperatorId) (trail : List OperatorId) (m n : ContextId) :
    (c.sibling op trail m).Moved ρ (d.sibling op trail n) := by
  cases c with
  | root id g s =>
      cases d with
      | root id' g' t => exact h
      | frame _ _ _ _ _ => exact h.elim
  | frame id own s trail₁ p =>
      cases d with
      | root _ _ _ => exact h.elim
      | frame id' own' t trail₂ q => exact ⟨rfl, rfl, h.2.2⟩

end Context.Moved

theorem Pairing.Within.asRenaming {ρ σ : Pairing} (h : ρ.Within σ) :
    ρ.asRenaming.Within σ.asRenaming where
  items := h.items
  scopes := h.scopes
  graphs := fun hg => ⟨hg.1, fun i hi => h.items (hg.2 i hi)⟩
  contexts := Context.Moved.mono h
  outer := id

/-! ## Heaps that match -/

/-- Heaps that hold the same, up to what stands for what, on the places of a
set, to which all belongs that is not yet made in the first one. -/
structure HeapsMatch (T : Set Place) (ρ : Pairing) (h k : Heap) : Prop where
  item : ∀ {i j}, ρ.items i j → i.index < h.items.size ∧ j.index < k.items.size
  item_iff : ∀ {i j i' j'}, ρ.items i j → ρ.items i' j' → (i = i' ↔ j = j')
  scope : ∀ {s t}, ρ.scopes s t → s.index < h.scopes.size ∧ t.index < k.scopes.size ∧
    (h.scope s).name = (k.scope t).name
  scope_iff : ∀ {s t s' t'}, ρ.scopes s t → ρ.scopes s' t' → (s = s' ↔ t = t')
  content : ∀ {x y}, ρ.Places x y → x ∈ T → (h.content x).Alike ρ (k.content y)
  unmade : ∀ {x}, ¬ h.Has x → x ∈ T

/-- What comes of heaps that match: they do so still, and in the second one
nothing has changed but what is paired with places of a set. -/
structure InStep (T W : Set Place) (ρ ρ' : Pairing) (h h' k k' : Heap) : Prop where
  within : ρ.Within ρ'
  item : ∀ {i j}, ρ'.items i j →
    ρ.items i j ∨ h.items.size ≤ i.index ∧ k.items.size ≤ j.index
  scope : ∀ {s t}, ρ'.scopes s t →
    ρ.scopes s t ∨ h.scopes.size ≤ s.index ∧ k.scopes.size ≤ t.index
  items : h.items.size ≤ h'.items.size
  scopes : h.scopes.size ≤ h'.scopes.size
  keeps : k.KeepsBut (ρ'.image W) k'
  matched : HeapsMatch T ρ' h' k'

/-- What is paired anew is new on both sides, and paired one to one. -/
structure Pairing.Grows (ρ ρ' : Pairing) (h h' k k' : Heap) : Prop where
  within : ρ.Within ρ'
  item : ∀ {i j}, ρ'.items i j → ρ.items i j ∨
    (h.items.size ≤ i.index ∧ i.index < h'.items.size) ∧
      k.items.size ≤ j.index ∧ j.index < k'.items.size
  item_iff : ∀ {i j i' j'}, ρ'.items i j → ρ'.items i' j' →
    h.items.size ≤ i.index → h.items.size ≤ i'.index → (i = i' ↔ j = j')
  scope : ∀ {s t}, ρ'.scopes s t → ρ.scopes s t ∨
    (h.scopes.size ≤ s.index ∧ s.index < h'.scopes.size) ∧
      (k.scopes.size ≤ t.index ∧ t.index < k'.scopes.size) ∧ (h'.scope s).name = (k'.scope t).name
  scope_iff : ∀ {s t s' t'}, ρ'.scopes s t → ρ'.scopes s' t' →
    h.scopes.size ≤ s.index → h.scopes.size ≤ s'.index → (s = s' ↔ t = t')

theorem Pairing.Grows.refl {ρ : Pairing} {h h' k k' : Heap}
    (hitem : ∀ {i j}, ρ.items i j → i.index < h.items.size)
    (hscope : ∀ {s t}, ρ.scopes s t → s.index < h.scopes.size) : ρ.Grows ρ h h' k k' where
  within := .refl
  item := .inl
  item_iff := fun hij _ hi _ => by have := hitem hij; omega
  scope := .inl
  scope_iff := fun hst _ hs _ => by have := hscope hst; omega

namespace HeapsMatch

variable {T W V : Set Place} {ρ ρ' : Pairing} {h h' k k' : Heap} {x y x' y' : Place}

theorem has (hm : HeapsMatch T ρ h k) (hxy : ρ.Places x y) : h.Has x ∧ k.Has y := by
  cases hxy with
  | binding hst name => exact ⟨(hm.scope hst).1, (hm.scope hst).2.1⟩
  | item hij => exact hm.item hij
  | children hst => exact ⟨(hm.scope hst).1, (hm.scope hst).2.1⟩

theorem places_iff (hm : HeapsMatch T ρ h k) (hxy : ρ.Places x y) (hxy' : ρ.Places x' y') :
    x = x' ↔ y = y' := by
  cases hxy with
  | binding hst name =>
      cases hxy' with
      | binding hst' name' =>
          rw [Place.binding.injEq, Place.binding.injEq, hm.scope_iff hst hst']
      | item _ => simp
      | children _ => simp
  | item hij =>
      cases hxy' with
      | item hij' => rw [Place.item.injEq, Place.item.injEq, hm.item_iff hij hij']
      | binding _ _ => simp
      | children _ => simp
  | children hst =>
      cases hxy' with
      | children hst' => rw [Place.children.injEq, Place.children.injEq, hm.scope_iff hst hst']
      | binding _ _ => simp
      | item _ => simp

theorem scopeChain (hm : HeapsMatch T ρ h k) {c d : Context} (hcd : c.Moved ρ d) :
    List.Forall₂ ρ.scopes c.scopeChain d.scopeChain := hcd.scopeChain hm.scope_iff

/-- Nothing is done. -/
theorem still (hm : HeapsMatch T ρ h k) : InStep T W ρ ρ h h k k where
  within := .refl
  item := .inl
  scope := .inl
  items := Nat.le_refl _
  scopes := Nat.le_refl _
  keeps := .refl
  matched := hm

/-- The same is done in both: on the places of a set, whose contents are then
paired again, and to what is new. -/
theorem advance (hm : HeapsMatch T ρ h k) (hg : ρ.Grows ρ' h h' k k') (hV : V ⊆ W)
    (hh : h.KeepsBut V h') (hk : k.KeepsBut (ρ.image V) k')
    (hnew : ∀ {x y}, ρ'.Places x y → ¬ h.Has x ∨ x ∈ V → (h'.content x).Alike ρ' (k'.content y)) :
    InStep T W ρ ρ' h h' k k' where
  within := hg.within
  item := fun hij => (hg.item hij).imp id fun h => ⟨h.1.1, h.2.1⟩
  scope := fun hst => (hg.scope hst).imp id fun h => ⟨h.1.1, h.2.1.1⟩
  items := hh.items
  scopes := hh.scopes
  keeps := hk.mono fun y ⟨x, hx, hxy⟩ => ⟨x, hV hx, hg.within.places hxy⟩
  matched := by
    have hold : ∀ {x y}, ρ'.Places x y → h.Has x → ρ.Places x y := by
      intro x y hxy hx
      cases hxy with
      | binding hst name =>
          rcases hg.scope hst with hst | ⟨⟨hlt, -⟩, -⟩
          · exact .binding hst name
          · exact absurd hx (Nat.not_lt.mpr hlt)
      | item hij =>
          rcases hg.item hij with hij | ⟨⟨hlt, -⟩, -⟩
          · exact .item hij
          · exact absurd hx (Nat.not_lt.mpr hlt)
      | children hst =>
          rcases hg.scope hst with hst | ⟨⟨hlt, -⟩, -⟩
          · exact .children hst
          · exact absurd hx (Nat.not_lt.mpr hlt)
    refine
      { item := fun {i j} hij => ?_
        item_iff := fun {i j i' j'} hij hij' => ?_
        scope := fun {s t} hst => ?_
        scope_iff := fun {s t s' t'} hst hst' => ?_
        content := fun {x y} hxy hx => ?_
        unmade := fun hno => hm.unmade fun hhas => hno (hh.has hhas) }
    · rcases hg.item hij with hij | ⟨⟨-, hi⟩, -, hj⟩
      · obtain ⟨hi, hj⟩ := hm.item hij
        exact ⟨Nat.lt_of_lt_of_le hi hh.items, Nat.lt_of_lt_of_le hj hk.items⟩
      · exact ⟨hi, hj⟩
    · exact one_to_one_of_grow ItemId.index hm.item
        (fun hij => (hg.item hij).imp_right fun hnew => ⟨hnew.1.1, hnew.2.1⟩) hm.item_iff
        hg.item_iff hij hij'
    · rcases hg.scope hst with hst | ⟨⟨-, hs⟩, ⟨-, ht⟩, hname⟩
      · obtain ⟨hs, ht, hname⟩ := hm.scope hst
        refine ⟨Nat.lt_of_lt_of_le hs hh.scopes, Nat.lt_of_lt_of_le ht hk.scopes, ?_⟩
        rw [hh.name hs, hk.name ht, hname]
      · exact ⟨hs, ht, hname⟩
    · exact one_to_one_of_grow ScopeId.index (fun hst => ⟨(hm.scope hst).1, (hm.scope hst).2.1⟩)
        (fun hst => (hg.scope hst).imp_right fun hnew => ⟨hnew.1.1, hnew.2.1.1⟩) hm.scope_iff
        hg.scope_iff hst hst'
    · by_cases hhas : h.Has x
      · by_cases hxV : x ∈ V
        · exact hnew hxy (.inr hxV)
        · -- An old place that has been left alone stands for one that has been.
          have hxy₀ := hold hxy hhas
          rw [hh.content hhas hxV, hk.content (hm.has hxy₀).2 ?_]
          · exact (hm.content hxy₀ hx).mono hg.within
          · rintro ⟨x', hx', hxy'⟩
            obtain rfl := (hm.places_iff hxy₀ hxy').mpr rfl
            exact hxV hx'
      · exact hnew hxy (.inl hhas)

/-- The same is done on one place each, which stand for one another. -/
theorem write (hm : HeapsMatch T ρ h k) (hxy : ρ.Places x y) (hW : x ∈ W)
    (hh : h.KeepsBut {x} h') (hk : k.KeepsBut {y} k')
    (hnew : (h'.content x).Alike ρ (k'.content y)) : InStep T W ρ ρ h h' k k' := by
  refine hm.advance (V := {x}) (.refl (fun hij => (hm.item hij).1) fun hst => (hm.scope hst).1)
    (Set.singleton_subset_iff.mpr hW) hh (hk.mono ?_) ?_
  · rintro _ rfl
    exact ⟨x, rfl, hxy⟩
  · rintro x' y' hxy' (hno | rfl)
    · exact absurd (hm.has hxy').1 hno
    · obtain rfl := (hm.places_iff hxy hxy').mp rfl
      exact hnew

/-- Nothing is done to what was there, and nothing new is paired. -/
theorem aside (hm : HeapsMatch T ρ h k) (hh : h.Kept h') (hk : k.Kept k') :
    InStep T W ρ ρ h h' k k' := by
  refine hm.advance (V := ∅) (.refl (fun hij => (hm.item hij).1) fun hst => (hm.scope hst).1)
    (Set.empty_subset _) (.of_kept hh) (.of_kept hk) ?_
  rintro x y hxy (hno | hx)
  · exact absurd (hm.has hxy).1 hno
  · exact absurd hx (Set.notMem_empty x)

/-- An item with the same value is made on both sides. -/
theorem newItem (hm : HeapsMatch T ρ h k) (v : Value) :
    InStep T W ρ (ρ.withItem ⟨h.items.size⟩ ⟨k.items.size⟩) h (h.newItem v).2 k
      (k.newItem v).2 := by
  have hsize : (h.newItem v).2.items.size = h.items.size + 1 := Array.size_push _
  have hsize' : (k.newItem v).2.items.size = k.items.size + 1 := Array.size_push _
  refine hm.advance (V := ∅) ?_ (Set.empty_subset _) (.of_kept .newItem) (.of_kept .newItem) ?_
  · refine ⟨⟨.inl, id⟩, ?_, ?_, .inl, fun hst _ hs _ => ?_⟩
    · rintro i j (hij | ⟨rfl, rfl⟩)
      · exact .inl hij
      · exact .inr (by simp only [hsize, hsize']; omega)
    · rintro i j i' j' (hij | ⟨rfl, rfl⟩) (hij' | ⟨rfl, rfl⟩) hi hi'
      · exact hm.item_iff hij hij'
      · have := hm.item hij
        omega
      · have := hm.item hij'
        omega
      · simp
    · have := hm.scope hst
      omega
  · rintro x y hxy (hno | hx)
    · cases hxy with
      | binding hst name => exact absurd (hm.scope hst).1 hno
      | children hst => exact absurd (hm.scope hst).1 hno
      | item hij =>
          rcases hij with hij | ⟨rfl, rfl⟩
          · exact absurd (hm.item hij).1 hno
          · rw [Heap.content, Heap.content, Heap.value_newItem_self, Heap.value_newItem_self]
            exact .value v
    · exact absurd hx (Set.notMem_empty x)

end HeapsMatch

namespace InStep

variable {T W W' : Set Place} {ρ ρ' ρ'' : Pairing} {h h' h'' k k' k'' : Heap}

theorem trans (hs : InStep T W ρ ρ' h h' k k') (hs' : InStep T W ρ' ρ'' h' h'' k' k'') :
    InStep T W ρ ρ'' h h'' k k'' where
  within := hs.within.trans hs'.within
  item := by
    intro i j hij
    rcases hs'.item hij with hij | ⟨hi, hj⟩
    · exact hs.item hij
    · exact .inr ⟨Nat.le_trans hs.items hi, Nat.le_trans hs.keeps.items hj⟩
  scope := by
    intro s t hst
    rcases hs'.scope hst with hst | ⟨h₁, h₂⟩
    · exact hs.scope hst
    · exact .inr ⟨Nat.le_trans hs.scopes h₁, Nat.le_trans hs.keeps.scopes h₂⟩
  items := Nat.le_trans hs.items hs'.items
  scopes := Nat.le_trans hs.scopes hs'.scopes
  keeps := (hs.keeps.mono hs'.within.image).trans hs'.keeps
  matched := hs'.matched

end InStep

end ScopeFlow
