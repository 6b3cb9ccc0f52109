import ScopeFlow.Proofs.Footprint.Pairing
import ScopeFlow.Proofs.Operator.Locality

/-!
# Copies of subtrees

A scope is copied with all that is below it, and the copy is attached to some
scope under a name of its own.

* `Pairing.Subtrees` says that what is below one scope is matched, one to one,
  by what is below another: scopes, and the items that their variables have. An
  item that two variables share on one side is shared on the other;
* `Heap.SameBelow` says that a subtree is the same in two heaps, and then each may
  stand for the other in a match (`Subtrees.congr_left`, `Subtrees.congr_right`);
* `Heap.Grafted` says that such a copy has come under a scope, that nothing of
  it was there before, and that nothing else has changed;
* `Heap.Forest.graft` says that copying, renaming and attaching come to that.
-/

namespace ScopeFlow

variable {h h' k : Heap} {ρ : Pairing} {s t u v source copy : ScopeId} {i j : ItemId}
  {name : String}

namespace Heap

/-- Does a variable of a scope below have the item? -/
def HeldBelow (h : Heap) (s : ScopeId) (i : ItemId) : Prop :=
  ∃ u name, h.Below s u ∧ h.binding? u name = some i

/-- Where scopes that correspond have sub-scopes that do, whatever is below the
one is matched below the other. -/
theorem Below.matched {R : ScopeId → ScopeId → Prop} (hst : R s t)
    (hR : ∀ {u v}, R u v → List.Forall₂ R (h.scope u).children (k.scope v).children)
    (hu : h.Below s u) : ∃ v, k.Below t v ∧ R u v := by
  induction hu with
  | self => exact ⟨t, .self, hst⟩
  | child _ hc ih =>
    obtain ⟨v, hv, huv⟩ := ih
    obtain ⟨d, hd, hcd⟩ := forall₂_mem (hR huv) hc
    exact ⟨d, hv.child hd, hcd⟩

/-- What is below a scope, and the items of its variables, are the same in two
heaps. The name and the parent of the scope itself may differ, and so may
parents altogether. -/
structure SameBelow (h h' : Heap) (s : ScopeId) : Prop where
  name : ∀ {u}, h.Below s u → u ≠ s → (h'.scope u).name = (h.scope u).name
  bindings : ∀ {u}, h.Below s u → (h'.scope u).bindings = (h.scope u).bindings
  children : ∀ {u}, h.Below s u → (h'.scope u).children = (h.scope u).children
  value : ∀ {i}, h.HeldBelow s i → h'.value i = h.value i

namespace SameBelow

theorem below (hsame : h.SameBelow h' s) (hu : h.Below s u) : h'.Below s u := by
  induction hu with
  | self => exact .self
  | child hp hc ih => exact ih.child (by rwa [hsame.children hp])

theorem held (hsame : h.SameBelow h' s) (hi : h.HeldBelow s i) : h'.HeldBelow s i := by
  obtain ⟨u, name, hu, hi⟩ := hi
  exact ⟨u, name, hsame.below hu, by rwa [binding?, hsame.bindings hu]⟩

end SameBelow

end Heap

/-! ## Subtrees that match -/

/-- What is below a scope of one heap is matched by what is below a scope of
another one, all of it (`below_iff`, `held_iff`). The names of the two scopes
themselves may differ. -/
structure Pairing.Subtrees (ρ : Pairing) (h k : Heap) (s t : ScopeId) : Prop where
  top : ρ.scopes s t
  /-- Only what is below is paired. -/
  below : ∀ {u v}, ρ.scopes u v → h.Below s u
  held : ∀ {i j}, ρ.items i j → h.HeldBelow s i
  /-- Scopes and items are paired one to one. -/
  scope_iff : ∀ {u u' v v'}, ρ.scopes u v → ρ.scopes u' v' → (u = u' ↔ v = v')
  item_iff : ∀ {i i' j j'}, ρ.items i j → ρ.items i' j' → (i = i' ↔ j = j')
  name : ∀ {u v}, ρ.scopes u v → u ≠ s → (h.scope u).name = (k.scope v).name
  /-- Variables have the same names and paired items. -/
  bindings : ∀ {u v}, ρ.scopes u v →
    List.Forall₂ (SameEntry ρ.items) (h.scope u).bindings.entries (k.scope v).bindings.entries
  /-- Sub-scopes are paired in order. -/
  children : ∀ {u v}, ρ.scopes u v → List.Forall₂ ρ.scopes (h.scope u).children (k.scope v).children
  value : ∀ {i j}, ρ.items i j → h.value i = k.value j

namespace Pairing.Subtrees

section

variable (hρ : ρ.Subtrees h k s t)
include hρ

/-- Variables of paired scopes are bound to paired items, or both unbound. -/
theorem binding? (huv : ρ.scopes u v) (name : String) :
    Option.Rel ρ.items (h.binding? u name) (k.binding? v name) :=
  Bindings.lookup_same (hρ.bindings huv) name

/-- Two variables share an item in the copy exactly if they do in the original. -/
theorem sharing {u' v' : ScopeId} (huv : ρ.scopes u v) (huv' : ρ.scopes u' v')
    (name other : String) :
    h.binding? u name = h.binding? u' other ↔ k.binding? v name = k.binding? v' other := by
  have hone := hρ.binding? huv name
  have htwo := hρ.binding? huv' other
  generalize h.binding? u name = x at hone ⊢
  generalize k.binding? v name = y at hone ⊢
  generalize h.binding? u' other = x' at htwo ⊢
  generalize k.binding? v' other = y' at htwo ⊢
  cases hone with
  | none => cases htwo <;> simp
  | some hij =>
    cases htwo with
    | none => simp
    | some hij' => simpa using hρ.item_iff hij hij'

theorem below_iff : h.Below s u ↔ ∃ v, ρ.scopes u v := by
  refine ⟨fun hu => ?_, fun ⟨v, huv⟩ => hρ.below huv⟩
  exact (hu.matched hρ.top hρ.children).imp fun v hv => hv.2

theorem below_iff' : k.Below t v ↔ ∃ u, ρ.scopes u v := by
  constructor
  · intro hv
    have hmatched := hv.matched (R := fun v u => ρ.scopes u v) hρ.top
      fun huv => (hρ.children huv).flip
    exact hmatched.imp fun u hu => hu.2
  · rintro ⟨u, huv⟩
    obtain ⟨v', hv', huv'⟩ := (hρ.below huv).matched hρ.top hρ.children
    rwa [(hρ.scope_iff huv huv').mp rfl]

theorem held_iff : h.HeldBelow s i ↔ ∃ j, ρ.items i j := by
  constructor
  · rintro ⟨u, name, hu, hi⟩
    obtain ⟨v, huv⟩ := hρ.below_iff.mp hu
    obtain ⟨j, -, hij⟩ := rel_some_left (hρ.binding? huv name) hi
    exact ⟨j, hij⟩
  · exact fun ⟨j, hij⟩ => hρ.held hij

theorem held_iff' : k.HeldBelow t j ↔ ∃ i, ρ.items i j := by
  constructor
  · rintro ⟨v, name, hv, hj⟩
    obtain ⟨u, huv⟩ := hρ.below_iff'.mp hv
    obtain ⟨i, -, hij⟩ := rel_some_right (hρ.binding? huv name) hj
    exact ⟨i, hij⟩
  · rintro ⟨i, hij⟩
    obtain ⟨u, name, hu, hi⟩ := hρ.held hij
    obtain ⟨v, huv⟩ := hρ.below_iff.mp hu
    obtain ⟨j', hj', hij'⟩ := rel_some_left (hρ.binding? huv name) hi
    obtain rfl := (hρ.item_iff hij hij').mp rfl
    exact ⟨v, name, hρ.below_iff'.mpr ⟨u, huv⟩, hj'⟩

theorem congr_left (hsame : h.SameBelow h' s) : ρ.Subtrees h' k s t where
  top := hρ.top
  below := fun huv => hsame.below (hρ.below huv)
  held := fun hij => hsame.held (hρ.held hij)
  scope_iff := hρ.scope_iff
  item_iff := hρ.item_iff
  name := fun huv hu => (hsame.name (hρ.below huv) hu).trans (hρ.name huv hu)
  bindings := fun huv => by
    rw [hsame.bindings (hρ.below huv)]
    exact hρ.bindings huv
  children := fun huv => by
    rw [hsame.children (hρ.below huv)]
    exact hρ.children huv
  value := fun hij => (hsame.value (hρ.held hij)).trans (hρ.value hij)

theorem congr_right (hsame : k.SameBelow h' t) : ρ.Subtrees h h' s t :=
  have hbelow : ∀ {u v}, ρ.scopes u v → k.Below t v := fun huv => hρ.below_iff'.mpr ⟨_, huv⟩
  { hρ with
    name := by
      intro u v huv hu
      have hv : v ≠ t := fun heq => hu ((hρ.scope_iff huv hρ.top).mpr heq)
      exact (hρ.name huv hu).trans (hsame.name (hbelow huv) hv).symm
    bindings := fun huv => by
      rw [hsame.bindings (hbelow huv)]
      exact hρ.bindings huv
    children := fun huv => by
      rw [hsame.children (hbelow huv)]
      exact hρ.children huv
    value := fun hij => (hρ.value hij).trans (hsame.value (hρ.held_iff'.mpr ⟨_, hij⟩)).symm }

end

end Pairing.Subtrees

/-- A session that has copied what is below a scope pairs it with the copy. -/
theorem Copied.subtrees {P : Region} {σ : Session} (hs : h.Sound)
    (hc : Copied (P.below h source) id h (fun _ => False) ⟨σ, k⟩)
    (hfound : σ.scopeTo source copy) :
    Pairing.Subtrees ⟨σ.itemTo, σ.scopeTo⟩ h k source copy where
  top := hfound
  below := fun huv => (hc.scope huv).1.2
  held := by
    intro i j hij
    obtain ⟨-, u, -, hu, entry, hentry, rfl⟩ := (hc.item hij).1
    exact ⟨u, entry.1, hu, (hs.binding?_iff u entry.1 entry.2).mpr hentry⟩
  scope_iff := hc.scope_iff
  item_iff := hc.item_iff
  name := fun huv _ => (hc.content huv id).name
  bindings := fun huv => (hc.content huv id).bindings
  children := fun huv => (hc.content huv id).children
  value := fun {i j} hij => ((hc.item hij).2.2.2.trans (h.value i).mapOperator_id).symm

/-! ## Copies that are attached -/

namespace Heap

/-- A copy of what is below a scope has come under another scope, as its last
sub-scope and with a name of its own. It is new throughout, and whatever was
there before is as it was, apart from the one entry in the list. -/
structure Grafted (h h' : Heap) (s source copy : ScopeId) (name : String) : Prop
    extends h.ItemsKept h' where
  scope : h'.scope s = { h.scope s with children := (h.scope s).children ++ [copy] }
  elsewhere : ∀ u : ScopeId, u.index < h.scopes.size → u ≠ s → h'.scope u = h.scope u
  named : (h'.scope copy).name = name
  parent : (h'.scope copy).parent = some s
  image : ∃ ρ : Pairing, ρ.Subtrees h h' source copy
  /-- The scopes that have been made are those of the copy. -/
  made : ∀ v, h'.Below copy v ↔ h.scopes.size ≤ v.index ∧ v.index < h'.scopes.size
  /-- The items of its variables have been made too. -/
  fresh : ∀ j, h'.HeldBelow copy j → h.items.size ≤ j.index

theorem scope_rename (s t : ScopeId) (name : String) (ht : t.index < h.scopes.size) :
    (h.rename t name).scope s =
      { h.scope s with name := if s = t then name else (h.scope s).name } := by
  rw [rename, scope_updateScope]
  by_cases hst : s = t
  · subst hst
    simp [ht]
  · simp [hst]

/-- A scope renamed and then listed last by another one. -/
theorem scope_rename_attach (hs : s.index < h.scopes.size) (ht : t.index < h.scopes.size)
    (name : String) (u : ScopeId) :
    ((h.rename t name).attach s ((h.rename t name).scope s).children.length t).scope u =
      ⟨if u = t then name else (h.scope u).name, (h.scope u).bindings,
        if u = s then (h.scope s).children ++ [t] else (h.scope u).children,
        if u = t then some s else (h.scope u).parent⟩ := by
  have hsize : (h.rename t name).scopes.size = h.scopes.size := scopes_size_updateScope
  rw [scope_attach (hsize ▸ hs) (hsize ▸ ht), scope_rename s t name ht, scope_rename u t name ht]
  simp

/-- A new scope whose subtree matches comes under another name and scope. -/
theorem Kept.attach_grafted (hkept : h.Kept k) (hs : s.index < h.scopes.size)
    (hρ : ρ.Subtrees h k source copy)
    (hmade : ∀ v, k.Below copy v ↔ h.scopes.size ≤ v.index ∧ v.index < k.scopes.size)
    (hfresh : ∀ j, k.HeldBelow copy j → h.items.size ≤ j.index) (name : String) :
    h.Grafted ((k.rename copy name).attach s ((k.rename copy name).scope s).children.length copy)
      s source copy name := by
  obtain ⟨hnew, hlt⟩ := (hmade copy).mp .self
  have hnode := scope_rename_attach (Nat.lt_of_lt_of_le hs hkept.scopes) hlt name
  have hsize : ((k.rename copy name).attach s ((k.rename copy name).scope s).children.length
      copy).scopes.size = k.scopes.size := by
    rw [scopes_size_attach]
    exact scopes_size_updateScope
  have hitems : ((k.rename copy name).attach s ((k.rename copy name).scope s).children.length
      copy).items = k.items := rfl
  generalize (k.rename copy name).attach s ((k.rename copy name).scope s).children.length copy = h'
    at hnode hsize hitems ⊢
  have hvalue : ∀ i, h'.value i = k.value i := fun i => by rw [Heap.value, hitems, Heap.value]
  have hold : ∀ {u : ScopeId}, u.index < h.scopes.size → u ≠ copy :=
    fun hu => ScopeId.ne_iff.mpr (by omega)
  -- Below the copy there are only new scopes, so that the one that it comes under is not there.
  have hother : ∀ {v}, k.Below copy v → v ≠ s := by
    rintro v hv rfl
    exact absurd ((hmade v).mp hv).1 (Nat.not_le.mpr hs)
  have himage : ρ.Subtrees h h' source copy := by
    refine hρ.congr_right ⟨fun _ hv => ?_, fun _ => ?_, fun hv => ?_, fun _ => hvalue _⟩
    · rw [hnode, if_neg hv]
    · rw [hnode]
    · rw [hnode, if_neg (hother hv)]
  refine ⟨⟨hitems ▸ hkept.items, fun hi => (hvalue _).trans (hkept.value hi)⟩, ?_, ?_, ?_, ?_,
    ⟨ρ, himage⟩, ?_, ?_⟩
  · rw [hnode, if_neg (hold hs), if_pos rfl, if_neg (hold hs), hkept.scope hs]
  · intro u hu hus
    rw [hnode, if_neg (hold hu), if_neg hus, if_neg (hold hu), hkept.scope hu]
  · rw [hnode]
    exact if_pos rfl
  · rw [hnode]
    exact if_pos rfl
  · intro v
    rw [himage.below_iff', ← hρ.below_iff', hmade, hsize]
  · intro j hj
    exact hfresh j (hρ.held_iff'.mpr (himage.held_iff'.mp hj))

/-- The copy of a subtree matches it, under another name and wherever it is
attached. -/
theorem Forest.graft (hf : h.Forest) (hs : s.index < h.scopes.size)
    (hsource : source.index < h.scopes.size) (name : String) :
    ∃ h', ((h.copyAlone source.copy).2.rename (h.copyAlone source.copy).1 name).addChild s
        (h.copyAlone source.copy).1 = .ok h' ∧
      h.Grafted h' s source (h.copyAlone source.copy).1 name := by
  obtain ⟨P, hP, -, hscopes⟩ := hf.toSound.region
  obtain ⟨σ, hc, hfound, hparent⟩ := ScopeId.copyAlone_spec hP (hscopes hsource)
  generalize h.copyAlone source.copy = r at hc hfound hparent ⊢
  obtain ⟨copy, k⟩ := r
  have hpaired := hc.subtrees hf.toSound hfound
  refine ⟨_, hc.addChild_ok hf.rooted hs hfound hparent name,
    hc.kept.attach_grafted hs hpaired (fun v => ?_) (fun j hj => ?_) name⟩
  · rw [hpaired.below_iff']
    exact ⟨fun ⟨u, huv⟩ => (hc.scope huv).2.imp_right And.left, fun hv => hc.madeScope hv.1 hv.2⟩
  · obtain ⟨i, hij⟩ := hpaired.held_iff'.mp hj
    exact (hc.item hij).2.1

/-- Reading before leaves no trace. -/
theorem Untouched.graft (hu : h.Untouched h') (hf : h.Forest)
    (hg : h'.Grafted k s source copy name) : h.Grafted k s source copy name := by
  have hscope : ∀ u, h'.scope u = h.scope u := fun u => by rw [scope, hu.scopes, scope]
  have hsize : h'.scopes.size = h.scopes.size := congrArg Array.size hu.scopes
  obtain ⟨ρ, hρ⟩ := hg.image
  have hsame : h'.SameBelow h source := by
    refine ⟨fun _ _ => ?_, fun _ => ?_, fun _ => ?_, ?_⟩
    · rw [hscope]
    · rw [hscope]
    · rw [hscope]
    · rintro i ⟨u, name, -, hi⟩
      rw [Heap.binding?, hscope] at hi
      exact (hu.value (hf.bound _ _ ((hf.toSound.binding?_iff u name i).mp hi))).symm
  exact {
    hu.toItemsKept.trans hg.toItemsKept with
    scope := by rw [hg.scope, hscope]
    elsewhere := fun u hlt hne => (hg.elsewhere u (hsize ▸ hlt) hne).trans (hscope u)
    named := hg.named
    parent := hg.parent
    image := ⟨ρ, hρ.congr_left hsame⟩
    made := fun v => by rw [hg.made, hsize]
    fresh := fun j hj => Nat.le_trans hu.size (hg.fresh j hj) }

end Heap

end ScopeFlow
