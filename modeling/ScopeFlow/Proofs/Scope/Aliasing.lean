import ScopeFlow.Proofs.Scope.Operations

/-!
# Regions without aliasing

A region of scopes is separate if no two variables in it share an item, and
none is bound to an item that is held elsewhere, such as by a declaration.
Whatever an operator does in the region leaves it separate, together with the
scopes made meanwhile (`Context.Edit.stays`): items that get bound are fresh,
and a copy of a subtree binds the copies of items that were apart.
-/

namespace ScopeFlow

namespace Heap

variable {held : List ItemId} {S : ScopeId → Prop} {h h' h'' : Heap} {s t u c source : ScopeId}
  {name other : String} {i j : ItemId} {v : Value} {place : Nat}

/-! ## Bindings after updates -/

theorem binding?_bindVariable (hs : s.index < h.scopes.size) :
    (h.bindVariable s name i).binding? t other =
      if t = s ∧ name = other then some i else h.binding? t other := by
  rw [binding?, bindVariable, scope_updateScope]
  by_cases ht : t = s
  · subst ht
    rw [if_pos ⟨rfl, hs⟩, Bindings.find?_insert]
    simp [binding?]
  · simp [ht, binding?]

theorem binding?_unbindVariable (hi : (h.unbindVariable s name).binding? t other = some i) :
    h.binding? t other = some i := by
  rw [binding?, unbindVariable, scope_updateScope] at hi
  split at hi
  · rename_i hts
    rw [Bindings.find?_erase] at hi
    split at hi
    · cases hi
    · rw [hts.1]
      exact hi
  · exact hi

/-! ## Separate regions -/

/-- A region closed downwards, in which every variable has an item to itself
that is not one of those held. -/
structure Separate (h : Heap) (held : List ItemId) (S : ScopeId → Prop) : Prop where
  made : ∀ i ∈ held, i.index < h.items.size
  scope : ∀ {s}, S s → s.index < h.scopes.size
  child : ∀ {s c}, S s → c ∈ (h.scope s).children → S c
  bound : ∀ {s name i}, S s → h.binding? s name = some i → i.index < h.items.size
  free : ∀ {s name i}, S s → h.binding? s name = some i → i ∉ held
  apart : ∀ {s t name other i}, S s → S t → h.binding? s name = some i →
    h.binding? t other = some i → s = t ∧ name = other

/-- The scopes of a region, and those that have been made since. -/
def With (S : ScopeId → Prop) (h h' : Heap) (t : ScopeId) : Prop :=
  S t ∨ h.scopes.size ≤ t.index ∧ t.index < h'.scopes.size

theorem With.of_size (hsize : h'.scopes.size = h.scopes.size) (ht : With S h h' t) : S t := by
  rcases ht with ht | ⟨hle, hlt⟩
  · exact ht
  · omega

/-- A change within a separate region: what is held keeps its value, what is
outside is as it was, and with all that is new the region is separate still. -/
structure Stays (held : List ItemId) (S : ScopeId → Prop) (h h' : Heap) : Prop where
  items : h.items.size ≤ h'.items.size
  scopes : h.scopes.size ≤ h'.scopes.size
  value : ∀ i ∈ held, h'.value i = h.value i
  outside : ∀ t : ScopeId, t.index < h.scopes.size → ¬ S t → h'.scope t = h.scope t
  separate : h'.Separate held (With S h h')

theorem Stays.trans (h₁ : Stays held S h h') (h₂ : Stays held (With S h h') h' h'') :
    Stays held S h h'' := by
  have hscopes := h₁.scopes
  have hscopes' := h₂.scopes
  have hwith : With (With S h h') h' h'' = With S h h'' := by
    funext t
    apply propext
    unfold With
    constructor
    · rintro ((ht | ⟨hle, hlt⟩) | ⟨hle, hlt⟩)
      · exact .inl ht
      · exact .inr ⟨hle, by omega⟩
      · exact .inr ⟨by omega, hlt⟩
    · rintro (ht | ⟨hle, hlt⟩)
      · exact .inl (.inl ht)
      · by_cases hold : t.index < h'.scopes.size
        · exact .inl (.inr ⟨hle, hold⟩)
        · exact .inr ⟨by omega, hlt⟩
  refine ⟨Nat.le_trans h₁.items h₂.items, Nat.le_trans hscopes hscopes', ?_, ?_, ?_⟩
  · intro i hi
    rw [h₂.value i hi, h₁.value i hi]
  · intro t ht hno
    have hno' : ¬ With S h h' t := by
      rintro (hS | ⟨hle, -⟩)
      · exact hno hS
      · omega
    rw [h₂.outside t (by omega) hno', h₁.outside t ht hno]
  · rw [← hwith]
    exact h₂.separate

/-- A change after which every variable of the region has its old item, or one
that is fresh and bound nowhere else. -/
theorem Stays.of_fresh (hsep : h.Separate held S) (hitems : h.items.size ≤ h'.items.size)
    (hscopes : h.scopes.size ≤ h'.scopes.size) (hvalue : ∀ i ∈ held, h'.value i = h.value i)
    (houtside : ∀ t : ScopeId, t.index < h.scopes.size → ¬ S t → h'.scope t = h.scope t)
    (hchild : ∀ {t c}, With S h h' t → c ∈ (h'.scope t).children → With S h h' c)
    (hbinding : ∀ {t name i}, With S h h' t → h'.binding? t name = some i →
      S t ∧ h.binding? t name = some i ∨ h.items.size ≤ i.index ∧ i.index < h'.items.size)
    (hfresh : ∀ {t u name other i}, With S h h' t → With S h h' u →
      h.items.size ≤ i.index → h'.binding? t name = some i → h'.binding? u other = some i →
      t = u ∧ name = other) : Stays held S h h' := by
  refine ⟨hitems, hscopes, hvalue, houtside, ?_, ?_, hchild, ?_, ?_, ?_⟩
  · exact fun i hi => Nat.lt_of_lt_of_le (hsep.made i hi) hitems
  · rintro t (ht | ⟨-, hlt⟩)
    · exact Nat.lt_of_lt_of_le (hsep.scope ht) hscopes
    · exact hlt
  · intro t name i ht hi
    rcases hbinding ht hi with ⟨hS, hold⟩ | ⟨-, hlt⟩
    · exact Nat.lt_of_lt_of_le (hsep.bound hS hold) hitems
    · exact hlt
  · intro t name i ht hi hheld
    rcases hbinding ht hi with ⟨hS, hold⟩ | ⟨hle, -⟩
    · exact hsep.free hS hold hheld
    · have := hsep.made i hheld
      omega
  · intro t u name other i ht hu hi hi'
    rcases hbinding ht hi with ⟨hS, hold⟩ | ⟨hle, -⟩
    · rcases hbinding hu hi' with ⟨hS', hold'⟩ | ⟨hle, -⟩
      · exact hsep.apart hS hS' hold hold'
      · have := hsep.bound hS hold
        omega
    · exact hfresh ht hu hle hi hi'

/-- A change after which the variables of the region have no items but their
old ones. -/
theorem Stays.of_old (hsep : h.Separate held S) (hitems : h.items.size ≤ h'.items.size)
    (hscopes : h.scopes.size ≤ h'.scopes.size) (hvalue : ∀ i ∈ held, h'.value i = h.value i)
    (houtside : ∀ t : ScopeId, t.index < h.scopes.size → ¬ S t → h'.scope t = h.scope t)
    (hchild : ∀ {t c}, With S h h' t → c ∈ (h'.scope t).children → With S h h' c)
    (hbinding : ∀ {t name i}, With S h h' t → h'.binding? t name = some i →
      S t ∧ h.binding? t name = some i) : Stays held S h h' := by
  refine .of_fresh hsep hitems hscopes hvalue houtside hchild
    (fun ht hi => .inl (hbinding ht hi)) fun ht _ hle hi _ => ?_
  obtain ⟨hS, hold⟩ := hbinding ht hi
  have := hsep.bound hS hold
  omega

theorem Stays.refl (hsep : h.Separate held S) : Stays held S h h := by
  refine .of_old hsep (Nat.le_refl _) (Nat.le_refl _) (fun _ _ => rfl) (fun _ _ _ => rfl) ?_ ?_
  · exact fun ht hc => .inl (hsep.child (ht.of_size rfl) hc)
  · exact fun ht hi => ⟨ht.of_size rfl, hi⟩

/-! ## Changes of items and variables -/

namespace Separate

variable (hsep : h.Separate held S)
include hsep

/-- Changes that leave all scopes alone. -/
theorem of_scopes (hsame : h'.scopes = h.scopes) (hitems : h.items.size ≤ h'.items.size)
    (hvalue : ∀ i ∈ held, h'.value i = h.value i) : Stays held S h h' := by
  have hsize : h'.scopes.size = h.scopes.size := by rw [hsame]
  have hscope := Heap.scope_congr hsame
  refine .of_old hsep hitems (Nat.le_of_eq hsize.symm) hvalue (fun t _ _ => hscope t) ?_ ?_
  · intro t c ht hc
    rw [hscope] at hc
    exact .inl (hsep.child (ht.of_size hsize) hc)
  · intro t name i ht hi
    rw [binding?, hscope] at hi
    exact ⟨ht.of_size hsize, hi⟩

theorem newItem (v : Value) : Stays held S h (h.newItem v).2 :=
  hsep.of_scopes rfl (by simp [Heap.newItem]) fun i hi => value_newItem_lt (hsep.made i hi)

theorem setValue (hs : S s) (hi : h.binding? s name = some i) (v : Value) :
    Stays held S h (h.setValue i v) := by
  refine hsep.of_scopes rfl (by simp [Heap.setValue]) fun j hj => value_setValue_ne ?_
  rintro rfl
  exact hsep.free hs hi hj

/-- Binding a fresh item. -/
theorem bindFresh (hs : S s) (name : String) (v : Value) :
    Stays held S h ((h.newItem v).2.bindVariable s name ⟨h.items.size⟩) := by
  have hlt : s.index < (h.newItem v).2.scopes.size := hsep.scope hs
  have hsize : ((h.newItem v).2.bindVariable s name ⟨h.items.size⟩).scopes.size = h.scopes.size :=
    scopes_size_updateScope
  have hbinding : ∀ {t other i},
      ((h.newItem v).2.bindVariable s name ⟨h.items.size⟩).binding? t other = some i →
        t = s ∧ name = other ∧ i = ⟨h.items.size⟩ ∨ h.binding? t other = some i := by
    intro t other i hi
    rw [binding?_bindVariable hlt] at hi
    split at hi
    · rename_i hand
      exact .inl ⟨hand.1, hand.2, (Option.some.inj hi).symm⟩
    · exact .inr hi
  have hchildren : ∀ t,
      (((h.newItem v).2.bindVariable s name ⟨h.items.size⟩).scope t).children =
        (h.scope t).children := by
    intro t
    rw [bindVariable, scope_updateScope]
    split
    · rename_i hand
      rw [hand.1]
      rfl
    · rfl
  refine .of_fresh hsep (by simp [Heap.newItem, bindVariable, updateScope])
    (Nat.le_of_eq hsize.symm) (fun i hi => value_newItem_lt (hsep.made i hi)) ?_ ?_ ?_ ?_
  · intro t _ hno
    have hne : t ≠ s := fun heq => hno (heq ▸ hs)
    rw [bindVariable, scope_updateScope_ne hne]
    rfl
  · intro t c ht hc
    rw [hchildren] at hc
    exact .inl (hsep.child (ht.of_size hsize) hc)
  · intro t other i ht hi
    rcases hbinding hi with ⟨-, -, rfl⟩ | hold
    · exact .inr ⟨Nat.le_refl _, by simp [Heap.newItem, bindVariable, updateScope]⟩
    · exact .inl ⟨ht.of_size hsize, hold⟩
  · intro t u n m i ht hu hle hi hi'
    have hno : ∀ {x y}, With S h ((h.newItem v).2.bindVariable s name ⟨h.items.size⟩) x →
        h.binding? x y = some i → False := by
      intro x y hx hold
      have := hsep.bound (hx.of_size hsize) hold
      omega
    rcases hbinding hi with ⟨rfl, rfl, -⟩ | hold
    · rcases hbinding hi' with ⟨rfl, rfl, -⟩ | hold
      · exact ⟨rfl, rfl⟩
      · exact (hno hu hold).elim
    · exact (hno ht hold).elim

/-! ## Changes of the tree -/

/-- Changes after which all scopes have the variables that they had, and lists
of sub-scopes from the region. -/
theorem of_bindings (hitems : h'.items = h.items) (hsize : h.scopes.size ≤ h'.scopes.size)
    (hbindings : ∀ t : ScopeId, t.index < h.scopes.size →
      (h'.scope t).bindings = (h.scope t).bindings)
    (hnew : ∀ t : ScopeId, h.scopes.size ≤ t.index → (h'.scope t).bindings = .empty)
    (houtside : ∀ t : ScopeId, t.index < h.scopes.size → ¬ S t → h'.scope t = h.scope t)
    (hchild : ∀ {t c}, With S h h' t → c ∈ (h'.scope t).children → With S h h' c) :
    Stays held S h h' := by
  refine .of_old hsep (Nat.le_of_eq (by rw [hitems])) hsize ?_ houtside hchild ?_
  · exact fun i _ => value_congr hitems i
  · rintro t name i (ht | ⟨hle, -⟩) hi
    · rw [binding?, hbindings t (hsep.scope ht)] at hi
      exact ⟨ht, hi⟩
    · rw [binding?, hnew t hle, Bindings.find?_empty] at hi
      cases hi

/-- The same for changes that make no scopes. -/
theorem of_shape (hitems : h'.items = h.items) (hsize : h'.scopes.size = h.scopes.size)
    (hbindings : ∀ t, (h'.scope t).bindings = (h.scope t).bindings)
    (houtside : ∀ t, ¬ S t → h'.scope t = h.scope t)
    (hchild : ∀ {t c}, S t → c ∈ (h'.scope t).children → S c) : Stays held S h h' := by
  refine hsep.of_bindings hitems (Nat.le_of_eq hsize.symm) (fun t _ => hbindings t) ?_
    (fun t _ hno => houtside t hno) fun ht hc => .inl (hchild (ht.of_size hsize) hc)
  intro t hle
  rw [scope_of_le (by omega)]
  rfl

theorem unbindVariable (hs : S s) (name : String) : Stays held S h (h.unbindVariable s name) := by
  have hsize : (h.unbindVariable s name).scopes.size = h.scopes.size := scopes_size_updateScope
  refine .of_old hsep (Nat.le_refl _) (Nat.le_of_eq hsize.symm) (fun _ _ => rfl) ?_ ?_ ?_
  · intro t _ hno
    have hne : t ≠ s := fun heq => hno (heq ▸ hs)
    rw [Heap.unbindVariable, scope_updateScope_ne hne]
  · intro t c ht hc
    rw [Heap.unbindVariable, scope_updateScope] at hc
    have ht := ht.of_size hsize
    split at hc
    · exact .inl (hsep.child hs hc)
    · exact .inl (hsep.child ht hc)
  · exact fun ht hi => ⟨ht.of_size hsize, binding?_unbindVariable hi⟩

theorem rename (hs : S s) (name : String) : Stays held S h (h.rename s name) := by
  have hscope : ∀ t, (h.rename s name).scope t =
      { h.scope t with name := ((h.rename s name).scope t).name } := by
    intro t
    rw [Heap.rename, scope_updateScope]
    split
    · rename_i hand
      rw [hand.1]
    · rfl
  refine hsep.of_shape rfl scopes_size_updateScope (fun t => ?_) ?_ ?_
  · rw [hscope]
  · intro t hno
    have hne : t ≠ s := fun heq => hno (heq ▸ hs)
    rw [Heap.rename, scope_updateScope_ne hne]
  · intro t c ht hc
    rw [hscope] at hc
    exact hsep.child ht hc

theorem appendFresh (hs : S s) (count : Nat) : Stays held S h (h.appendFresh s count) := by
  have hlt := hsep.scope hs
  have hsize := scopes_size_appendFresh (h := h) s count
  have hbindings : ∀ t, ((h.appendFresh s count).scope t).bindings =
      ((h.addScopes (emptyScopes (h.scope s).children.length count s)).scope t).bindings := by
    intro t
    show (((h.addScopes (emptyScopes (h.scope s).children.length count s)).updateScope s _).scope
      t).bindings = _
    rw [scope_updateScope]
    split
    · rename_i hand
      rw [hand.1]
    · rfl
  refine hsep.of_bindings rfl (by omega) ?_ ?_ ?_ ?_
  · intro t ht
    rw [hbindings, scope_addScopes_lt _ ht]
  · intro t hle
    rw [hbindings]
    rcases emptyScopes_cases (h := h) (p := s) hle with heq | ⟨n, -, -, heq⟩
    · rw [heq]
      rfl
    · rw [heq]
  · intro t ht hno
    have hne : t ≠ s := fun heq => hno (heq ▸ hs)
    show ((h.addScopes (emptyScopes (h.scope s).children.length count s)).updateScope s _).scope
      t = _
    rw [scope_updateScope_ne hne, scope_addScopes_lt _ ht]
  · intro t c ht hc
    rw [children_appendFresh hlt] at hc
    by_cases hts : t = s
    · rw [if_pos hts, List.mem_append] at hc
      rcases hc with hc | hc
      · exact .inl (hsep.child hs hc)
      · obtain ⟨n, hn, rfl⟩ := List.mem_map.mp hc
        have := List.mem_range.mp hn
        refine .inr ⟨Nat.le_add_right .., ?_⟩
        show h.scopes.size + n < _
        omega
    · rw [if_neg hts] at hc
      rcases ht with ht | ⟨hle, -⟩
      · exact .inl (hsep.child ht hc)
      · have := lt_of_child hc
        omega

theorem removeChild (hs : S s) (place : Nat) : Stays held S h (h.removeChild s place).2 := by
  cases hc : (h.scope s).children[place]? with
  | none =>
      have hsame : (h.removeChild s place).2 = h := by
        unfold Heap.removeChild
        rw [hc]
      rw [hsame]
      exact .refl hsep
  | some c =>
      have hcS := hsep.child hs (List.mem_of_getElem? hc)
      have hscope := scope_removeChild (hsep.scope hs) hc (hsep.scope hcS)
      refine hsep.of_shape ?_ (scopes_size_removeChild s place) (fun t => ?_) ?_ ?_
      · unfold Heap.removeChild
        rw [hc]
        rfl
      · rw [hscope]
      · intro t hno
        have hts : t ≠ s := fun heq => hno (heq ▸ hs)
        have htc : t ≠ c := fun heq => hno (heq ▸ hcS)
        rw [hscope, if_neg hts, if_neg htc]
      · intro t d ht hd
        rw [hscope] at hd
        change d ∈ (if t = s then _ else _ : List ScopeId) at hd
        split at hd
        · exact hsep.child hs (List.mem_of_mem_eraseIdx hd)
        · exact hsep.child ht hd

theorem clearChildren (hs : S s) : Stays held S h (h.clearChildren s).2 := by
  have hchildren : ∀ c ∈ (h.scope s).children, c.index < h.scopes.size :=
    fun c hc => hsep.scope (hsep.child hs hc)
  have hscope := scope_clearChildren (hsep.scope hs) hchildren
  have hitems : ∀ (cs : List ScopeId) (k : Heap), (k.detachAll cs).items = k.items := by
    intro cs
    induction cs with
    | nil => exact fun _ => rfl
    | cons c cs ih => exact fun k => (ih (k.setParent c none)).trans rfl
  refine hsep.of_shape (hitems _ _) (scopes_size_clearChildren s) (fun t => ?_) ?_ ?_
  · rw [hscope]
  · intro t hno
    have hts : t ≠ s := fun heq => hno (heq ▸ hs)
    have htc : t ∉ (h.scope s).children := fun hmem => hno (hsep.child hs hmem)
    rw [hscope, if_neg hts, if_neg htc]
  · intro t d ht hd
    rw [hscope] at hd
    change d ∈ (if t = s then _ else _ : List ScopeId) at hd
    split at hd
    · cases hd
    · exact hsep.child ht hd

theorem attach (hs : S s) (hu : S u) (hplace : place ≤ (h.scope s).children.length) :
    Stays held S h (h.attach s place u) := by
  have hscope := scope_attach (hsep.scope hs) (hsep.scope hu) place
  refine hsep.of_shape rfl (scopes_size_attach s place u) (fun t => ?_) ?_ ?_
  · rw [hscope]
  · intro t hno
    have hts : t ≠ s := fun heq => hno (heq ▸ hs)
    have htu : t ≠ u := fun heq => hno (heq ▸ hu)
    rw [hscope, if_neg hts, if_neg htu]
  · intro t d ht hd
    rw [hscope] at hd
    change d ∈ (if t = s then _ else _ : List ScopeId) at hd
    split at hd
    · rcases (List.mem_insertIdx hplace).mp hd with rfl | hd
      · exact hu
      · exact hsep.child hs hd
    · exact hsep.child ht hd

/-! ## Copies of subtrees -/

theorem of_below (hs : S s) (hst : h.Below s t) : S t := by
  induction hst with
  | self => exact hs
  | child _ hc ih => exact hsep.child ih hc

/-- The items of a copied subtree are copies, one for each variable. -/
theorem copyAlone (hf : h.Forest) (hsource : S source) :
    Stays held S h (h.copyAlone source.copy).2 ∧
      With S h (h.copyAlone source.copy).2 (h.copyAlone source.copy).1 := by
  obtain ⟨P, hP, -, hscopes⟩ := hf.toSound.region
  obtain ⟨σ, hc, hfound, -⟩ := ScopeId.copyAlone_spec hP (hscopes (hsep.scope hsource))
  generalize h.copyAlone source.copy = r at hc hfound ⊢
  obtain ⟨copy, h'⟩ := r
  have hkept := hc.kept
  -- A new scope is the copy of one below the source, with the copies of its items.
  have hnew : ∀ {t}, With S h h' t → ¬ S t → ∃ u, S u ∧ σ.scopeTo u t ∧
      (h.scope u).CopiedTo σ (h'.scope t) := by
    rintro t (ht | ⟨hle, hlt⟩) hno
    · exact absurd ht hno
    · obtain ⟨u, hut⟩ := hc.madeScope hle hlt
      exact ⟨u, hsep.of_below hsource (hc.scope hut).1.2, hut, hc.content hut id⟩
  have hcases : ∀ {t name i}, With S h h' t → h'.binding? t name = some i →
      S t ∧ h.binding? t name = some i ∨
        ∃ u j, S u ∧ σ.scopeTo u t ∧ h.binding? u name = some j ∧ σ.itemTo j i := by
    intro t name i ht hi
    by_cases hS : S t
    · rw [binding?, hkept.scope (hsep.scope hS)] at hi
      exact .inl ⟨hS, hi⟩
    · obtain ⟨u, hu, hut, hcopied⟩ := hnew ht hS
      have hsame := Bindings.lookup_same hcopied.bindings name
      change Option.Rel σ.itemTo (h.binding? u name) (h'.binding? t name) at hsame
      rw [hi] at hsame
      generalize hj : h.binding? u name = x at hsame
      cases hsame with
      | @some j _ hji => exact .inr ⟨u, j, hu, hut, hj, hji⟩
  refine ⟨.of_fresh hsep hkept.items hkept.scopes (fun i hi => hkept.value (hsep.made i hi))
    (fun t ht _ => hkept.scope ht) ?_ ?_ ?_, ?_⟩
  · intro t c ht hmem
    by_cases hS : S t
    · rw [hkept.scope (hsep.scope hS)] at hmem
      exact .inl (hsep.child hS hmem)
    · obtain ⟨u, -, -, hcopied⟩ := hnew ht hS
      obtain ⟨_, -, hto⟩ := forall₂_mem hcopied.children.flip hmem
      obtain ⟨-, hle, hlt, -⟩ := hc.scope hto
      exact .inr ⟨hle, hlt⟩
  · intro t name i ht hi
    refine (hcases ht hi).imp_right ?_
    rintro ⟨u, j, -, -, -, hji⟩
    obtain ⟨-, hle, hlt, -⟩ := hc.item hji
    exact ⟨hle, hlt⟩
  · intro t u name other i ht hu hle hi hi'
    have hold : ∀ {x y}, S x ∧ h.binding? x y = some i → False := by
      rintro x y ⟨hS, hb⟩
      have := hsep.bound hS hb
      omega
    rcases hcases ht hi with hb | ⟨x, j, hx, hxt, hb, hji⟩
    · exact (hold hb).elim
    · rcases hcases hu hi' with hb' | ⟨y, j', hy, hyu, hb', hji'⟩
      · exact (hold hb').elim
      · obtain rfl := hc.item_inj hji hji'
        obtain ⟨rfl, rfl⟩ := hsep.apart hx hy hb hb'
        exact ⟨Option.some.inj (hxt.symm.trans hyu), rfl⟩
  · obtain ⟨-, hle, hlt, -⟩ := hc.scope hfound
    exact .inr ⟨hle, hlt⟩

end Separate

end Heap

/-! ## Edits -/

open Heap in
/-- Whatever an operator does in a separate region leaves it separate. -/
theorem Context.Edit.stays {held : List ItemId} {S : ScopeId → Prop} {ctx : Context} {h h' : Heap}
    (he : ctx.Edit h h') (hf : h.Forest) (hsep : h.Separate held S)
    (hctx : ∀ s ∈ ctx.scopeChain, S s) : Stays held S h h' := by
  have hscope := hctx _ ctx.scope_mem_scopeChain
  cases he with
  | item v => exact hsep.newItem v
  | bind hs name v => exact hsep.bindFresh (hctx _ hs) name v
  | write hs hi v => exact hsep.setValue (hctx _ hs) hi v
  | unbind name => exact hsep.unbindVariable hscope name
  | «context» => exact hsep.of_scopes rfl (Nat.le_refl _) fun _ _ => rfl
  | append count => exact hsep.appendFresh hscope count
  | remove place => exact hsep.removeChild hscope place
  | clear => exact hsep.clearChildren hscope
  | duplicate hsource name =>
      obtain ⟨hstays, hcopy⟩ := hsep.copyAlone hf (hsep.child hscope hsource)
      exact hstays.trans (hstays.separate.rename hcopy name)
  | @graft source h' hsource name hadd =>
      obtain ⟨hstays, hcopy⟩ := hsep.copyAlone hf (hsep.child hscope hsource)
      have hrenamed := hstays.trans (hstays.separate.rename hcopy name)
      refine hrenamed.trans ?_
      have hsize := Heap.scopes_size_updateScope (h := (h.copyAlone source.copy).2)
        (s := (h.copyAlone source.copy).1) (f := fun node => { node with name })
      rcases Heap.insertChild_cases _ _ _ _ with ⟨-, message, herr⟩ | ⟨-, -, hplace, heq⟩
      · rw [Heap.addChild, herr] at hadd
        cases hadd
      · rw [Heap.addChild, heq] at hadd
        cases hadd
        refine hrenamed.separate.attach (.inl hscope) ?_ hplace
        rcases hcopy with hcopy | ⟨hle, hlt⟩
        · exact .inl hcopy
        · refine .inr ⟨hle, ?_⟩
          rw [Heap.rename, hsize]
          exact hlt

/-! ## Trees for graphs -/

namespace Heap

variable {h : Heap} {g : SharedGraph} {s : ScopeId}

/-- A tree fit for a graph that is in use: no variable in it is bound to an item
of the graph's declarations, and no two variables share one. -/
structure Suits (h : Heap) (g : SharedGraph) (s : ScopeId) : Prop where
  forest : h.Forest
  scope : s.index < h.scopes.size
  graph : g.id.index < h.graphs
  held : ∀ i ∈ g.graph.held, i.index < h.items.size
  free : ∀ t name i, h.Below s t → h.binding? t name = some i → i ∉ g.graph.held
  apart : ∀ t u name other i, h.Below s t → h.Below s u → h.binding? t name = some i →
    h.binding? u other = some i → t = u ∧ name = other

theorem Suits.separate (hs : h.Suits g s) : h.Separate g.graph.held (h.Below s) where
  made := hs.held
  scope := by
    intro t ht
    obtain ⟨rank, hr⟩ := hs.forest.ranks
    exact (ht.rank_le hr hs.scope).1
  child := fun ht hc => ht.child hc
  bound := by
    intro t name i _ hi
    exact hs.forest.bound t _ ((hs.forest.toSound.binding?_iff t name i).mp hi)
  free := fun ht hi => hs.free _ _ _ ht hi
  apart := fun ht hu hi hi' => hs.apart _ _ _ _ _ ht hu hi hi'

end Heap

end ScopeFlow
