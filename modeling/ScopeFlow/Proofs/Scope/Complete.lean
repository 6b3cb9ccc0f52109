import ScopeFlow.Proofs.Scope.Lifetime

/-!
# Complete heaps

A heap is complete if everything that its scopes refer to is there, and names
are in order. How sub-scopes and parents go together is left open, so that a
heap stays complete under changes that need not keep it a forest.

`Carries` says of a heap and what has become of it that nothing has gone and
that what there is now is complete; every change of scopes does.
-/

namespace ScopeFlow.Heap

variable {h h' h'' : Heap} {s c : ScopeId} {f : Scope → Scope} {name : String} {i : ItemId}

/-- All that scopes refer to is there, and names are in order. -/
structure Complete (h : Heap) : Prop where
  bound : ∀ s, ∀ entry ∈ (h.scope s).bindings.entries, entry.2.index < h.items.size
  sorted : ∀ s, (h.scope s).bindings.Sorted
  child : ∀ s, ∀ c ∈ (h.scope s).children, c.index < h.scopes.size
  rooted : h.Rooted

/-- Nothing has gone, and what there is now is complete. -/
structure Carries (h h' : Heap) : Prop where
  complete : h'.Complete
  items : h.items.size ≤ h'.items.size
  scopes : h.scopes.size ≤ h'.scopes.size

theorem Sound.complete (hs : h.Sound) : h.Complete := ⟨hs.bound, hs.sorted, hs.child, hs.rooted⟩

theorem Carries.trans (h₁ : h.Carries h') (h₂ : h'.Carries h'') : h.Carries h'' :=
  ⟨h₂.complete, Nat.le_trans h₁.items h₂.items, Nat.le_trans h₁.scopes h₂.scopes⟩

namespace Complete

theorem refl (hc : h.Complete) : h.Carries h := ⟨hc, Nat.le_refl _, Nat.le_refl _⟩

/-- Changes after which every scope has the variables, the sub-scopes and the
parent that it had. -/
theorem of_same (hc : h.Complete) (hbindings : ∀ t, (h'.scope t).bindings = (h.scope t).bindings)
    (hchildren : ∀ t, (h'.scope t).children = (h.scope t).children)
    (hparent : ∀ t, (h'.scope t).parent = (h.scope t).parent)
    (hitems : h.items.size ≤ h'.items.size) (hscopes : h.scopes.size ≤ h'.scopes.size) :
    h.Carries h' := by
  refine ⟨⟨?_, ?_, ?_, ?_⟩, hitems, hscopes⟩
  · intro s entry he
    rw [hbindings] at he
    exact Nat.lt_of_lt_of_le (hc.bound s entry he) hitems
  · intro s
    rw [hbindings]
    exact hc.sorted s
  · intro s c hmem
    rw [hchildren] at hmem
    exact Nat.lt_of_lt_of_le (hc.child s c hmem) hscopes
  · intro s p hp
    rw [hparent] at hp
    exact Nat.lt_of_lt_of_le (hc.rooted s p hp) hscopes

/-- Changes of other things than scopes. -/
theorem of_scopes (hc : h.Complete) (hscopes : h'.scopes = h.scopes)
    (hitems : h.items.size ≤ h'.items.size) : h.Carries h' := by
  have hscope := Heap.scope_congr hscopes
  refine hc.of_same ?_ ?_ ?_ hitems (by rw [hscopes])
  all_goals simp [hscope]

theorem newItem (hc : h.Complete) (v : Value) : h.Carries (h.newItem v).2 :=
  hc.of_scopes rfl (by simp [Heap.newItem])

theorem newScope (hc : h.Complete) (name : String) : h.Carries (h.newScope name).2 := by
  have hscope := fun t => scope_newScope (h := h) name t
  refine hc.of_same ?_ ?_ ?_ (Nat.le_refl _) (by simp [Heap.newScope])
  all_goals
    intro t
    obtain ⟨title, heq⟩ := hscope t
    rw [heq]

/-! ## Single scopes -/

/-- A change of one scope to what refers to nothing but what is there. -/
theorem updateScope (hc : h.Complete)
    (hbound : ∀ entry ∈ (f (h.scope s)).bindings.entries, entry.2.index < h.items.size)
    (hsorted : (f (h.scope s)).bindings.Sorted)
    (hchild : ∀ c ∈ (f (h.scope s)).children, c.index < h.scopes.size)
    (hparent : ∀ p, (f (h.scope s)).parent = some p → p.index < h.scopes.size) :
    h.Carries (h.updateScope s f) := by
  have hsize : (h.updateScope s f).scopes.size = h.scopes.size := scopes_size_updateScope
  refine ⟨⟨?_, ?_, ?_, ?_⟩, Nat.le_refl _, Nat.le_of_eq hsize.symm⟩
  all_goals
    intro t
    rw [scope_updateScope]
    split
  · exact hbound
  · exact hc.bound t
  · exact hsorted
  · exact hc.sorted t
  · rw [hsize]
    exact hchild
  · rw [hsize]
    exact hc.child t
  · rw [hsize]
    exact hparent
  · rw [hsize]
    exact hc.rooted t

theorem rename (hc : h.Complete) (s : ScopeId) (name : String) : h.Carries (h.rename s name) :=
  hc.updateScope (hc.bound s) (hc.sorted s) (hc.child s) (hc.rooted s)

theorem bindVariable (hc : h.Complete) (s : ScopeId) (name : String)
    (hi : i.index < h.items.size) : h.Carries (h.bindVariable s name i) := by
  have hsorted : ((h.scope s).bindings.insert name i).Sorted := (hc.sorted s).insert
  refine hc.updateScope ?_ hsorted (hc.child s) (hc.rooted s)
  rintro ⟨other, j⟩ he
  have hfound := hsorted.find?_iff.mpr he
  rw [Bindings.find?_insert] at hfound
  split at hfound
  · cases hfound
    exact hi
  · exact hc.bound s (other, j) ((hc.sorted s).find?_iff.mp hfound)

theorem unbindVariable (hc : h.Complete) (s : ScopeId) (name : String) :
    h.Carries (h.unbindVariable s name) := by
  refine hc.updateScope ?_ (hc.sorted s).erase (hc.child s) (hc.rooted s)
  intro entry he
  exact hc.bound s entry (List.mem_of_mem_filter he)

theorem addVariable (hc : h.Complete) (hi : i.index < h.items.size)
    (hok : h.addVariable s name i = .ok h') : h.Carries h' := by
  unfold Heap.addVariable at hok
  split at hok
  · cases hok
  · cases hok
    exact hc.bindVariable s name hi

theorem setParent (hc : h.Complete) {parent : Option ScopeId}
    (hparent : ∀ p, parent = some p → p.index < h.scopes.size) :
    h.Carries (h.setParent s parent) :=
  hc.updateScope (hc.bound s) (hc.sorted s) (hc.child s) hparent

/-- A change of the sub-scopes of one scope. -/
theorem relist (hc : h.Complete) {l : List ScopeId → List ScopeId}
    (hl : ∀ c ∈ l (h.scope s).children, c.index < h.scopes.size) :
    h.Carries (h.updateScope s fun node => { node with children := l node.children }) :=
  hc.updateScope (hc.bound s) (hc.sorted s) hl (hc.rooted s)

/-! ## Attaching and detaching -/

theorem insertChild (hc : h.Complete) {place : Nat} (hs : s.index < h.scopes.size)
    (hchild : c.index < h.scopes.size) (hok : h.insertChild s place c = .ok h') :
    h.Carries h' := by
  unfold Heap.insertChild at hok
  dsimp only at hok
  split at hok
  · cases hok
  split at hok
  · cases hok
  split at hok
  · cases hok
  cases hok
  have hlinked : h.Carries (h.setParent c (some s)) := by
    apply hc.setParent
    intro p hp
    cases hp
    exact hs
  refine hlinked.trans
    (hlinked.complete.relist (l := fun cs => cs.insertIdx place c) fun d hd => ?_)
  rcases List.eq_or_mem_of_mem_insertIdx hd with rfl | hd
  · exact Nat.lt_of_lt_of_le hchild hlinked.scopes
  · exact hlinked.complete.child s d hd

/-- New scopes have no variables and no sub-scopes. -/
theorem addEmptyScopes (hc : h.Complete) (hs : s.index < h.scopes.size) (first count : Nat) :
    h.Carries (h.addScopes (emptyScopes first count s)) := by
  have hkept : h.Kept (h.addScopes (emptyScopes first count s)) := .addScopes _
  have hcases : ∀ t : ScopeId, ¬ t.index < h.scopes.size →
      (h.addScopes (emptyScopes first count s)).scope t = .named "" ∨
        ∃ n < count, t = ⟨h.scopes.size + n⟩ ∧
          (h.addScopes (emptyScopes first count s)).scope t =
            ⟨toString (first + n), .empty, [], some s⟩ :=
    fun t ht => emptyScopes_cases (Nat.not_lt.mp ht)
  generalize h.addScopes (emptyScopes first count s) = h' at hkept hcases ⊢
  refine ⟨⟨?_, ?_, ?_, ?_⟩, hkept.items, hkept.scopes⟩
  all_goals
    intro t
    by_cases ht : t.index < h.scopes.size
  · rw [hkept.scope ht]
    exact fun entry he => Nat.lt_of_lt_of_le (hc.bound t entry he) hkept.items
  · rcases hcases t ht with heq | ⟨n, -, -, heq⟩ <;> simp [heq, Scope.named, Bindings.empty]
  · rw [hkept.scope ht]
    exact hc.sorted t
  · rcases hcases t ht with heq | ⟨n, -, -, heq⟩ <;> rw [heq] <;> exact List.Pairwise.nil
  · rw [hkept.scope ht]
    exact fun c hmem => Nat.lt_of_lt_of_le (hc.child t c hmem) hkept.scopes
  · rcases hcases t ht with heq | ⟨n, -, -, heq⟩ <;> simp [heq, Scope.named]
  · rw [hkept.scope ht]
    exact fun p hp => Nat.lt_of_lt_of_le (hc.rooted t p hp) hkept.scopes
  · rcases hcases t ht with heq | ⟨n, -, -, heq⟩
    · simp [heq, Scope.named]
    · rw [heq]
      intro p hp
      cases hp
      exact Nat.lt_of_lt_of_le hs hkept.scopes

theorem appendFresh (hc : h.Complete) (hs : s.index < h.scopes.size) (count : Nat) :
    h.Carries (h.appendFresh s count) := by
  have hgrown := hc.addEmptyScopes hs (h.scope s).children.length count
  refine hgrown.trans (hgrown.complete.relist (l := fun cs => cs ++ (List.range count).map fun k =>
    ScopeId.mk (h.scopes.size + k)) fun c hmem => ?_)
  rcases List.mem_append.mp hmem with hmem | hmem
  · exact hgrown.complete.child s c hmem
  · obtain ⟨k, hk, rfl⟩ := List.mem_map.mp hmem
    rw [scopes_size_addScopes, emptyScopes, List.length_map, List.length_range]
    exact Nat.add_lt_add_left (List.mem_range.mp hk) _

theorem removeChild (hc : h.Complete) (s : ScopeId) (place : Nat) :
    h.Carries (h.removeChild s place).2 := by
  unfold Heap.removeChild
  split
  · exact hc.refl
  · have hlisted := hc.relist (s := s) (l := fun cs => cs.eraseIdx place) fun d hd =>
      hc.child s d (List.mem_of_mem_eraseIdx hd)
    exact hlisted.trans (hlisted.complete.setParent nofun)

theorem detachAll (hc : h.Complete) (cs : List ScopeId) : h.Carries (h.detachAll cs) := by
  induction cs generalizing h with
  | nil => exact hc.refl
  | cons c cs ih =>
      have hfirst : h.Carries (h.setParent c none) := hc.setParent nofun
      exact hfirst.trans (ih hfirst.complete)

theorem clearChildren (hc : h.Complete) (s : ScopeId) : h.Carries (h.clearChildren s).2 := by
  have hlisted := hc.relist (s := s) (l := fun _ => []) nofun
  exact hlisted.trans (hlisted.complete.detachAll _)

/-- Forgetting scopes leaves their places. -/
theorem release (hc : h.Complete) (held : List ScopeId) : h.Carries (h.release held) := by
  have hsize : (h.release held).scopes.size = h.scopes.size := by
    simp [Heap.release]
  refine ⟨⟨?_, ?_, ?_, ?_⟩, Nat.le_refl _, Nat.le_of_eq hsize.symm⟩
  all_goals
    intro t
    rw [scope_release]
    split
  · exact hc.bound t
  · simp [Scope.named, Bindings.empty]
  · exact hc.sorted t
  · exact List.Pairwise.nil
  · rw [hsize]
    exact hc.child t
  · simp [Scope.named]
  · rw [hsize]
    intro p hp
    exact hc.rooted t p (Option.filter_eq_some_iff.mp hp).1
  · simp [Scope.named]

end Complete

end ScopeFlow.Heap
