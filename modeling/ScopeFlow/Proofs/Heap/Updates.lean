import ScopeFlow.Scope.Basic

/-!
# Heaps after updates

What the updates of a heap do to every item and scope: the one named changes,
and no other.

* `Heap.Kept` says that everything made so far is as it was, whatever has been
  made since;
* `Heap.Rooted` says that no scope is attached to one not yet made, so that
  ancestors are scopes of the heap (`mem_lineage_lt`).
-/

namespace ScopeFlow

theorem ItemId.ne_iff {i j : ItemId} : i ≠ j ↔ i.index ≠ j.index := by
  cases i
  cases j
  simp

theorem ScopeId.ne_iff {s t : ScopeId} : s ≠ t ↔ s.index ≠ t.index := by
  cases s
  cases t
  simp

namespace Heap

variable {h h' h'' : Heap} {i j : ItemId} {s t : ScopeId} {v : Value} {f : Scope → Scope}
  {name : String}

/-! ## Items -/

theorem value_congr (hitems : h'.items = h.items) (i : ItemId) : h'.value i = h.value i := by
  rw [value, value, hitems]

theorem value_setValue_self (hi : i.index < h.items.size) : (h.setValue i v).value i = v := by
  simp [setValue, value, hi]

theorem value_setValue_ne (hne : j ≠ i) : (h.setValue i v).value j = h.value j := by
  have hidx := ItemId.ne_iff.mp hne
  simp [setValue, value, Array.getElem?_setIfInBounds_ne hidx.symm]

theorem value_newItem_self : (h.newItem v).2.value ⟨h.items.size⟩ = v := by
  simp [newItem, value]

theorem value_newItem_lt (hi : i.index < h.items.size) : (h.newItem v).2.value i = h.value i := by
  simp [newItem, value, Array.getElem?_push_lt hi, Array.getElem?_eq_getElem hi]

/-! ## Scopes -/

theorem scope_congr (hscopes : h'.scopes = h.scopes) (t : ScopeId) : h'.scope t = h.scope t := by
  rw [scope, scope, hscopes]

theorem scopes_size_updateScope : (h.updateScope s f).scopes.size = h.scopes.size :=
  Array.size_modify

theorem scope_updateScope_self (hs : s.index < h.scopes.size) :
    (h.updateScope s f).scope s = f (h.scope s) := by
  simp [updateScope, scope, hs, Array.getElem_modify]

theorem scope_updateScope_ne (hne : t ≠ s) : (h.updateScope s f).scope t = h.scope t := by
  have hidx := ScopeId.ne_iff.mp hne
  simp [updateScope, scope, Array.getElem?_modify, hidx.symm]

/-- A scope that is not there does not change. -/
theorem updateScope_of_le (hs : h.scopes.size ≤ s.index) : h.updateScope s f = h := by
  unfold updateScope
  congr 1
  apply Array.ext
  · exact Array.size_modify
  · intro n hn hn'
    rw [Array.getElem_modify, if_neg (by omega)]

theorem scope_updateScope (t : ScopeId) :
    (h.updateScope s f).scope t =
      if t = s ∧ s.index < h.scopes.size then f (h.scope s) else h.scope t := by
  by_cases hs : s.index < h.scopes.size
  · by_cases ht : t = s
    · subst ht
      simp [hs, scope_updateScope_self]
    · simp [ht, scope_updateScope_ne]
  · rw [updateScope_of_le (by omega)]
    simp [hs]

theorem scope_of_le (hs : h.scopes.size ≤ s.index) : h.scope s = .named "" := by
  simp [scope, hs]

theorem scope_newScope_self : (h.newScope name).2.scope ⟨h.scopes.size⟩ = .named name := by
  simp [newScope, scope]

theorem scope_newScope_lt (hs : s.index < h.scopes.size) :
    (h.newScope name).2.scope s = h.scope s := by
  simp [newScope, scope, Array.getElem?_push_lt hs, Array.getElem?_eq_getElem hs]

/-- A new scope has nothing in it and is in nothing, like one that is not
there. -/
theorem scope_newScope (name : String) (t : ScopeId) :
    ∃ title, (h.newScope name).2.scope t = { h.scope t with name := title } := by
  by_cases ht : t.index < h.scopes.size
  · exact ⟨(h.scope t).name, scope_newScope_lt ht⟩
  · have hold : h.scope t = .named "" := scope_of_le (by omega)
    by_cases hlast : t = ⟨h.scopes.size⟩
    · subst hlast
      rw [scope_newScope_self, hold]
      exact ⟨name, rfl⟩
    · have hne := ScopeId.ne_iff.mp hlast
      change t.index ≠ h.scopes.size at hne
      have hnew : (h.newScope name).2.scope t = .named "" := by
        apply scope_of_le
        simp only [newScope, Array.size_push]
        omega
      rw [hnew, hold]
      exact ⟨"", rfl⟩

/-- The heap with more scopes. -/
def addScopes (h : Heap) (fresh : List Scope) : Heap := { h with scopes := h.scopes ++ fresh }

theorem addScopes_scopes (fresh : List Scope) :
    (h.addScopes fresh).scopes = h.scopes ++ fresh.toArray :=
  Array.ext' (by simp [addScopes])

theorem scopes_size_addScopes (fresh : List Scope) :
    (h.addScopes fresh).scopes.size = h.scopes.size + fresh.length := by
  rw [addScopes_scopes, Array.size_append]
  simp

theorem scope_addScopes_lt (fresh : List Scope) (hs : s.index < h.scopes.size) :
    (h.addScopes fresh).scope s = h.scope s := by
  rw [scope, scope, addScopes_scopes, Array.getElem?_append_left hs]

theorem scope_addScopes_ge (fresh : List Scope) (n : Nat) :
    (h.addScopes fresh).scope ⟨h.scopes.size + n⟩ = (fresh[n]?).getD (.named "") := by
  rw [scope, addScopes_scopes, Array.getElem?_append_right (Nat.le_add_right ..)]
  simp

/-- Scopes with nothing in them, attached to `p` and named by their places. -/
def emptyScopes (first count : Nat) (p : ScopeId) : List Scope :=
  (List.range count).map fun n => ⟨toString (first + n), .empty, [], some p⟩

theorem scope_emptyScopes {first count n : Nat} {p : ScopeId} (hn : n < count) :
    (h.addScopes (emptyScopes first count p)).scope ⟨h.scopes.size + n⟩ =
      ⟨toString (first + n), .empty, [], some p⟩ := by
  rw [scope_addScopes_ge]
  simp [emptyScopes, hn]

/-- Past the end of a heap there are the fresh scopes, and nothing else. -/
theorem emptyScopes_cases {first count : Nat} {p : ScopeId} (hs : h.scopes.size ≤ s.index) :
    (h.addScopes (emptyScopes first count p)).scope s = .named "" ∨
      ∃ n < count, s = ⟨h.scopes.size + n⟩ ∧
        (h.addScopes (emptyScopes first count p)).scope s =
          ⟨toString (first + n), .empty, [], some p⟩ := by
  obtain ⟨m⟩ := s
  obtain ⟨n, rfl⟩ := Nat.exists_eq_add_of_le hs
  by_cases hn : n < count
  · exact .inr ⟨n, hn, rfl, scope_emptyScopes hn⟩
  · refine .inl (scope_of_le ?_)
    rw [scopes_size_addScopes, emptyScopes, List.length_map, List.length_range]
    show h.scopes.size + count ≤ h.scopes.size + n
    omega

/-! ## What is kept -/

/-- Everything made so far is as it was. -/
structure Kept (h h' : Heap) : Prop where
  items : h.items.size ≤ h'.items.size
  scopes : h.scopes.size ≤ h'.scopes.size
  contexts : h.contexts ≤ h'.contexts
  graphs : h.graphs ≤ h'.graphs
  value : ∀ {i}, i.index < h.items.size → h'.value i = h.value i
  scope : ∀ {s}, s.index < h.scopes.size → h'.scope s = h.scope s

namespace Kept

theorem refl : Kept h h :=
  ⟨Nat.le_refl _, Nat.le_refl _, Nat.le_refl _, Nat.le_refl _, fun _ => rfl, fun _ => rfl⟩

theorem trans (hk : Kept h h') (hk' : Kept h' h'') : Kept h h'' where
  items := Nat.le_trans hk.items hk'.items
  scopes := Nat.le_trans hk.scopes hk'.scopes
  contexts := Nat.le_trans hk.contexts hk'.contexts
  graphs := Nat.le_trans hk.graphs hk'.graphs
  value := fun hi => (hk'.value (Nat.lt_of_lt_of_le hi hk.items)).trans (hk.value hi)
  scope := fun hs => (hk'.scope (Nat.lt_of_lt_of_le hs hk.scopes)).trans (hk.scope hs)

theorem newItem : Kept h (h.newItem v).2 :=
  ⟨by simp [Heap.newItem], Nat.le_refl _, Nat.le_refl _, Nat.le_refl _, value_newItem_lt,
    fun _ => rfl⟩

theorem newScope : Kept h (h.newScope name).2 :=
  ⟨Nat.le_refl _, by simp [Heap.newScope], Nat.le_refl _, Nat.le_refl _, fun _ => rfl,
    scope_newScope_lt⟩

theorem addScopes (fresh : List Scope) : Kept h (h.addScopes fresh) :=
  ⟨Nat.le_refl _, by rw [scopes_size_addScopes]; exact Nat.le_add_right .., Nat.le_refl _,
    Nat.le_refl _, fun _ => rfl, scope_addScopes_lt fresh⟩

theorem newContext : Kept h h.newContext.2 :=
  ⟨Nat.le_refl _, Nat.le_refl _, Nat.le_succ _, Nat.le_refl _, fun _ => rfl, fun _ => rfl⟩

theorem newGraph : Kept h h.newGraph.2 :=
  ⟨Nat.le_refl _, Nat.le_refl _, Nat.le_refl _, Nat.le_succ _, fun _ => rfl, fun _ => rfl⟩

/-- A change of a scope made later keeps what was made before. -/
theorem updateScope (hk : Kept h h') (hs : h.scopes.size ≤ s.index) :
    Kept h (h'.updateScope s f) where
  items := hk.items
  scopes := by rw [scopes_size_updateScope]; exact hk.scopes
  contexts := hk.contexts
  graphs := hk.graphs
  value := hk.value
  scope := by
    intro t ht
    rw [scope_updateScope_ne (by rw [ScopeId.ne_iff]; omega)]
    exact hk.scope ht

end Kept

/-! ## Ancestors -/

/-- Every scope that is attached is attached to a scope of the heap. -/
def Rooted (h : Heap) : Prop :=
  ∀ s p, (h.scope s).parent = some p → p.index < h.scopes.size

theorem mem_lineageWithin_lt {n : Nat}
    (hup : ∀ s : ScopeId, s.index < n → ∀ p, (h.scope s).parent = some p → p.index < n)
    (bound : Nat) : ∀ s : ScopeId, s.index < n → ∀ t ∈ h.lineageWithin bound s, t.index < n := by
  induction bound with
  | zero =>
      intro s _ t ht
      simp [lineageWithin] at ht
  | succ bound ih =>
      intro s hs t ht
      rw [lineageWithin, List.mem_cons] at ht
      rcases ht with rfl | ht
      · exact hs
      · cases hp : (h.scope s).parent with
        | none => simp [hp] at ht
        | some p =>
            rw [hp] at ht
            exact ih p (hup s hs p hp) t ht

/-- Where no scope below a number is attached to one above, all ancestors of
one below are below. -/
theorem mem_lineage_lt {n : Nat}
    (hup : ∀ s : ScopeId, s.index < n → ∀ p, (h.scope s).parent = some p → p.index < n)
    (hs : s.index < n) (ht : t ∈ h.lineage s) : t.index < n :=
  mem_lineageWithin_lt hup _ s hs t ht

theorem Rooted.updateScope (hr : h.Rooted)
    (hf : ∀ p, (f (h.scope s)).parent = some p →
      (h.scope s).parent = some p ∨ p.index < h.scopes.size) :
    (h.updateScope s f).Rooted := by
  intro t p hp
  rw [scopes_size_updateScope]
  by_cases hts : t = s
  · subst hts
    by_cases ht : t.index < h.scopes.size
    · rw [scope_updateScope_self ht] at hp
      rcases hf p hp with hold | hnew
      · exact hr t p hold
      · exact hnew
    · rw [updateScope_of_le (by omega)] at hp
      exact hr t p hp
  · rw [scope_updateScope_ne hts] at hp
    exact hr t p hp

/-- Growth keeps the heap rooted if what is new is attached to what is there. -/
theorem Rooted.grow (hr : h.Rooted) (hk : h.Kept h')
    (hnew : ∀ s p, h.scopes.size ≤ s.index → (h'.scope s).parent = some p →
      p.index < h'.scopes.size) : h'.Rooted := by
  intro s p hp
  by_cases hs : s.index < h.scopes.size
  · rw [hk.scope hs] at hp
    exact Nat.lt_of_lt_of_le (hr s p hp) hk.scopes
  · exact hnew s p (by omega) hp

end Heap

end ScopeFlow
