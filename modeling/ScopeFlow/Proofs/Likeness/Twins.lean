import ScopeFlow.Proofs.Scope.Aliasing

/-!
# Trees that look the same

Two trees with the same snapshot have the same shape, so that the scopes and
variables of the one are paired with those of the other by the paths that lead
to them. Where no variables share an item, and none has one of a graph's
declarations, the pairing is a renaming by which the two heaps agree, each
item of a declaration standing for itself (`Suits.agree`).
-/

namespace ScopeFlow

theorem forall₂_with_mem {α β : Type} {R : α → β → Prop} {l : List α} {l' : List β}
    (h : List.Forall₂ R l l') : List.Forall₂ (fun a b => R a b ∧ a ∈ l ∧ b ∈ l') l l' :=
  List.forall₂_iff_zip.mpr ⟨h.length_eq, fun hab => ⟨List.forall₂_zip h hab, List.of_mem_zip hab⟩⟩

theorem forall₂_of_map_eq {α β γ : Type} {f : α → γ} {f' : β → γ} {l : List α} {l' : List β}
    (h : l.map f = l'.map f') : List.Forall₂ (fun a b => f a = f' b) l l' := by
  have heq : List.Forall₂ Eq (l.map f) (l'.map f') := h ▸ List.forall₂_refl _
  rwa [List.forall₂_map_left_iff, List.forall₂_map_right_iff] at heq

namespace Heap

variable {h k : Heap} {s s' t t' u u' : ScopeId} {g : SharedGraph}

/-! ## Paths -/

/-- Scopes that the same path leads to from the tops of two trees. -/
inductive Twin (h k : Heap) (s s' : ScopeId) : ScopeId → ScopeId → Prop
  | top : Twin h k s s' s s'
  | child {t t' c c' : ScopeId} {n : Nat} : Twin h k s s' t t' →
      (h.scope t).children[n]? = some c → (k.scope t').children[n]? = some c' →
      Twin h k s s' c c'

namespace Twin

theorem symm (ht : Twin h k s s' t t') : Twin k h s' s t' t := by
  induction ht with
  | top => exact .top
  | child _ hc hc' ih => exact ih.child hc' hc

theorem under (ht : Twin h k s s' t t') : h.Below s t := by
  induction ht with
  | top => exact .self
  | child _ hc _ ih => exact ih.child (List.mem_of_getElem? hc)

/-- No path leads back to the top. -/
theorem top_not_child (hf : h.Forest) (hs : s.index < h.scopes.size) (ht : h.Below s t) :
    s ∉ (h.scope t).children := by
  intro hmem
  obtain ⟨rank, hr⟩ := hf.ranks
  obtain ⟨hlt, hle⟩ := ht.rank_le hr hs
  have := (hr.child hlt s hmem).2
  omega

/-- One path leads to a scope, and so to one scope of the other tree. -/
theorem unique (hf : h.Forest) (hs : s.index < h.scopes.size) (ht : Twin h k s s' t t')
    (hu : Twin h k s s' t u') : t' = u' := by
  induction ht generalizing u' with
  | top =>
      cases hu with
      | top => rfl
      | child hp hc _ =>
          exact absurd (List.mem_of_getElem? hc) (top_not_child hf hs hp.under)
  | @child p p' c c' n hp hc hc' ih =>
      cases hu with
      | top => exact absurd (List.mem_of_getElem? hc) (top_not_child hf hs hp.under)
      | @child q q' _ d' m hq hd hd' =>
          obtain ⟨rfl, rfl⟩ := hf.only_place hc hd
          obtain rfl := ih hq
          exact Option.some.inj (hc'.symm.trans hd')

end Twin

/-! ## Snapshots -/

/-- The trees below two scopes, as seen from the top. -/
structure Lookalike (h k : Heap) (s s' : ScopeId) : Prop where
  forest : h.Forest
  forest' : k.Forest
  scope : s.index < h.scopes.size
  scope' : s'.index < k.scopes.size
  snapshot : h.snapshot s = k.snapshot s'

namespace Lookalike

variable (hl : Lookalike h k s s')
include hl

theorem snapshotWithin_eq (ht : Twin h k s s' t t') :
    ∀ n, h.scopes.size ≤ n → k.scopes.size ≤ n →
      h.snapshotWithin n t = k.snapshotWithin n t' := by
  induction ht with
  | top =>
      intro n hn hn'
      rw [(hl.forest.asTrees.walks s hl.scope n hn).2.2.1,
        (hl.forest'.asTrees.walks s' hl.scope' n hn').2.2.1]
      exact hl.snapshot
  | @child t t' c c' m _ hc hc' ih =>
      intro n hn hn'
      have hparents := ih (n + 1) (by omega) (by omega)
      rw [snapshotWithin, snapshotWithin] at hparents
      have hat := congrArg (·[m]?) (Snapshot.node.inj hparents).2.2
      simpa [hc, hc'] using hat

/-- What the top of a snapshot shows, at each pair of scopes. -/
theorem node_eq (ht : Twin h k s s' t t') : (h.scope t).name = (k.scope t').name ∧
    h.variableValues t = k.variableValues t' ∧
    (h.scope t).children.length = (k.scope t').children.length := by
  have hnode := hl.snapshotWithin_eq ht (h.scopes.size + k.scopes.size + 1) (by omega) (by omega)
  rw [snapshotWithin, snapshotWithin] at hnode
  obtain ⟨hname, hvalues, hchildren⟩ := Snapshot.node.inj hnode
  refine ⟨hname, hvalues, ?_⟩
  simpa using congrArg List.length hchildren

theorem children (ht : Twin h k s s' t t') :
    List.Forall₂ (Twin h k s s') (h.scope t).children (k.scope t').children := by
  refine List.forall₂_iff_get.mpr ⟨(hl.node_eq ht).2.2, fun n hn hn' => ?_⟩
  exact ht.child (List.getElem?_eq_getElem hn) (List.getElem?_eq_getElem hn')

/-- Each variable has its counterpart, with the same value. -/
theorem entries (ht : Twin h k s s' t t') :
    List.Forall₂ (fun x y => (x.1 = y.1 ∧ h.value x.2 = k.value y.2) ∧
        h.binding? t x.1 = some x.2 ∧ k.binding? t' y.1 = some y.2)
      (h.scope t).bindings.entries (k.scope t').bindings.entries := by
  refine (forall₂_with_mem (forall₂_of_map_eq (hl.node_eq ht).2.1)).imp fun x y hxy => ?_
  obtain ⟨hsame, hx, hy⟩ := hxy
  obtain ⟨hname, hvalue⟩ := Prod.mk.inj hsame
  refine ⟨⟨hname, hvalue⟩, ?_, ?_⟩
  · exact (hl.forest.toSound.binding?_iff t x.1 x.2).mpr hx
  · exact (hl.forest'.toSound.binding?_iff t' y.1 y.2).mpr hy

theorem value_eq (ht : Twin h k s s' t t') {name : String} {i j : ItemId}
    (hi : h.binding? t name = some i) (hj : k.binding? t' name = some j) :
    h.value i = k.value j := by
  have hentries : List.Forall₂ (SameEntry fun i j => h.value i = k.value j)
      (h.scope t).bindings.entries (k.scope t').bindings.entries :=
    (hl.entries ht).imp fun _ _ hxy => hxy.1
  have hsame := Bindings.lookup_same hentries name
  change Option.Rel _ (h.binding? t name) (k.binding? t' name) at hsame
  rw [hi, hj] at hsame
  cases hsame with
  | some hvalue => exact hvalue

end Lookalike

/-! ## The renaming -/

/-- The pairing of two trees, with a graph and the items of its declarations
each paired with itself. -/
def twins (h k : Heap) (s s' : ScopeId) (g : SharedGraph) : Renaming where
  items i j := (∃ t t' name, Twin h k s s' t t' ∧ h.binding? t name = some i ∧
    k.binding? t' name = some j) ∨ i = j ∧ i ∈ g.graph.held
  scopes := Twin h k s s'
  graphs x y := x = g ∧ y = g
  contexts _ _ := False
  outer q := q.index < k.scopes.size

/-- An item of the first tree is paired with one item. -/
theorem Suits.twins_item_eq (hs : h.Suits g s) {i j j' : ItemId}
    (hij : (h.twins k s s' g).items i j) (hij' : (h.twins k s s' g).items i j') : j = j' := by
  rcases hij with ⟨t, t', name, ht, hi, hj⟩ | ⟨rfl, hheld⟩
  · rcases hij' with ⟨u, u', other, hu, hi', hj'⟩ | ⟨rfl, hheld⟩
    · obtain ⟨rfl, rfl⟩ := hs.apart _ _ _ _ _ ht.under hu.under hi hi'
      obtain rfl := ht.unique hs.forest hs.scope hu
      exact Option.some.inj (hj.symm.trans hj')
    · exact absurd hheld (hs.free _ _ _ ht.under hi)
  · rcases hij' with ⟨u, u', other, hu, hi', hj'⟩ | ⟨rfl, -⟩
    · exact absurd hheld (hs.free _ _ _ hu.under hi')
    · rfl

theorem twins_items_symm {i j : ItemId} (hij : (h.twins k s s' g).items i j) :
    (k.twins h s' s g).items j i := by
  rcases hij with ⟨t, t', name, ht, hi, hj⟩ | ⟨rfl, hheld⟩
  · exact .inl ⟨t', t, name, ht.symm, hj, hi⟩
  · exact .inr ⟨rfl, hheld⟩

/-- Trees with the same snapshot, both fit for a graph whose declarations have
the same values in both heaps, agree. -/
theorem Suits.agree (hs : h.Suits g s) (hs' : k.Suits g s') (hsilent : g.Silent)
    (hsnapshot : h.snapshot s = k.snapshot s')
    (hheld : ∀ i ∈ g.graph.held, h.value i = k.value i) : Agree (h.twins k s s' g) h k := by
  have hl : Lookalike h k s s' := ⟨hs.forest, hs'.forest, hs.scope, hs'.scope, hsnapshot⟩
  have hsep := hs.separate
  have hsep' := hs'.separate
  refine
    { item := ?_
      item_iff := ?_
      scope := ?_
      scope_iff := ?_
      graph := ?_
      graph_id := ?_
      context := False.elim
      context_id := fun hcd => hcd.elim
      outer := id
      rooted := hs.forest.rooted
      rooted' := hs'.forest.rooted
      ranked := hs.forest.ranked.imp fun _ hrank t _ => hrank t trivial }
  · rintro i j (⟨t, t', name, ht, hi, hj⟩ | ⟨rfl, hmem⟩)
    · exact ⟨hsep.bound ht.under hi, hsep'.bound ht.symm.under hj, hl.value_eq ht hi hj⟩
    · exact ⟨hs.held i hmem, hs'.held i hmem, hheld i hmem⟩
  · intro i j i' j' hij hij'
    constructor
    · rintro rfl
      exact hs.twins_item_eq hij hij'
    · rintro rfl
      exact hs'.twins_item_eq (twins_items_symm hij) (twins_items_symm hij')
  · intro t t' ht
    refine ⟨hsep.scope ht.under, hsep'.scope ht.symm.under, (hl.node_eq ht).1, ?_,
      hs.forest.sorted t, hl.children ht, fun q hq => .inr (hs'.forest.rooted t' q hq)⟩
    exact (hl.entries ht).imp fun x y hxy =>
      ⟨hxy.1.1, .inl ⟨t, t', x.1, ht, hxy.2.1, hxy.1.1 ▸ hxy.2.2⟩⟩
  · intro t t' u u' ht hu
    constructor
    · rintro rfl
      exact ht.unique hs.forest hs.scope hu
    · rintro rfl
      exact ht.symm.unique hs'.forest hs'.scope hu.symm
  · rintro x y ⟨rfl, rfl⟩
    exact ⟨hs.graph, hs'.graph, hsilent, Graph.alike_self fun i hi => .inr ⟨rfl, hi⟩⟩
  · rintro x x' y y' ⟨rfl, rfl⟩ ⟨rfl, rfl⟩ _
    exact ⟨rfl, rfl⟩

end Heap

end ScopeFlow
