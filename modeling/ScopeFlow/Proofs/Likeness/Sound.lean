import Mathlib.Data.Finset.Lattice.Fold
import Mathlib.Data.Finset.Range
import ScopeFlow.Proofs.Likeness.Duplicate

/-!
# Sound heaps

A heap is sound if everything in it is there, names are sorted, and no scope
is below itself. A sound heap agrees with itself, with each thing renamed to
itself; and a heap is sound if all that is in it is renamed to (`Agree.sound`),
which copying and all that is done on both sides alike keep up
(`Copied.sound`, `Confined.covers`).
-/

namespace ScopeFlow

/-- A heap as its users leave it. -/
structure Heap.Sound (h : Heap) : Prop where
  bound : ∀ s, ∀ entry ∈ (h.scope s).bindings.entries, entry.2.index < h.items.size
  sorted : ∀ s, (h.scope s).bindings.Sorted
  child : ∀ s, ∀ c ∈ (h.scope s).children, c.index < h.scopes.size
  rooted : h.Rooted
  ranked : h.Ranked fun _ => True

/-- A heap that has grown, whatever has become of what was there before. -/
structure Heap.Grown (h h' : Heap) : Prop where
  items : h.items.size ≤ h'.items.size
  scopes : h.scopes.size ≤ h'.scopes.size
  contexts : h.contexts ≤ h'.contexts
  graphs : h.graphs ≤ h'.graphs

/-- A graph of built-in operators that has been put to use in a heap. -/
structure SharedGraph.UsableIn (g : SharedGraph) (h : Heap) : Prop where
  id : g.id.index < h.graphs
  builtIn : g.BuiltIn
  held : ∀ i ∈ g.graph.held, i.index < h.items.size

/-- A graph that has been put to use in a heap and makes no requests. -/
structure SharedGraph.Placed (g : SharedGraph) (h : Heap) : Prop where
  id : g.id.index < h.graphs
  silent : g.Silent
  held : ∀ i ∈ g.graph.held, i.index < h.items.size

theorem SharedGraph.UsableIn.placed {g : SharedGraph} {h : Heap} (hg : g.UsableIn h) :
    g.Placed h :=
  ⟨hg.id, hg.builtIn.silent, hg.held⟩

/-! ## Likeness to oneself -/

theorem Graph.alike_self {ρ : Renaming} {g : Graph} (h : ∀ i ∈ g.held, ρ.items i i) :
    g.Alike ρ g := by
  have hparameters : ∀ {ps : Parameters}, (∀ i ∈ ps.held, ρ.items i i) → ps.Alike ρ ps := by
    intro ps hps
    refine List.forall₂_same.mpr fun p hp => ⟨rfl, rfl, rfl, rfl, ?_, ?_⟩
    · cases hd : p.default with
      | none => exact .none
      | some i =>
          refine .some (hps i (List.mem_flatMap.mpr ⟨p, hp, List.mem_append_left _ ?_⟩))
          rw [hd]
          exact List.mem_singleton_self i
    · cases hf : p.fixed with
      | none => exact .none
      | some i =>
          refine .some (hps i (List.mem_flatMap.mpr ⟨p, hp, List.mem_append_right _ ?_⟩))
          rw [hf]
          exact List.mem_singleton_self i
  refine ⟨rfl, hparameters fun i hi => h i (List.mem_append_left _ hi), ?_, rfl⟩
  refine List.forall₂_same.mpr fun op hop => ⟨rfl, hparameters fun i hi => ?_, rfl, rfl⟩
  exact h i (List.mem_append_right _ (List.mem_flatMap.mpr ⟨op, hop, hi⟩))

/-- Everything in a heap, each to itself, with some graphs and contexts. -/
def Heap.everything (h : Heap) (G : SharedGraph → Prop) (C : Context → Prop) : Renaming where
  items i j := i = j ∧ i.index < h.items.size
  scopes s t := s = t ∧ s.index < h.scopes.size
  graphs g g' := g = g' ∧ G g
  contexts c d := c = d ∧ C c
  outer _ := False

/-- A sound heap agrees with itself. -/
theorem Heap.Sound.agree {h : Heap} {G : SharedGraph → Prop} {C : Context → Prop} (hs : h.Sound)
    (hG : ∀ g, G g → g.Placed h) (hGid : ∀ g g', G g → G g' → g.id = g'.id → g = g')
    (hC : ∀ c, C c → c.id.index < h.contexts ∧ c.Alike (h.everything G C) c)
    (hCid : ∀ c c', C c → C c' → c.id = c'.id → c = c') : Agree (h.everything G C) h h where
  item := by
    rintro i j ⟨rfl, hi⟩
    exact ⟨hi, hi, rfl⟩
  item_iff := by
    rintro i j i' j' ⟨rfl, -⟩ ⟨rfl, -⟩
    exact Iff.rfl
  scope := by
    rintro s t ⟨rfl, hlt⟩
    refine ⟨hlt, hlt, rfl, ?_, hs.sorted s, ?_, fun q hq => .inl ⟨q, rfl, hs.rooted s q hq⟩⟩
    · exact List.forall₂_same.mpr fun entry he => ⟨rfl, rfl, hs.bound s entry he⟩
    · exact List.forall₂_same.mpr fun c hc => ⟨rfl, hs.child s c hc⟩
  scope_iff := by
    rintro s t s' t' ⟨rfl, -⟩ ⟨rfl, -⟩
    exact Iff.rfl
  graph := by
    rintro g g' ⟨rfl, hg⟩
    obtain ⟨hid, hsilent, hheld⟩ := hG g hg
    exact ⟨hid, hid, hsilent, Graph.alike_self fun i hi => ⟨rfl, hheld i hi⟩⟩
  graph_id := by
    rintro g₁ g₁' g₂ g₂' ⟨rfl, h₁⟩ ⟨rfl, h₂⟩ hid
    have heq := hGid g₁ g₂ h₁ h₂ (hid.elim (fun h => h) fun h => h)
    exact ⟨heq, heq⟩
  context := by
    rintro c d ⟨rfl, hc⟩
    exact ⟨(hC c hc).1, hC c hc⟩
  context_id := by
    rintro c d c' d' ⟨rfl, h₁⟩ ⟨rfl, h₂⟩ hid
    have heq := hCid c c' h₁ h₂ (hid.elim (fun h => h) fun h => h)
    exact ⟨heq, heq⟩
  outer := False.elim
  rooted := hs.rooted
  rooted' := hs.rooted
  ranked := hs.ranked.imp fun _ hrank s _ => hrank s trivial

/-! ## Soundness kept up -/

/-- Does a renaming lead to all items and scopes of a heap? -/
structure Renaming.Covers (ρ : Renaming) (k : Heap) : Prop where
  item : ∀ {j : ItemId}, j.index < k.items.size → ∃ i, ρ.items i j
  scope : ∀ {t : ScopeId}, t.index < k.scopes.size → ∃ s, ρ.scopes s t

theorem Confined.covers {ρ ρ' : Renaming} {k k' : Heap} (hconf : Confined ρ ρ' k k')
    (h : ρ.Covers k) : ρ'.Covers k' where
  item := by
    intro j hlt
    by_cases hj : j.index < k.items.size
    · exact (h.item hj).imp fun _ => hconf.within.items
    · exact hconf.madeItem (Nat.not_lt.mp hj) hlt
  scope := by
    intro t hlt
    by_cases ht : t.index < k.scopes.size
    · exact (h.scope ht).imp fun _ => hconf.within.scopes
    · exact hconf.madeScope (Nat.not_lt.mp ht) hlt

/-- A heap is sound if another one agrees with all of it. -/
theorem Agree.sound {ρ : Renaming} {h k : Heap} (ha : Agree ρ h k) (hcov : ρ.Covers k) :
    k.Sound := by
  have hcase : ∀ t, (∃ s, ρ.scopes s t) ∨ k.scope t = .named "" := by
    intro t
    by_cases ht : t.index < k.scopes.size
    · exact .inl (hcov.scope ht)
    · exact .inr (Heap.scope_of_le (Nat.not_lt.mp ht))
  have hclosed := ha.diagonal.source_closed
  refine ⟨fun t entry he => ?_, fun t => ?_, fun t d hd => ?_, ha.rooted', ?_⟩
  · rcases hcase t with ⟨s, hst⟩ | hnone
    · exact hclosed.item (hclosed.bound ⟨t, rfl, s, hst⟩ entry he)
    · rw [hnone] at he
      cases he
  · rcases hcase t with ⟨s, hst⟩ | hnone
    · exact hclosed.sorted ⟨t, rfl, s, hst⟩
    · rw [hnone]
      exact List.Pairwise.nil
  · rcases hcase t with ⟨s, hst⟩ | hnone
    · exact hclosed.scope (hclosed.child ⟨t, rfl, s, hst⟩ d hd)
    · rw [hnone] at hd
      cases hd
  · obtain ⟨rank, hrank⟩ := ha.ranked'
    refine ⟨rank, fun t _ d hd => ?_⟩
    rcases hcase t with hst | hnone
    · exact hrank t hst d hd
    · rw [hnone] at hd
      cases hd

/-- A sound heap from which something is copied stays sound. -/
theorem Copied.sound {P : Region} {φ : OperatorId → OperatorId} {h₀ : Heap} {c : Copying}
    (hP : P.Closed h₀) (hc : Copied P φ h₀ (fun _ => False) c) (hs : h₀.Sound) : c.heap.Sound := by
  have hcase : ∀ t, t.index < h₀.scopes.size ∧ c.heap.scope t = h₀.scope t ∨
      (∃ s, c.session.scopeTo s t) ∨ c.heap.scope t = .named "" := by
    intro t
    by_cases hold : t.index < h₀.scopes.size
    · exact .inl ⟨hold, hc.kept.scope hold⟩
    · by_cases hlt : t.index < c.heap.scopes.size
      · exact .inr (.inl (hc.madeScope (Nat.not_lt.mp hold) hlt))
      · exact .inr (.inr (Heap.scope_of_le (Nat.not_lt.mp hlt)))
  refine ⟨fun t entry he => ?_, fun t => ?_, fun t d hd => ?_, hc.rooted, ?_⟩
  · rcases hcase t with ⟨-, heq⟩ | ⟨s, hst⟩ | hnone
    · rw [heq] at he
      exact Nat.lt_of_lt_of_le (hs.bound t entry he) hc.kept.items
    · obtain ⟨_, -, hsame⟩ := forall₂_mem (hc.content hst id).bindings.flip he
      exact (hc.item hsame.2).2.2.1
    · rw [hnone] at he
      cases he
  · rcases hcase t with ⟨-, heq⟩ | ⟨s, hst⟩ | hnone
    · rw [heq]
      exact hs.sorted t
    · exact (hs.sorted s).same (hc.content hst id).bindings
    · rw [hnone]
      exact List.Pairwise.nil
  · rcases hcase t with ⟨-, heq⟩ | ⟨s, hst⟩ | hnone
    · rw [heq] at hd
      exact Nat.lt_of_lt_of_le (hs.child t d hd) hc.kept.scopes
    · obtain ⟨_, -, hto⟩ := forall₂_mem (hc.content hst id).children.flip hd
      exact (hc.scope hto).2.2.1
    · rw [hnone] at hd
      cases hd
  · obtain ⟨rank, hrank⟩ := hs.ranked
    have hhighest : ∀ s : ScopeId, s.index < h₀.scopes.size →
        rank s ≤ (Finset.range h₀.scopes.size).sup fun n => rank ⟨n⟩ :=
      fun s hlt => Finset.le_sup (f := fun n => rank ⟨n⟩) (Finset.mem_range.mpr hlt)
    obtain ⟨rank', hold, hnew, -⟩ := hc.ranked (fun s hlt => ⟨hlt, fun x hx =>
      ⟨hs.child s x hx, hrank s trivial x hx⟩⟩) fun huv =>
        ⟨hP.scope (hc.scope huv).1, hhighest _ (hP.scope (hc.scope huv).1)⟩
    refine ⟨rank', fun t _ d hd => ?_⟩
    rcases hcase t with ⟨hlt, -⟩ | ⟨s, hst⟩ | hnone
    · exact hold t hlt d hd
    · exact hnew hst d hd
    · rw [hnone] at hd
      cases hd

end ScopeFlow
