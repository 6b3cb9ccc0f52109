import Mathlib.Data.Finset.Card
import ScopeFlow.Proofs.Likeness.Regions
import ScopeFlow.Scope.Snapshot

/-!
# Views of both sides

Corresponding scopes have the same snapshot, and the variables below them
share items alike. Views go down as many levels as the heap has scopes; since
scopes can be ranked, this is always enough, however different the sizes of
the two heaps.
-/

namespace ScopeFlow

/-- A ranking in which the ranks of some scopes stay below the size of the
heap. -/
structure Heap.RankedBelow (h : Heap) (S : ScopeId → Prop) (rank : ScopeId → Nat) : Prop where
  child : ∀ {s}, S s → ∀ c ∈ (h.scope s).children, S c ∧ rank c < rank s
  lt : ∀ {s}, S s → rank s < h.scopes.size

/-- Counting the scopes that rank lower gives ranks below the size. -/
theorem Heap.Ranked.bounded {h : Heap} {S : ScopeId → Prop} (hr : h.Ranked S)
    (hS : ∀ s, S s → s.index < h.scopes.size) (hchild : ∀ s, S s → ∀ c ∈ (h.scope s).children, S c) :
    ∃ rank, h.RankedBelow S rank := by
  classical
  obtain ⟨rank, hrank⟩ := hr
  let lower : ScopeId → Finset Nat := fun s =>
    (Finset.range h.scopes.size).filter fun n => S ⟨n⟩ ∧ rank ⟨n⟩ < rank s
  refine ⟨fun s => (lower s).card, fun {s} hs c hc => ⟨hchild s hs c hc, ?_⟩, fun {s} hs => ?_⟩
  · have hcs := hchild s hs c hc
    refine Finset.card_lt_card ⟨fun n hn => ?_, fun hsub => ?_⟩
    · obtain ⟨hn, hSn, hlt⟩ := Finset.mem_filter.mp hn
      exact Finset.mem_filter.mpr ⟨hn, hSn, Nat.lt_trans hlt (hrank s hs c hc)⟩
    · have hmem : c.index ∈ lower s :=
        Finset.mem_filter.mpr ⟨Finset.mem_range.mpr (hS c hcs), hcs, hrank s hs c hc⟩
      exact absurd (Finset.mem_filter.mp (hsub hmem)).2.2 (Nat.lt_irrefl _)
  · have hself : s.index ∉ lower s := by
      intro hmem
      exact absurd (Finset.mem_filter.mp hmem).2.2 (Nat.lt_irrefl _)
    have hlt := Finset.card_lt_card (s := lower s) (t := Finset.range h.scopes.size)
      ⟨Finset.filter_subset _ _, fun hsub => hself (hsub (Finset.mem_range.mpr (hS s hs)))⟩
    rw [Finset.card_range] at hlt
    exact hlt

/-! ## Levels enough -/

section

variable {h : Heap} {S : ScopeId → Prop} {rank : ScopeId → Nat} (hr : h.RankedBelow S rank)
include hr

theorem Heap.RankedBelow.no_children {s : ScopeId} (hs : S s) (hzero : rank s = 0) :
    (h.scope s).children = [] := by
  refine List.eq_nil_iff_forall_not_mem.mpr fun c hc => ?_
  have := (hr.child hs c hc).2
  omega

/-- More levels than ranks show nothing more. -/
theorem Heap.snapshotWithin_eq (n : Nat) : ∀ {m : Nat} {s : ScopeId}, S s → rank s ≤ n →
    rank s ≤ m → h.snapshotWithin n s = h.snapshotWithin m s := by
  induction n with
  | zero =>
      intro m s hs hn _
      cases m with
      | zero => rfl
      | succ m => rw [snapshotWithin, snapshotWithin, hr.no_children hs (by omega), List.map_nil]
  | succ n ih =>
      intro m s hs hn hm
      cases m with
      | zero => rw [snapshotWithin, snapshotWithin, hr.no_children hs (by omega), List.map_nil]
      | succ m =>
          rw [snapshotWithin, snapshotWithin]
          congr 1
          refine List.map_congr_left fun c hc => ?_
          obtain ⟨hcS, hlt⟩ := hr.child hs c hc
          exact ih hcS (by omega) (by omega)

theorem Heap.preorderWithin_eq (n : Nat) : ∀ {m depth : Nat} {s : ScopeId}, S s → rank s ≤ n →
    rank s ≤ m → h.preorderWithin n depth s = h.preorderWithin m depth s := by
  induction n with
  | zero =>
      intro m depth s hs hn _
      cases m with
      | zero => rfl
      | succ m =>
          rw [preorderWithin, preorderWithin, hr.no_children hs (by omega), List.flatMap_nil]
  | succ n ih =>
      intro m depth s hs hn hm
      cases m with
      | zero =>
          rw [preorderWithin, preorderWithin, hr.no_children hs (by omega), List.flatMap_nil]
      | succ m =>
          rw [preorderWithin, preorderWithin]
          congr 1
          refine List.flatMap_congr fun c hc => ?_
          obtain ⟨hcS, hlt⟩ := hr.child hs c hc
          exact ih hcS (by omega) (by omega)

end

/-! ## Both sides -/

namespace Agree

variable {ρ : Renaming} {h k : Heap} {s t : ScopeId} (ha : Agree ρ h k)
include ha

theorem ranks : ∃ rank, h.RankedBelow (fun s => ∃ t, ρ.scopes s t) rank :=
  ha.ranked.bounded (fun _ hs => ha.source_closed.scope hs) fun _ hs => ha.source_closed.child hs

theorem ranks' : ∃ rank, k.RankedBelow (fun t => ∃ s, ρ.scopes s t) rank := by
  have hclosed := ha.diagonal.source_closed
  refine ha.ranked'.bounded (fun t ⟨s, hst⟩ => (ha.scope hst).2.1) fun t ⟨s, hst⟩ d hd => ?_
  obtain ⟨_, _, hd'⟩ := hclosed.child ⟨t, rfl, s, hst⟩ d hd
  exact hd'

theorem variableValues_eq (hst : ρ.scopes s t) : h.variableValues s = k.variableValues t := by
  have hbindings := (ha.scope hst).2.2.bindings
  unfold Heap.variableValues
  generalize (h.scope s).bindings.entries = l at hbindings ⊢
  generalize (k.scope t).bindings.entries = l' at hbindings ⊢
  induction hbindings with
  | nil => rfl
  | cons hxy _ ih => rw [List.map_cons, List.map_cons, ih, hxy.1, ha.item hxy.2 |>.2.2]

theorem snapshotWithin_eq (n : Nat) :
    ∀ {s t : ScopeId}, ρ.scopes s t → h.snapshotWithin n s = k.snapshotWithin n t := by
  induction n with
  | zero =>
      intro s t hst
      rw [Heap.snapshotWithin, Heap.snapshotWithin, (ha.scope hst).2.2.name,
        ha.variableValues_eq hst]
  | succ n ih =>
      intro s t hst
      rw [Heap.snapshotWithin, Heap.snapshotWithin, (ha.scope hst).2.2.name,
        ha.variableValues_eq hst]
      congr 1
      have hchildren := (ha.scope hst).2.2.children
      generalize (h.scope s).children = ss at hchildren ⊢
      generalize (k.scope t).children = ts at hchildren ⊢
      induction hchildren with
      | nil => rfl
      | cons hcd _ ihrest => rw [List.map_cons, List.map_cons, ih hcd, ihrest]

/-- Corresponding scopes have the same snapshot. -/
theorem snapshot_eq (hst : ρ.scopes s t) : h.snapshot s = k.snapshot t := by
  obtain ⟨rank, hr⟩ := ha.ranks
  obtain ⟨rank', hr'⟩ := ha.ranks'
  have hlt := hr.lt ⟨t, hst⟩
  have hlt' := hr'.lt ⟨s, hst⟩
  calc h.snapshot s = h.snapshotWithin (max h.scopes.size k.scopes.size) s :=
        Heap.snapshotWithin_eq hr _ ⟨t, hst⟩ (by omega) (by omega)
    _ = k.snapshotWithin (max h.scopes.size k.scopes.size) t := ha.snapshotWithin_eq _ hst
    _ = k.snapshot t := Heap.snapshotWithin_eq hr' _ ⟨s, hst⟩ (by omega) (by omega)

theorem preorderWithin_alike (n : Nat) : ∀ {depth : Nat} {s t : ScopeId}, ρ.scopes s t →
    List.Forall₂ (fun x y => x.1 = y.1 ∧ ρ.scopes x.2 y.2) (h.preorderWithin n depth s)
      (k.preorderWithin n depth t) := by
  induction n with
  | zero =>
      intro depth s t hst
      exact .cons ⟨rfl, hst⟩ .nil
  | succ n ih =>
      intro depth s t hst
      rw [Heap.preorderWithin, Heap.preorderWithin]
      refine .cons ⟨rfl, hst⟩ ?_
      have hchildren := (ha.scope hst).2.2.children
      generalize (h.scope s).children = ss at hchildren ⊢
      generalize (k.scope t).children = ts at hchildren ⊢
      induction hchildren with
      | nil => exact .nil
      | cons hcd _ ihrest =>
          rw [List.flatMap_cons, List.flatMap_cons]
          exact List.rel_append (ih hcd) ihrest

theorem preorder_alike (hst : ρ.scopes s t) :
    List.Forall₂ (fun x y => x.1 = y.1 ∧ ρ.scopes x.2 y.2) (h.preorder s) (k.preorder t) := by
  obtain ⟨rank, hr⟩ := ha.ranks
  obtain ⟨rank', hr'⟩ := ha.ranks'
  have hlt := hr.lt ⟨t, hst⟩
  have hlt' := hr'.lt ⟨s, hst⟩
  have hleft : h.preorder s = h.preorderWithin (max h.scopes.size k.scopes.size) 0 s :=
    Heap.preorderWithin_eq hr _ ⟨t, hst⟩ (by omega) (by omega)
  have hright : k.preorder t = k.preorderWithin (max h.scopes.size k.scopes.size) 0 t :=
    Heap.preorderWithin_eq hr' _ ⟨s, hst⟩ (by omega) (by omega)
  rw [hleft, hright]
  exact ha.preorderWithin_alike _ hst

theorem idxOf?_eq {seen seen' : List ItemId} (hseen : List.Forall₂ ρ.items seen seen')
    {i j : ItemId} (hij : ρ.items i j) : seen.idxOf? i = seen'.idxOf? j := by
  induction hseen with
  | nil => rfl
  | @cons a b _ _ hab _ ih =>
      have hbeq : (a == i) = (b == j) := by
        have hiff := ha.item_iff hab hij
        by_cases h : a = i <;> simp_all
      rw [List.idxOf?_cons, List.idxOf?_cons, hbeq, ih]

theorem numberItems_eq {l l' : List (Nat × String × ItemId)}
    (hl : List.Forall₂ (fun x y => x.1 = y.1 ∧ x.2.1 = y.2.1 ∧ ρ.items x.2.2 y.2.2) l l') :
    ∀ {seen seen' : List ItemId}, List.Forall₂ ρ.items seen seen' →
      Heap.numberItems seen l = Heap.numberItems seen' l' := by
  induction hl with
  | nil => exact fun _ => rfl
  | @cons x y l l' hxy _ ih =>
      intro seen seen' hseen
      obtain ⟨depth, name, i⟩ := x
      obtain ⟨depth', name', j⟩ := y
      obtain ⟨rfl, rfl, hij⟩ := hxy
      rw [Heap.numberItems, Heap.numberItems, ha.idxOf?_eq hseen hij, hseen.length_eq]
      cases seen'.idxOf? j with
      | some n => exact congrArg _ (ih hseen)
      | none => exact congrArg _ (ih (List.rel_append hseen (.cons hij .nil)))

/-- The variables below corresponding scopes share items alike. -/
theorem sharing_eq (hst : ρ.scopes s t) : h.sharing s = k.sharing t := by
  refine ha.numberItems_eq ?_ .nil
  have hrows := ha.preorder_alike hst
  generalize h.preorder s = l at hrows ⊢
  generalize k.preorder t = l' at hrows ⊢
  induction hrows with
  | nil => exact .nil
  | @cons x y l l' hxy _ ih =>
      rw [List.flatMap_cons, List.flatMap_cons]
      refine List.rel_append ?_ ih
      rw [List.forall₂_map_left_iff, List.forall₂_map_right_iff]
      exact (ha.scope hxy.2).2.2.bindings.imp fun _ _ he => ⟨hxy.1, he.1, he.2⟩

end Agree

end ScopeFlow
