import Mathlib.Data.List.InsertIdx
import Mathlib.Data.List.Nodup
import ScopeFlow.Proofs.Likeness.Sound
import ScopeFlow.Proofs.Likeness.Views

/-!
# Forests of scopes

In a forest the two ways in which scopes are tied together agree: a scope is
listed among the sub-scopes of another exactly if that one is its parent, and
it is listed there once. With ranks, which a sound heap has, the chain of
ancestors ends at a scope without a parent, and the walks along it are never
cut short by their bounds (`mem_lineage_iff`, `lineageWithin_eq`).
-/

namespace ScopeFlow

namespace Heap

variable {h h' : Heap} {s t u p c : ScopeId} {f : Scope → Scope} {name : String} {place n m : Nat}

/-- A heap whose scopes form trees. -/
structure Forest (h : Heap) : Prop extends h.Sound where
  linked : ∀ p c, c ∈ (h.scope p).children ↔ (h.scope c).parent = some p
  nodup : ∀ s, (h.scope s).children.Nodup

/-- A scope that has a sub-scope is there. -/
theorem lt_of_child (hc : c ∈ (h.scope p).children) : p.index < h.scopes.size := by
  apply Classical.byContradiction
  intro hle
  rw [scope_of_le (by omega)] at hc
  simp [Scope.named] at hc

/-! ## Up and down -/

theorem Below.trans (hst : h.Below s t) (htu : h.Below t u) : h.Below s u := by
  induction htu with
  | self => exact hst
  | child _ hc ih => exact ih.child hc

/-- What is below a scope of the heap is there, and ranks no higher. -/
theorem Below.rank_le {rank : ScopeId → Nat} {S : ScopeId → Prop} (hr : h.RankedBelow S rank)
    (hs : S s) (hsu : h.Below s u) : S u ∧ rank u ≤ rank s := by
  induction hsu with
  | self => exact ⟨hs, Nat.le_refl _⟩
  | child _ hc ih =>
      obtain ⟨hS, hlt⟩ := hr.child ih.1 _ hc
      exact ⟨hS, by omega⟩

namespace Forest

/-- A scope has one place among all sub-scopes. -/
theorem only_place (hf : h.Forest) (hp : (h.scope p).children[n]? = some c)
    (hq : (h.scope t).children[m]? = some c) : p = t ∧ n = m := by
  have hparent := (hf.linked p c).mp (List.mem_of_getElem? hp)
  have hparent' := (hf.linked t c).mp (List.mem_of_getElem? hq)
  obtain rfl : p = t := Option.some.inj (hparent.symm.trans hparent')
  have hlt : n < (h.scope p).children.length := (List.getElem?_eq_some_iff.mp hp).1
  exact ⟨rfl, (List.getElem?_inj hlt (hf.nodup p)).mp (hp.trans hq.symm)⟩

theorem ranks (hf : h.Forest) :
    ∃ rank, h.RankedBelow (fun s => s.index < h.scopes.size) rank := by
  apply Ranked.bounded
  · exact hf.ranked.imp fun rank hrank s _ => hrank s trivial
  · exact fun s hs => hs
  · exact fun s _ => hf.child s

/-- The ancestors of a scope are those that it is below. -/
theorem below_of_mem_lineageWithin (hf : h.Forest) (n : Nat) :
    ∀ {s}, t ∈ h.lineageWithin n s → h.Below t s := by
  induction n with
  | zero =>
      intro s ht
      simp [lineageWithin] at ht
  | succ n ih =>
      intro s ht
      rw [lineageWithin, List.mem_cons] at ht
      rcases ht with rfl | ht
      · exact .self
      · cases hp : (h.scope s).parent with
        | none => simp [hp] at ht
        | some p =>
            rw [hp] at ht
            exact (ih ht).child ((hf.linked p s).mpr hp)

/-- A walk upwards that may take as many steps as there are ranks meets all
ancestors. -/
theorem mem_lineageWithin (hf : h.Forest) {rank : ScopeId → Nat}
    (hr : h.RankedBelow (fun s => s.index < h.scopes.size) rank) (ht : t.index < h.scopes.size)
    (hts : h.Below t s) : ∀ {n}, rank t < n + rank s → t ∈ h.lineageWithin n s := by
  induction hts with
  | self =>
      intro n hn
      obtain ⟨n, rfl⟩ : ∃ k, n = k + 1 := ⟨n - 1, by omega⟩
      simp [lineageWithin]
  | @child u c htu hc ih =>
      intro n hn
      obtain ⟨hu, hle⟩ := htu.rank_le hr ht
      have hlt := (hr.child hu c hc).2
      obtain ⟨n, rfl⟩ : ∃ k, n = k + 1 := ⟨n - 1, by omega⟩
      rw [lineageWithin, (hf.linked u c).mp hc]
      exact List.mem_cons_of_mem _ (ih (by omega))

theorem mem_lineage_iff (hf : h.Forest) (ht : t.index < h.scopes.size) :
    t ∈ h.lineage s ↔ h.Below t s := by
  constructor
  · exact fun hmem => hf.below_of_mem_lineageWithin _ hmem
  · intro hts
    obtain ⟨rank, hr⟩ := hf.ranks
    apply hf.mem_lineageWithin hr ht hts
    have := hr.lt ht
    omega

/-- A walk upwards is not cut short by a bound that is large enough. -/
theorem lineageWithin_eq (hf : h.Forest) {rank : ScopeId → Nat}
    (hr : h.RankedBelow (fun s => s.index < h.scopes.size) rank) (n : Nat) :
    ∀ {m s}, s.index < h.scopes.size → h.scopes.size ≤ n + rank s → h.scopes.size ≤ m + rank s →
      h.lineageWithin n s = h.lineageWithin m s := by
  induction n with
  | zero =>
      intro m s hs hn _
      have := hr.lt hs
      omega
  | succ n ih =>
      intro m s hs hn hm
      have hlt := hr.lt hs
      obtain ⟨m, rfl⟩ : ∃ k, m = k + 1 := ⟨m - 1, by omega⟩
      rw [lineageWithin, lineageWithin]
      cases hp : (h.scope s).parent with
      | none => rfl
      | some p =>
          have hps := hf.rooted s p hp
          have hrank := (hr.child hps s ((hf.linked p s).mpr hp)).2
          show s :: h.lineageWithin n p = s :: h.lineageWithin m p
          rw [ih (m := m) hps (by omega) (by omega)]

/-- The chain of ancestors ends at a scope without a parent. -/
theorem lineageWithin_root (hf : h.Forest) {rank : ScopeId → Nat}
    (hr : h.RankedBelow (fun s => s.index < h.scopes.size) rank) (n : Nat) :
    ∀ {s}, s.index < h.scopes.size → h.scopes.size ≤ n + rank s →
      ∃ root, (h.lineageWithin n s).getLast? = some root ∧ (h.scope root).parent = none := by
  induction n with
  | zero =>
      intro s hs hn
      have := hr.lt hs
      omega
  | succ n ih =>
      intro s hs hn
      rw [lineageWithin]
      cases hp : (h.scope s).parent with
      | none => exact ⟨s, rfl, hp⟩
      | some p =>
          have hps := hf.rooted s p hp
          have hrank := (hr.child hps s ((hf.linked p s).mpr hp)).2
          obtain ⟨root, hlast, hroot⟩ := ih hps (by omega)
          refine ⟨root, ?_, hroot⟩
          show (s :: h.lineageWithin n p).getLast? = some root
          rw [List.getLast?_cons, hlast]
          rfl

/-- Ancestors rank higher the further up they are, so that none is met twice. -/
theorem lineageWithin_sorted (hf : h.Forest) {rank : ScopeId → Nat}
    (hr : h.RankedBelow (fun s => s.index < h.scopes.size) rank) (n : Nat) :
    ∀ s, (h.lineageWithin n s).Pairwise fun x y => rank x < rank y := by
  induction n with
  | zero =>
      intro s
      exact .nil
  | succ n ih =>
      intro s
      rw [lineageWithin]
      cases hp : (h.scope s).parent with
      | none => simp
      | some p =>
          have hps := hf.rooted s p hp
          have hrank := (hr.child hps s ((hf.linked p s).mpr hp)).2
          refine List.pairwise_cons.mpr ⟨?_, ih p⟩
          intro t ht
          have hbelow := hf.below_of_mem_lineageWithin n ht
          have htlt : t.index < h.scopes.size := by
            cases hbelow with
            | self => exact hps
            | child hu hc => exact mem_lineageWithin_lt (fun x _ q hq => hf.rooted x q hq) n p hps t ht
          have := (hbelow.rank_le hr htlt).2
          omega

theorem lineage_nodup (hf : h.Forest) (s : ScopeId) : (h.lineage s).Nodup := by
  obtain ⟨rank, hr⟩ := hf.ranks
  refine (hf.lineageWithin_sorted hr _ s).imp ?_
  rintro x y hlt rfl
  omega

end Forest

end Heap

end ScopeFlow
