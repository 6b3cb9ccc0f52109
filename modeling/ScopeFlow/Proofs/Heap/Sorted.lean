import Mathlib.Data.List.Forall2
import ScopeFlow.Heap.Bindings

/-!
# Sorted bindings

Bindings list their names in strictly ascending order: binding and unbinding
keep to it, and what is bound in ascending order is listed in that order.

`SameEntry` compares bindings of two heaps: equal names, and items that
correspond. Whatever is done by name to both is done to entries that
correspond.
-/

namespace ScopeFlow

/-- Entries of the same name whose items correspond. -/
def SameEntry (R : ItemId → ItemId → Prop) (x y : String × ItemId) : Prop :=
  x.1 = y.1 ∧ R x.2 y.2

namespace Bindings

variable {R : ItemId → ItemId → Prop} {b : Bindings} {name : String} {i j : ItemId}
  {l l' : List (String × ItemId)}

/-- Are the names listed in strictly ascending order? -/
def Sorted (b : Bindings) : Prop := b.names.Pairwise (· < ·)

theorem mem_place {n : String} (hn : n ∈ (place name i l).map Prod.fst) :
    n = name ∨ n ∈ l.map Prod.fst := by
  induction l with
  | nil => simpa [place] using hn
  | cons entry rest ih =>
      obtain ⟨m, j⟩ := entry
      rw [place] at hn
      split at hn
      · rename_i hm
        simp only [List.map_cons, List.mem_cons] at hn ⊢
        rcases hn with hn | hn
        · exact .inl hn
        · exact .inr (.inr hn)
      · split at hn
        · simpa using hn
        · simp only [List.map_cons, List.mem_cons] at hn ⊢
          rcases hn with hn | hn
          · exact .inr (.inl hn)
          · rcases ih hn with h | h
            · exact .inl h
            · exact .inr (.inr h)

theorem place_pairwise (h : (l.map Prod.fst).Pairwise (· < ·)) :
    ((place name i l).map Prod.fst).Pairwise (· < ·) := by
  induction l with
  | nil => simp [place]
  | cons entry rest ih =>
      obtain ⟨m, j⟩ := entry
      simp only [List.map_cons, List.pairwise_cons] at h
      rw [place]
      split
      · rename_i hm
        subst hm
        exact List.pairwise_cons.mpr h
      · split
        · rename_i hm hlt
          simp only [List.map_cons, List.pairwise_cons]
          refine ⟨fun n hn => ?_, h⟩
          rcases List.mem_cons.mp hn with rfl | hn
          · exact hlt
          · exact Std.lt_trans hlt (h.1 n hn)
        · rename_i hm hlt
          simp only [List.map_cons, List.pairwise_cons]
          refine ⟨fun n hn => ?_, ih h.2⟩
          rcases mem_place hn with rfl | hn
          · exact Std.lt_of_le_of_ne hlt hm
          · exact h.1 n hn

theorem Sorted.insert (hb : b.Sorted) : (b.insert name i).Sorted := place_pairwise hb

theorem Sorted.erase (hb : b.Sorted) : (b.erase name).Sorted := by
  unfold Sorted names at hb ⊢
  rw [List.pairwise_map] at hb ⊢
  exact hb.filter _

/-- A name after all others goes to the end. -/
theorem place_last (h : ∀ entry ∈ l, entry.1 < name) : place name i l = l ++ [(name, i)] := by
  induction l with
  | nil => rfl
  | cons entry rest ih =>
      obtain ⟨m, j⟩ := entry
      have hm : m < name := h (m, j) List.mem_cons_self
      have hne : m ≠ name := fun heq => Std.lt_irrefl (heq ▸ hm)
      have hge : ¬ name < m := fun hlt => Std.lt_irrefl (Std.lt_trans hm hlt)
      rw [place, if_neg hne, if_neg hge, ih fun entry he => h entry (List.mem_cons_of_mem _ he)]
      rfl

/-- A name is found exactly if it is listed, with the item that it is listed
with. -/
theorem Sorted.find?_iff (hb : b.Sorted) : b.find? name = some i ↔ (name, i) ∈ b.entries := by
  obtain ⟨l⟩ := b
  unfold Sorted names at hb
  show lookup name l = some i ↔ (name, i) ∈ l
  induction l with
  | nil => simp [lookup]
  | cons entry rest ih =>
      obtain ⟨n, j⟩ := entry
      rw [List.map_cons, List.pairwise_cons] at hb
      rw [lookup]
      by_cases hn : n = name
      · subst hn
        rw [if_pos rfl]
        have hno : (n, i) ∉ rest := by
          intro hmem
          exact String.lt_irrefl n (hb.1 n (List.mem_map.mpr ⟨_, hmem, rfl⟩))
        simp [hno, eq_comm]
      · have hne : (name, i) ≠ (n, j) := fun heq => hn (congrArg Prod.fst heq).symm
        rw [if_neg hn, List.mem_cons, or_iff_right hne]
        exact ih hb.2

/-! ## Bindings of two heaps -/

theorem names_same (h : List.Forall₂ (SameEntry R) l l') :
    l.map Prod.fst = l'.map Prod.fst := by
  induction h with
  | nil => rfl
  | cons hxy _ ih => rw [List.map_cons, List.map_cons, hxy.1, ih]

theorem Sorted.same {b' : Bindings} (hs : b.Sorted)
    (h : List.Forall₂ (SameEntry R) b.entries b'.entries) : b'.Sorted := by
  unfold Sorted names at hs ⊢
  rw [← names_same h]
  exact hs

theorem lookup_same (h : List.Forall₂ (SameEntry R) l l') (name : String) :
    Option.Rel R (lookup name l) (lookup name l') := by
  induction h with
  | nil => exact .none
  | @cons x y xs ys hxy _ ih =>
      obtain ⟨n, i⟩ := x
      obtain ⟨m, j⟩ := y
      obtain ⟨rfl, hij⟩ := hxy
      rw [lookup, lookup]
      split
      · exact .some hij
      · exact ih

theorem place_same (h : List.Forall₂ (SameEntry R) l l') (hij : R i j) :
    List.Forall₂ (SameEntry R) (place name i l) (place name j l') := by
  induction h with
  | nil => exact .cons ⟨rfl, hij⟩ .nil
  | @cons x y xs ys hxy hrest ih =>
      obtain ⟨n, i'⟩ := x
      obtain ⟨m, j'⟩ := y
      obtain ⟨rfl, hij'⟩ := hxy
      rw [place, place]
      split
      · exact .cons ⟨rfl, hij⟩ hrest
      · split
        · exact .cons ⟨rfl, hij⟩ (.cons ⟨rfl, hij'⟩ hrest)
        · exact .cons ⟨rfl, hij'⟩ ih

theorem filter_same (h : List.Forall₂ (SameEntry R) l l') :
    List.Forall₂ (SameEntry R) (l.filter fun entry => !decide (entry.1 = name))
      (l'.filter fun entry => !decide (entry.1 = name)) := by
  induction h with
  | nil => exact .nil
  | @cons x y xs ys hxy _ ih =>
      rw [List.filter_cons, List.filter_cons, hxy.1]
      split
      · exact .cons hxy ih
      · exact ih

end Bindings

end ScopeFlow
