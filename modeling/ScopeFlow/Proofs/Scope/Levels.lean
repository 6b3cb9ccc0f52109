import Mathlib.Data.List.Flatten
import Mathlib.Logic.Function.Iterate
import ScopeFlow.Proofs.Scope.Forest

/-!
# Levels of a tree of scopes

The scopes so many levels below a scope can be come by in three ways: level by
level, each level listing the sub-scopes of the one before; along the tree in
pre-order, where those of the level are picked out; and one by one, by steps
from a scope to a sub-scope. In a forest all three agree, with the order of the
first two, and none is listed twice.

* `scopesAtDepth_eq_nextLevel`: level by level;
* `Forest.preorder_eq` takes the pre-order listing apart into the scope and the
  listings of its sub-scopes, and `Forest.scopesAtDepth_eq_preorder` follows by
  induction on the level;
* `mem_scopesAtDepth_iff` and `Forest.scopesAtDepth_nodup`.
-/

namespace ScopeFlow.Heap

variable {h : Heap} {s t u c : ScopeId} {depth n k : Nat}

/-! ## Level by level -/

/-- The sub-scopes of some scopes, those of the first one first. -/
def nextLevel (h : Heap) (level : List ScopeId) : List ScopeId :=
  level.flatMap fun s => (h.scope s).children

/-- Levels below several scopes are those below each of them, side by side. -/
theorem nextLevel_iterate (h : Heap) (depth : Nat) (level : List ScopeId) :
    h.nextLevel^[depth] level = level.flatMap (h.scopesAtDepth depth) := by
  induction depth generalizing level with
  | zero => exact (List.flatMap_singleton' level).symm
  | succ depth ih =>
    rw [Function.iterate_succ_apply, ih, nextLevel, List.flatMap_assoc]
    rfl

theorem scopesAtDepth_eq_nextLevel (h : Heap) (depth : Nat) (s : ScopeId) :
    h.scopesAtDepth depth s = h.nextLevel^[depth] [s] := by
  rw [nextLevel_iterate, List.flatMap_singleton]

/-! ## Step by step -/

/-- A scope lies so many levels below another. -/
inductive LevelsBelow (h : Heap) : Nat → ScopeId → ScopeId → Prop
  | self (s : ScopeId) : LevelsBelow h 0 s s
  | child {n : Nat} {s c t : ScopeId} : c ∈ (h.scope s).children → LevelsBelow h n c t →
      LevelsBelow h (n + 1) s t

theorem mem_scopesAtDepth_iff : t ∈ h.scopesAtDepth depth s ↔ h.LevelsBelow depth s t := by
  induction depth generalizing s with
  | zero =>
    rw [scopesAtDepth, List.mem_singleton]
    constructor
    · rintro rfl
      exact .self t
    · intro ht
      cases ht
      rfl
  | succ depth ih =>
    rw [scopesAtDepth, List.mem_flatMap]
    constructor
    · intro ⟨c, hc, ht⟩
      exact .child hc (ih.mp ht)
    · intro ht
      cases ht with
      | child hc ht => exact ⟨_, hc, ih.mpr ht⟩

/-- In a forest a scope lies so many levels below one scope only. -/
theorem Forest.levelsBelow_unique (hf : h.Forest) (hs : h.LevelsBelow depth s u)
    (ht : h.LevelsBelow depth t u) : s = t := by
  induction hs generalizing t with
  | self s =>
    cases ht
    rfl
  | @child n s c u hc _ ih =>
    cases ht with
    | @child _ _ c' _ hc' ht =>
      obtain rfl : c = c' := ih ht
      have hparent := (hf.linked s c).mp hc
      have hparent' := (hf.linked t c).mp hc'
      exact Option.some.inj (hparent.symm.trans hparent')

theorem Forest.scopesAtDepth_nodup (hf : h.Forest) (depth : Nat) (s : ScopeId) :
    (h.scopesAtDepth depth s).Nodup := by
  induction depth generalizing s with
  | zero => exact List.nodup_singleton s
  | succ depth ih =>
    rw [scopesAtDepth, List.nodup_flatMap]
    refine ⟨fun c _ => ih c, (hf.nodup s).imp fun {c c'} hne => ?_⟩
    -- A scope below two sub-scopes would be below either.
    intro t ht ht'
    exact hne (hf.levelsBelow_unique (mem_scopesAtDepth_iff.mp ht) (mem_scopesAtDepth_iff.mp ht'))

/-! ## In pre-order -/

/-- Where the top of a subtree lies counts for all depths in its listing. -/
theorem preorderWithin_add (h : Heap) (n k depth : Nat) (s : ScopeId) :
    h.preorderWithin n (depth + k) s =
      (h.preorderWithin n depth s).map fun x => (x.1 + k, x.2) := by
  induction n generalizing depth s with
  | zero => rfl
  | succ n ih =>
    rw [preorderWithin, preorderWithin, List.map_cons, List.map_flatMap]
    congr 1
    refine List.flatMap_congr fun c _ => ?_
    rw [show depth + k + 1 = depth + 1 + k by omega]
    exact ih (depth + 1) c

/-- The pre-order listing of a tree: the scope, and then the listings of its
sub-scopes, one level down. -/
theorem Forest.preorder_eq (hf : h.Forest) (hs : s.index < h.scopes.size) :
    h.preorder s = (0, s) ::
      (h.scope s).children.flatMap fun c => (h.preorder c).map fun x => (x.1 + 1, x.2) := by
  obtain ⟨rank, hr⟩ := hf.ranks
  obtain ⟨m, hm⟩ : ∃ m, h.scopes.size = m + 1 := ⟨h.scopes.size - 1, by omega⟩
  have hlt := hr.lt hs
  have hbelow : ∀ c ∈ (h.scope s).children, h.preorderWithin m 1 c =
      (h.preorder c).map fun x => (x.1 + 1, x.2) := by
    intro c hc
    obtain ⟨hcS, hrank⟩ := hr.child hs c hc
    calc h.preorderWithin m 1 c = h.preorderWithin h.scopes.size 1 c :=
          preorderWithin_eq hr m hcS (by omega) (by omega)
      _ = (h.preorder c).map fun x => (x.1 + 1, x.2) := preorderWithin_add h _ 1 0 c
  show h.preorderWithin h.scopes.size 0 s = _
  rw [hm, preorderWithin]
  exact congrArg ((0, s) :: ·) (List.flatMap_congr hbelow)

/-- A level is what the pre-order listing has of that depth. -/
theorem Forest.scopesAtDepth_eq_preorder (hf : h.Forest) (depth : Nat)
    (hs : s.index < h.scopes.size) : h.scopesAtDepth depth s =
      ((h.preorder s).filter fun x => x.1 == depth).map Prod.snd := by
  induction depth generalizing s with
  | zero =>
    rw [hf.preorder_eq hs, List.filter_cons_of_pos (by simp)]
    simp [scopesAtDepth, List.filter_flatMap, List.filter_map, Function.comp_def]
  | succ depth ih =>
    rw [hf.preorder_eq hs, List.filter_cons_of_neg (by simp), List.filter_flatMap, List.map_flatMap,
      scopesAtDepth]
    refine List.flatMap_congr fun c hc => ?_
    rw [ih (hf.child s c hc), List.filter_map, List.map_map]
    simp [Function.comp_def]

end ScopeFlow.Heap
