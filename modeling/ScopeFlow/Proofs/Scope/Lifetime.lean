import ScopeFlow.Proofs.Scope.Changes
import ScopeFlow.Scope.Lifetime

/-!
# Forests after scopes are forgotten

What is kept alive is closed downwards (`living_closed`): the marking follows
the sub-scopes of whatever it marks, and a scope that it finds marked already
has been followed before, unless it ranks higher than all that is left to do.
So a forest stays one when what is not alive is forgotten (`Forest.release`).
-/

namespace ScopeFlow.Heap

variable {h : Heap} {rank : ScopeId → Nat} {marks marks' : Array Bool} {s u c : ScopeId} {n r : Nat}

/-- The scope is marked. -/
def Marked (marks : Array Bool) (s : ScopeId) : Prop := marks.getD s.index false = true

/-- The sub-scopes of the marked scopes that rank low enough are marked. -/
def ClosedUnder (h : Heap) (rank : ScopeId → Nat) (r : Nat) (marks : Array Bool) : Prop :=
  ∀ u, Marked marks u → rank u < r → ∀ c ∈ (h.scope u).children, Marked marks c

/-- What marking scopes of at most some rank may do. -/
structure Marks (h : Heap) (rank : ScopeId → Nat) (r n : Nat) (marks marks' : Array Bool) :
    Prop where
  size : marks'.size = marks.size
  mono : ∀ u, Marked marks u → Marked marks' u
  made : ∀ u, Marked marks' u → Marked marks u ∨ rank u < n
  closed : h.ClosedUnder rank r marks'

theorem marked_set (hs : s.index < marks.size) :
    Marked (marks.setIfInBounds s.index true) u ↔ u = s ∨ Marked marks u := by
  unfold Marked
  simp only [Array.getD_eq_getD_getElem?, Array.getElem?_setIfInBounds]
  by_cases hu : u = s
  · subst hu
    simp [hs]
  · have hne := ScopeId.ne_iff.mp hu
    simp [hu, Ne.symm hne]

/-- Marking several scopes one after another. -/
theorem foldl_marks (mark : Array Bool → ScopeId → Array Bool) (cs : List ScopeId)
    (hmark : ∀ c ∈ cs, ∀ marks, marks.size = h.scopes.size → h.ClosedUnder rank r marks →
      h.Marks rank r n marks (mark marks c) ∧ Marked (mark marks c) c) :
    ∀ marks, marks.size = h.scopes.size → h.ClosedUnder rank r marks →
      h.Marks rank r n marks (cs.foldl mark marks) ∧ ∀ c ∈ cs, Marked (cs.foldl mark marks) c := by
  induction cs with
  | nil =>
      intro marks _ hclosed
      exact ⟨⟨rfl, fun _ hu => hu, fun _ hu => .inl hu, hclosed⟩, by simp⟩
  | cons c cs ih =>
      intro marks hsize hclosed
      obtain ⟨hfirst, hc⟩ := hmark c List.mem_cons_self marks hsize hclosed
      obtain ⟨hrest, hcs⟩ := ih (fun d hd => hmark d (List.mem_cons_of_mem _ hd)) (mark marks c)
        (hfirst.size.trans hsize) hfirst.closed
      rw [List.foldl_cons]
      refine ⟨⟨hrest.size.trans hfirst.size, fun u hu => hrest.mono u (hfirst.mono u hu), ?_,
        hrest.closed⟩, ?_⟩
      · intro u hu
        rcases hrest.made u hu with hu | hu
        · exact hfirst.made u hu
        · exact .inr hu
      · intro d hd
        rcases List.mem_cons.mp hd with rfl | hd
        · exact hrest.mono d hc
        · exact hcs d hd

/-- Marking a scope marks all below it, provided that the levels are enough. -/
theorem markWithin_marks (hr : h.RankedBelow (fun s => s.index < h.scopes.size) rank)
    (levels : Nat) : ∀ {marks s r}, marks.size = h.scopes.size → s.index < h.scopes.size →
      rank s ≤ levels → rank s < r → h.ClosedUnder rank r marks →
      h.Marks rank r (rank s + 1) marks (h.markWithin levels marks s) ∧
        Marked (h.markWithin levels marks s) s := by
  induction levels with
  | zero =>
      intro marks s r hsize hs hlevels hlt hclosed
      have hnone := hr.no_children hs (by omega)
      have hset : s.index < marks.size := by omega
      rw [markWithin]
      refine ⟨⟨by simp, fun u hu => (marked_set hset).mpr (.inr hu), ?_, ?_⟩,
        (marked_set hset).mpr (.inl rfl)⟩
      · intro u hu
        rcases (marked_set hset).mp hu with rfl | hu
        · exact .inr (Nat.lt_succ_self _)
        · exact .inl hu
      · intro u hu hur c hc
        rcases (marked_set hset).mp hu with rfl | hu
        · simp [hnone] at hc
        · exact (marked_set hset).mpr (.inr (hclosed u hu hur c hc))
  | succ levels ih =>
      intro marks s r hsize hs hlevels hlt hclosed
      have hset : s.index < marks.size := by omega
      rw [markWithin]
      by_cases hmarked : marks.getD s.index true = true
      · rw [if_pos hmarked]
        refine ⟨⟨rfl, fun _ hu => hu, fun _ hu => .inl hu, hclosed⟩, ?_⟩
        simpa [Marked, hset] using hmarked
      · rw [if_neg hmarked]
        -- Below the rank of this scope everything is closed still.
        have hclosed₁ : h.ClosedUnder rank (rank s) (marks.setIfInBounds s.index true) := by
          intro u hu hus c hc
          rcases (marked_set hset).mp hu with rfl | hu
          · omega
          · exact (marked_set hset).mpr (.inr (hclosed u hu (by omega) c hc))
        obtain ⟨hfold, hchildren⟩ := foldl_marks (n := rank s) (h.markWithin levels)
          (h.scope s).children (fun c hc marks hsize hclosed => by
            obtain ⟨hclt, hrank⟩ := hr.child hs c hc
            obtain ⟨hstep, hmark⟩ := ih hsize hclt (by omega) hrank hclosed
            refine ⟨⟨hstep.size, hstep.mono, fun u hu => ?_, hstep.closed⟩, hmark⟩
            exact (hstep.made u hu).imp_right fun hlt => by omega)
          (marks.setIfInBounds s.index true) (by simpa using hsize) hclosed₁
        generalize (h.scope s).children.foldl (h.markWithin levels)
          (marks.setIfInBounds s.index true) = marks' at hfold hchildren ⊢
        have hself := hfold.mono s ((marked_set hset).mpr (.inl rfl))
        refine ⟨⟨by simpa using hfold.size, ?_, ?_, ?_⟩, hself⟩
        · exact fun u hu => hfold.mono u ((marked_set hset).mpr (.inr hu))
        · intro u hu
          rcases hfold.made u hu with hu | hu
          · rcases (marked_set hset).mp hu with rfl | hu
            · exact .inr (Nat.lt_succ_self _)
            · exact .inl hu
          · exact .inr (by omega)
        · intro u hu hur c hc
          rcases hfold.made u hu with hold | hnew
          · rcases (marked_set hset).mp hold with rfl | hold
            · exact hchildren c hc
            · exact hfold.mono c ((marked_set hset).mpr (.inr (hclosed u hold hur c hc)))
          · exact hfold.closed u hu hnew c hc

/-- What is kept alive is closed downwards. -/
theorem Forest.living_closed (hf : h.Forest) {held : List ScopeId}
    (hheld : ∀ s ∈ held, s.index < h.scopes.size) (hu : Marked (h.living held) u)
    (hc : c ∈ (h.scope u).children) : Marked (h.living held) c := by
  obtain ⟨rank, hr⟩ := hf.ranks
  have hempty : h.ClosedUnder rank h.scopes.size (Array.replicate h.scopes.size false) := by
    intro u hu
    have hfalse : Marked (Array.replicate h.scopes.size false) u → False := by
      unfold Marked
      simp only [Array.getD_eq_getD_getElem?, Array.getElem?_replicate]
      split <;> simp
    exact absurd hu hfalse
  obtain ⟨hmarks, -⟩ := foldl_marks (n := h.scopes.size) (h.markWithin h.scopes.size) held
    (fun s hs marks hsize hclosed => by
      have hlt := hr.lt (hheld s hs)
      obtain ⟨hstep, hmark⟩ := markWithin_marks hr h.scopes.size hsize (hheld s hs) (by omega) hlt
        hclosed
      refine ⟨⟨hstep.size, hstep.mono, fun u hu => ?_, hstep.closed⟩, hmark⟩
      exact (hstep.made u hu).imp_right fun hle => by omega)
    (Array.replicate h.scopes.size false) (by simp) hempty
  exact hmarks.closed u hu (hr.lt (lt_of_child hc)) c hc

theorem scope_release (held : List ScopeId) (s : ScopeId) :
    (h.release held).scope s = if (h.living held).getD s.index false = true then
      { h.scope s with parent := (h.scope s).parent.filter fun p => (h.living held).getD p.index false }
      else .named "" := by
  by_cases hs : s.index < h.scopes.size
  · simp [release, scope, hs]
  · have hnone : h.scope s = .named "" := scope_of_le (by omega)
    have hnone' : (h.release held).scope s = .named "" := by
      apply scope_of_le
      simp only [release, Array.size_mapIdx]
      omega
    rw [hnone, hnone']
    split <;> rfl

/-- A forest stays one when all that nobody holds is forgotten. -/
theorem Forest.release (hf : h.Forest) {held : List ScopeId}
    (hheld : ∀ s ∈ held, s.index < h.scopes.size) : (h.release held).Forest := by
  have hsize : (h.release held).scopes.size = h.scopes.size := by
    simp [Heap.release]
  have hchildren : ∀ {s c}, c ∈ ((h.release held).scope s).children →
      Marked (h.living held) s ∧ c ∈ (h.scope s).children := by
    intro s c hc
    rw [scope_release] at hc
    split at hc
    · rename_i hs
      exact ⟨hs, hc⟩
    · simp [Scope.named] at hc
  have hparent : ∀ {s p}, ((h.release held).scope s).parent = some p →
      Marked (h.living held) s ∧ Marked (h.living held) p ∧ (h.scope s).parent = some p := by
    intro s p hp
    rw [scope_release] at hp
    split at hp
    · rename_i hs
      obtain ⟨hp, hlive⟩ := Option.filter_eq_some_iff.mp hp
      exact ⟨hs, hlive, hp⟩
    · simp [Scope.named] at hp
  constructor
  · constructor
    · intro s entry he
      rw [scope_release] at he
      split at he
      · exact hf.bound s entry he
      · simp [Scope.named, Bindings.empty] at he
    · intro s
      rw [scope_release]
      split
      · exact hf.sorted s
      · exact List.Pairwise.nil
    · intro s c hc
      rw [hsize]
      exact hf.child s c (hchildren hc).2
    · intro s p hp
      rw [hsize]
      exact hf.rooted s p (hparent hp).2.2
    · obtain ⟨rank, hrank⟩ := hf.ranked
      exact ⟨rank, fun s hs c hc => hrank s hs c (hchildren hc).2⟩
  · intro p c
    constructor
    · intro hc
      obtain ⟨hp, hc⟩ := hchildren hc
      -- A child of what is held on to is held on to.
      have hclive : Marked (h.living held) c := hf.living_closed hheld hp hc
      rw [scope_release, if_pos (show (h.living held).getD c.index false = true from hclive)]
      exact Option.filter_eq_some_iff.mpr ⟨(hf.linked p c).mp hc, hp⟩
    · intro hp
      obtain ⟨-, hplive, hp⟩ := hparent hp
      rw [scope_release, if_pos (show (h.living held).getD p.index false = true from hplive)]
      exact (hf.linked p c).mpr hp
  · intro s
    rw [scope_release]
    split
    · exact hf.nodup s
    · exact List.nodup_nil

end ScopeFlow.Heap
