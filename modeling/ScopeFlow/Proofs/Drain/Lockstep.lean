import ScopeFlow.Proofs.Drain.Folding
import ScopeFlow.Proofs.Drain.Upkeep

/-!
# Single steps of packed stacks

A drain of one step splits no collections, whatever the configuration says.
From a packed stack and from the flat one it takes up the same operator: the
one only unpacks more before it gets there.
-/

namespace ScopeFlow.DrainSetting

variable {r : DrainSetting} {g : SharedGraph} {op : Operation}
  {folded flat rest ops stack : List Operation} {p p' : Progress} {l : List Deed}
  {d : Drained} {ctx : Context} {w : World} {budget : Option Nat}

/-- What is executed in a step that does not run into the bound lies within
it. -/
theorem step_le_bound (hm : r.move (some 1) op p = .perform ctx)
    (hroom : ∀ l d, r.Ends (some 1) (op :: rest) p l d → ¬ r.Overflow d.outcome) :
    rest.length + 1 ≤ r.config.maxStackDepth := by
  refine Decidable.byContradiction fun hlt => ?_
  obtain ⟨e, he, hover⟩ := execute_of_lt (r := r) ctx (Nat.not_le.mp hlt) p.world
  exact hroom _ _ ((ends_error hm he).mpr ⟨rfl, rfl⟩) hover

/-- A step from a packed stack does what a step from the flat one does. By
induction on the size of the packed stack, which unpacking makes smaller. -/
theorem step_folds (r : DrainSetting) (hfold : Folds folded flat)
    (hroom : ∀ l d, (r.mode false).Ends (some 1) flat p l d → ¬ r.Overflow d.outcome) :
    ∃ l d d', (r.mode true).Ends (some 1) folded p l d ∧
      (r.mode false).Ends (some 1) flat p l d' ∧ Akin d d' := by
  generalize hn : Operation.weightOfAll folded = n
  induction n using Nat.strongRecOn generalizing folded flat with
  | _ n ih =>
      cases hhalt : r.halts? p with
      | some why =>
          cases folded with
          | nil =>
              obtain rfl := hfold.eq_nil_iff.mp rfl
              exact ⟨[], _, _, ends_nil.mpr ⟨rfl, rfl⟩, ends_nil.mpr ⟨rfl, rfl⟩, rfl, rfl, .nil⟩
          | cons op folded =>
              cases hflat : flat with
              | nil =>
                  have := hfold.eq_nil_iff.mpr hflat
                  cases this
              | cons op' flat' =>
                  exact ⟨[], _, _, (ends_halt (mode_move_halt hhalt)).mpr ⟨rfl, rfl⟩,
                    (ends_halt (mode_move_halt hhalt)).mpr ⟨rfl, rfl⟩, rfl, rfl, hflat ▸ hfold⟩
      | none =>
          -- Where the packed stack only unpacks, the flat one stays as it is, or unpacks too.
          have hunpack : ∀ {op ops folded' flat'}, folded = op :: folded' →
              (r.mode true).move (some 1) op p = .unpack ops → Folds (ops ++ folded') flat' →
              (∀ l d, (r.mode false).Ends (some 1) flat' p l d →
                (r.mode false).Ends (some 1) flat p l d) →
              ∃ l d d', (r.mode true).Ends (some 1) folded p l d ∧
                (r.mode false).Ends (some 1) flat p l d' ∧ Akin d d' := by
            intro op ops folded' flat' hcons hm hfold' hends
            subst hcons
            have hlt : Operation.weightOfAll (ops ++ folded') < n := by
              have := weight_unpack hm
              rw [← hn, Operation.weightOfAll_append, Operation.weightOfAll]
              omega
            obtain ⟨l, d, d', h, h', hakin⟩ := ih _ hlt hfold'
              (fun l d hd => hroom l d (hends l d hd)) rfl
            exact ⟨l, d, d', (ends_unpack hm).mpr h, hends l d' h', hakin⟩
          have hplace : (r.mode true).InPlace (some 1) := inPlace_step 1
          cases hfold with
          | nil =>
              exact ⟨[], _, _, ends_nil.mpr ⟨rfl, rfl⟩, ends_nil.mpr ⟨rfl, rfl⟩, rfl, rfl, .nil⟩
          | @cons folded flat op hfold =>
              cases op with
              | atomic ctx =>
                  have hm : (r.mode true).move (some 1) (.atomic ctx) p = .perform ctx :=
                    mode_move_atomic hhalt
                  have hm' : (r.mode false).move (some 1) (.atomic ctx) p = .perform ctx :=
                    mode_move_atomic hhalt
                  have hle := step_le_bound hm' hroom
                  change flat.length + 1 ≤ r.config.maxStackDepth at hle
                  -- The packed stack is the shorter one, so there is room on it wherever there
                  -- is on the flat one.
                  have hexec : r.execute ctx folded.length = r.execute ctx flat.length := by
                    have := hfold.length_le
                    exact execute_of_le ctx (by omega) hle
                  rcases he : r.execute ctx flat.length p.world with ⟨e | next, w⟩
                  · refine ⟨_, _, _, (ends_error hm (e := e) (w := w) ?_).mpr ⟨rfl, rfl⟩,
                      (ends_error hm' (e := e) (w := w) ?_).mpr ⟨rfl, rfl⟩, rfl, rfl,
                      .cons _ hfold⟩
                    · rw [mode_execute, hexec, he]
                    · rw [mode_execute, he]
                  · have he' : (r.mode true).execute ctx folded.length p.world = (.ok next, w) := by
                      rw [mode_execute, hexec, he]
                    have he'' : (r.mode false).execute ctx flat.length p.world = (.ok next, w) := by
                      rw [mode_execute, he]
                    exact ⟨_, _, _, (ends_last hm he').mpr ⟨rfl, rfl⟩,
                      (ends_last hm' he'').mpr ⟨rfl, rfl⟩, rfl, rfl, (Folds.refl _).append hfold⟩
              | sequence ops =>
                  refine hunpack rfl (mode_move_sequence hhalt) ((Folds.refl ops).append hfold) ?_
                  exact fun l d => (ends_unpack (mode_move_sequence hhalt)).mpr
              | parallel ops =>
                  refine hunpack rfl ?_ ((Folds.refl ops).append hfold) ?_
                  · exact (mode_move_parallel hhalt _).resolve_left (hplace.not_split _ _ _)
                  · exact fun l d => (ends_unpack (mode_move_unpack hhalt)).mpr
          | @sequence ops part _ _ hops hne hfold =>
              exact hunpack rfl (mode_move_sequence hhalt) (hops.append hfold) fun l d h => h
          | @parallel ops part _ _ hops hne hfold =>
              refine hunpack rfl ?_ (hops.append hfold) fun l d h => h
              exact (mode_move_parallel hhalt _).resolve_left (hplace.not_split _ _ _)

/-- What a drain leaves is still of the graph, and the control is still there. -/
theorem ends_keeps (hg : g.Candid) (h : r.Ends budget stack p l d)
    (hrun : Operation.AllRunIn stack g) (hw : p.world.Has r.control) :
    Operation.AllRunIn d.stack g ∧ d.progress.world.Has r.control := by
  obtain ⟨fuel, hd, -⟩ := h
  have hbears : d.Bears (fun w => w.Has r.control) (fun _ c => c.graph = g) p.world := by
    refine drain_bears (fun w ctx pending hw hctx => ?_) hd hw hrun
    rcases he : r.execute ctx pending w with ⟨answer, w'⟩
    have hkept : w'.Has r.control := execute_has (p := ⟨w, 0, false⟩) hg hctx hw he
    refine ⟨⟨hkept, fun _ hc => hc⟩, fun next hnext => ?_⟩
    obtain rfl : answer = .ok next := hnext
    exact hctx ▸ execute_answers he
  exact ⟨hbears.stack, hbears.world.good⟩

end ScopeFlow.DrainSetting
