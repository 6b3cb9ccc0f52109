import ScopeFlow.Proofs.Drain.Courses
import ScopeFlow.Proofs.Footprint.Work
import ScopeFlow.Proofs.Likeness.Drain

/-!
# Drains where heaps match

A drain that runs dry does so from any heap that matches on what its executions
read and write, with the same executions in contexts that stand for one another
(`DrainSetting.drain_followed`). The second drain changes only what stands for
what the first one writes.
-/

namespace ScopeFlow

/-- Everything that some executions read is in one set, and everything that they
write in another. -/
def Covers (T W : Set Place) (xs : List Effort) : Prop :=
  ∀ x ∈ xs, x.reads ⊆ T ∧ x.writes ⊆ W

/-- Drains that have come to heaps that match, under the same requests. -/
structure Progress.Matched (T : Set Place) (ρ : Pairing) (p q : Progress) : Prop where
  heap : HeapsMatch T ρ p.world.heap q.world.heap
  forest : p.world.heap.Forest
  forest' : q.world.heap.Forest
  requests : p.world.SameRequests q.world
  fault : q.fault = p.fault

/-- What has become of two drains, of which the second one has made no request. -/
structure Progress.InStep (T W : Set Place) (ρ ρ' : Pairing) (p p' q q' : Progress) : Prop where
  heap : ScopeFlow.InStep T W ρ ρ' p.world.heap p'.world.heap q.world.heap q'.world.heap
  matched : p'.Matched T ρ' q'
  requests : q.world.SameRequests q'.world
  fault : q'.fault = q.fault

/-- The same has been executed, in contexts that stand for one another. -/
def Turn.Alike (ρ : Pairing) (t t' : Turn) : Prop := t.ctx.Moved ρ t'.ctx

namespace Covers

variable {T W : Set Place} {x : Effort} {xs ys : List Effort}

theorem cons_iff : Covers T W (x :: xs) ↔ (x.reads ⊆ T ∧ x.writes ⊆ W) ∧ Covers T W xs :=
  List.forall_mem_cons

theorem append_iff : Covers T W (xs ++ ys) ↔ Covers T W xs ∧ Covers T W ys :=
  List.forall_mem_append

end Covers

namespace Progress

variable {T W : Set Place} {ρ ρ' ρ'' : Pairing} {p p' p'' q q' q'' : Progress}

theorem Matched.still (hm : p.Matched T ρ q) : InStep T W ρ ρ p p q q :=
  ⟨hm.heap.still, hm, .refl, rfl⟩

theorem InStep.trans (h : InStep T W ρ ρ' p p' q q') (h' : InStep T W ρ' ρ'' p' p'' q' q'') :
    InStep T W ρ ρ'' p p'' q q'' :=
  ⟨h.heap.trans h'.heap, h'.matched, h.requests.trans h'.requests, h'.fault.trans h.fault⟩

end Progress

namespace DrainSetting

variable {r : DrainSetting} {T W : Set Place} {ρ : Pairing} {p p' q : Progress} {c d : Context}
  {w : World} {next : Option Operation}

/-- An execution that succeeds does so in step where heaps match. -/
theorem execute_follows {pending : Nat} (hx : r.execute c pending p.world = (.ok next, w))
    (hm : p.Matched T ρ q) (hcd : c.Moved ρ d) (hT : c.reads p.world.heap ⊆ T)
    (hW : c.writes p.world.heap ⊆ W) :
    ∃ ρ' next' w', r.execute d pending q.world = (.ok next', w') ∧
      Progress.InStep T W ρ ρ' p (p.advance w) q (q.advance w') ∧
      Option.Rel (Operation.Alike ρ'.asRenaming) next next' := by
  obtain ⟨-, hbuilt, -, hdepth, -⟩ := hcd.same
  obtain ⟨hstack, hdeep, hexec⟩ := execute_eq_ok hx
  have hchain := hm.heap.scopeChain hcd
  have hforest := Context.execute_forest hm.forest (fun s hs =>
    let ⟨_, _, hst⟩ := forall₂_mem hchain hs
    (hm.heap.scope hst).1) ⟨p.world.token r.control, some r.control⟩
  have hforest' := Context.execute_forest hm.forest' (fun t ht =>
    let ⟨_, _, hst⟩ := forall₂_mem hchain.flip ht
    (hm.heap.scope hst).2.1) ⟨q.world.token r.control, some r.control⟩
  -- No heap says whether a request is cancelled, so both executions are told the same.
  have hcancelled : q.world.isCancelled (q.world.token r.control) =
      p.world.isCancelled (p.world.token r.control) := by
    unfold World.isCancelled World.token
    rw [hm.requests.control, hm.requests.tokens]
  rw [execute_within (Nat.not_lt.mpr hstack) (Nat.not_lt.mpr (hdepth ▸ hdeep))]
  rw [hexec] at hforest
  unfold Context.execute at hexec hforest' ⊢
  unfold Context.reads at hT
  unfold Context.writes at hW
  rw [Act.bind_apply, Act.ofExcept_apply] at hexec hforest' ⊢
  rw [← hcd.operator] at hforest' ⊢
  cases hop : c.operator with
  | error e => rw [hop] at hexec; cases hexec
  | ok op =>
      rw [hop] at hexec hT hW hforest'
      dsimp only at hexec hT hW hforest' ⊢
      have hkind := hbuilt op (c.operator_mem hop rfl)
      rw [Operator.execute_builtIn hkind, World.onHeap_apply] at hexec hforest' ⊢
      rw [hcancelled] at hforest' ⊢
      obtain ⟨hanswer, rfl⟩ := Prod.mk.inj hexec
      obtain ⟨ρ', next', k', hy, hnext, hstep⟩ := op.work_follows hm.heap hcd hm.forest hm.forest'
        (p.world.isCancelled (p.world.token r.control)) hT hW next _ (Prod.ext hanswer rfl)
      rw [hy] at hforest' ⊢
      exact ⟨ρ', next', _, rfl, ⟨hstep, ⟨hstep.matched, hforest, hforest',
        ⟨hm.requests.tokens, hm.requests.controls⟩, hm.fault⟩, ⟨rfl, rfl⟩, rfl⟩, hnext⟩

/-- A drain with this fuel that runs dry does so, in step, from every progress
that matches. -/
def Followed (r : DrainSetting) (fuel : Nat) : Prop :=
  ∀ {T W : Set Place} {ρ : Pairing} {stack stack' : List Operation} {p q : Progress} {z : Drained},
    r.drain fuel none stack p = some z → z.outcome = .ended none →
    Covers T W (Turn.efforts p (r.turns fuel none stack p)) → p.Matched T ρ q →
    Operation.AllAlike ρ.asRenaming stack stack' →
    ∃ ρ' q', r.drain fuel none stack' q = some ⟨.ended none, [], q'⟩ ∧
      Progress.InStep T W ρ ρ' p z.progress q q' ∧
      List.Forall₂ (Turn.Alike ρ') (r.turns fuel none stack p) (r.turns fuel none stack' q)

/-- Branches that all run dry do so from every progress that matches. -/
theorem Followed.branches {fuel : Nat} (hf : r.Followed fuel) (ops : List Operation) :
    ∀ {ρ ops' p q ends p'},
      drainBranches (fun op p => r.drain fuel none [op] p) ops p = some (ends, p') →
      (∀ b ∈ ends, b.outcome = .ended none) →
      Covers T W (Turn.efforts p (branchTurns (fun op p => r.drain fuel none [op] p)
        (fun op p => r.turns fuel none [op] p) ops p)) →
      p.Matched T ρ q → Operation.AllAlike ρ.asRenaming ops ops' →
      ∃ ρ' ends' q', drainBranches (fun op p => r.drain fuel none [op] p) ops' q =
          some (ends', q') ∧ (∀ b ∈ ends', b.outcome = .ended none) ∧
        Progress.InStep T W ρ ρ' p p' q q' ∧
        List.Forall₂ (Turn.Alike ρ')
          (branchTurns (fun op p => r.drain fuel none [op] p)
            (fun op p => r.turns fuel none [op] p) ops p)
          (branchTurns (fun op p => r.drain fuel none [op] p)
            (fun op p => r.turns fuel none [op] p) ops' q) := by
  induction ops with
  | nil =>
      intro ρ ops' p q ends p' hb _ _ hm hops
      cases hops
      cases hb
      exact ⟨ρ, [], q, rfl, by simp, hm.still, .nil⟩
  | cons op ops ih =>
      intro ρ ops' p q ends p' hb hdry hcovers hm hops
      cases hops with
      | @cons _ op' _ ops' hop hops =>
          unfold drainBranches at hb
          cases hd : r.drain fuel none [op] p with
          | none => rw [hd] at hb; cases hb
          | some z =>
              rw [hd] at hb
              dsimp only at hb
              cases hrest : drainBranches (fun op p => r.drain fuel none [op] p) ops
                  z.progress with
              | none => rw [hrest] at hb; cases hb
              | some x =>
                  obtain ⟨ends, p''⟩ := x
                  rw [hrest] at hb
                  cases hb
                  obtain ⟨hz, hdry⟩ := List.forall_mem_cons.mp hdry
                  unfold branchTurns at hcovers ⊢
                  rw [hd, Turn.efforts_append, reach_turns hd, Covers.append_iff] at hcovers
                  -- The pairing that the first branch leads to is the one the others start with.
                  obtain ⟨ρ₁, q₁, hd', hstep, hturns⟩ :=
                    hf hd hz hcovers.1 hm (.cons hop .nil)
                  obtain ⟨ρ₂, ends', q₂, hb', hdry', hstep', hturns'⟩ := ih hrest hdry hcovers.2
                    hstep.matched (Operation.AllAlike.mono hstep.heap.within.asRenaming hops)
                  refine ⟨ρ₂, ⟨.ended none, []⟩ :: ends', q₂, ?_, ?_, hstep.trans hstep', ?_⟩
                  · rw [drainBranches, hd']
                    dsimp only
                    rw [hb']
                  · exact List.forall_mem_cons.mpr ⟨rfl, hdry'⟩
                  · rw [hd, hd']
                    exact List.rel_append
                      (hturns.imp fun _ _ => Context.Moved.mono hstep'.heap.within) hturns'

/-- A drain that runs dry does so from every heap that matches. -/
theorem drain_followed (r : DrainSetting) (fuel : Nat) : r.Followed fuel := by
  -- By induction on the fuel, for every stack: after a move that is the same on both
  -- sides, the heaps still match, and what is left to drain has one less.
  induction fuel with
  | zero =>
      intro T W ρ stack stack' p q z hd
      rw [drain_zero] at hd
      cases hd
  | succ fuel ih =>
      intro T W ρ stack stack' p q z hd hz hcovers hm hstack
      cases hstack with
      | nil =>
          rw [drain_nil] at hd
          cases hd
          exact ⟨ρ, q, rfl, hm.still, .nil⟩
      | @cons op op' rest rest' hop hrest =>
          have hhalts : r.halts? p = r.halts? q :=
            (halts?_congr (hm.requests.halt? r.control) hm.fault).symm
          have hmove := move_alike_of_halts rfl hop hhalts none
          cases hp : r.move none op p with
          | halt why =>
              rw [drain_halt hp] at hd
              cases hd
              cases hz
          | unpack ops =>
              rw [hp] at hmove
              generalize hq : r.move none op' q = m at hmove
              cases hmove with
              | unpack hops =>
                  rw [drain_unpack hp] at hd
                  rw [turns_unpack hp] at hcovers ⊢
                  rw [drain_unpack hq, turns_unpack hq]
                  exact ih hd hz hcovers hm (List.rel_append hops hrest)
          | split ops =>
              rw [hp] at hmove
              generalize hq : r.move none op' q = m at hmove
              cases hmove with
              | @split _ ops' hops =>
                  cases hb : drainBranches (fun op p => r.drain fuel none [op] p) ops p with
                  | none => rw [(drain_split_none hp hb).1] at hd; cases hd
                  | some x =>
                      obtain ⟨ends, p₁⟩ := x
                      -- Had a branch not run dry, the drain would have ended there.
                      by_cases ho : (joinBranches ends).outcome = .ended none
                      · rw [(drain_split_go hp hb ho).1, stackOn_of_dry hb ho] at hd
                        rw [(drain_split_go hp hb ho).2, stackOn_of_dry hb ho] at hcovers ⊢
                        rw [Turn.efforts_append, reach_branchTurns hb, Covers.append_iff]
                          at hcovers
                        obtain ⟨ρ₁, ends', q₁, hb', hdry', hstep, hturns⟩ := ih.branches ops hb
                          ((joinBranches_outcome_none ends).mp ho) hcovers.1 hm hops
                        have ho' := (joinBranches_outcome_none ends').mpr hdry'
                        obtain ⟨ρ₂, q₂, hd', hstep', hturns'⟩ := ih hd hz hcovers.2 hstep.matched
                          (Operation.AllAlike.mono hstep.heap.within.asRenaming hrest)
                        rw [(drain_split_go hq hb' ho').1, (drain_split_go hq hb' ho').2,
                          stackOn_of_dry hb' ho']
                        exact ⟨ρ₂, q₂, hd', hstep.trans hstep', List.rel_append
                          (hturns.imp fun _ _ => Context.Moved.mono hstep'.heap.within) hturns'⟩
                      · rw [(drain_split_end hp hb ho).1] at hd
                        cases hd
                        exact absurd hz ho
          | perform c =>
              rw [hp] at hmove
              generalize hq : r.move none op' q = m at hmove
              cases hmove with
              | @perform _ c' hcc =>
                  rcases hx : r.execute c rest.length p.world with ⟨e | next, w⟩
                  · simp only [drain_cons, hp, hx] at hd
                    cases hd
                    cases hz
                  · simp only [drain_cons, hp, hx, spend] at hd
                    simp only [turns, hp, hx, spend, Turn.efforts, Covers.cons_iff] at hcovers ⊢
                    obtain ⟨⟨hT, hW⟩, hcovers⟩ := hcovers
                    obtain ⟨ρ₁, next', w', hy, hstep, hnext⟩ := execute_follows hx hm hcc hT hW
                    obtain ⟨ρ₂, q₂, hd', hstep', hturns⟩ := ih hd hz hcovers hstep.matched
                      (List.rel_append (Operation.toList_alike hnext)
                        (Operation.AllAlike.mono hstep.heap.within.asRenaming hrest))
                    refine ⟨ρ₂, q₂, ?_, hstep.trans hstep', ?_⟩
                    · simp only [drain_cons, hq, ← hrest.length_eq, hy, spend]
                      exact hd'
                    · simp only [hq, ← hrest.length_eq, hy]
                      exact .cons (hcc.mono (hstep.heap.within.trans hstep'.heap.within)) hturns

end DrainSetting

end ScopeFlow
