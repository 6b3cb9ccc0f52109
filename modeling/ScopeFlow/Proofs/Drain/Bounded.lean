import ScopeFlow.Proofs.Drain.Frame
import ScopeFlow.Proofs.Drain.Steps

/-!
# Drains with boundedly many turns

Between two operators a drain does only finitely much: it takes collections
apart, and each leaves smaller ones. So a drain whose turns are bounded in
number, whatever its fuel, ends.
-/

namespace ScopeFlow.DrainSetting

variable {r : DrainSetting} {budget : Option Nat} {op : Operation} {ops rest stack : List Operation}
  {p p' : Progress} {n : Nat}

/-- No fuel gives a drain more than `n` turns. -/
def Bounded (r : DrainSetting) (n : Nat) (budget : Option Nat) (stack : List Operation)
    (p : Progress) : Prop :=
  ∀ fuel, (r.turns fuel budget stack p).length ≤ n

/-- What is split up is smaller than the operation. -/
theorem weight_split (hm : r.move budget op p = .split ops) :
    Operation.weightOfAll ops < op.weight := by
  obtain ⟨-, rfl, -⟩ := move_eq_split.mp hm
  rw [Operation.weight]
  omega

/-- Branches that all run dry leave nothing to be put back. -/
theorem stackOn_of_dry {fuel : Nat} {ends : List BranchEnd}
    (hb : drainBranches (fun op p => r.drain fuel none [op] p) ops p = some (ends, p'))
    (ho : (joinBranches ends).outcome = .ended none) (rest : List Operation) :
    (joinBranches ends).stackOn rest = rest := by
  have hpending : (joinBranches ends).pending = [] := by
    rw [joinBranches_pending, List.filterMap_eq_nil_iff]
    intro b hmem
    obtain ⟨op', q, d', hd', rfl⟩ := drainBranches_mem hb b hmem
    have hdry := (joinBranches_outcome_none ends).mp ho _ hmem
    have hnil : d'.stack = [] := (stack_eq_nil_iff fuel hd').mpr hdry
    simp [BranchEnd.remainder, hnil]
  rw [Joined.stackOn, hpending]
  rfl

/-- The branches of a split, if each of them ends whenever its turns are
bounded. -/
theorem branches_end_of_bounded
    (hend : ∀ op ∈ ops, ∀ p, r.Bounded n none [op] p → ∃ fuel d, r.drain fuel none [op] p = some d)
    (hbound : ∀ fuel, (branchTurns (fun op p => r.drain fuel none [op] p)
      (fun op p => r.turns fuel none [op] p) ops p).length ≤ n) :
    ∃ fuel x, drainBranches (fun op p => r.drain fuel none [op] p) ops p = some x := by
  induction ops generalizing p with
  | nil => exact ⟨0, _, rfl⟩
  | cons op ops ih =>
      have hfirst : r.Bounded n none [op] p := by
        intro fuel
        have := hbound fuel
        rw [branchTurns, List.length_append] at this
        omega
      obtain ⟨fuel, d, hd⟩ := hend op List.mem_cons_self p hfirst
      -- The turns of the others count in the same bound once the first branch has ended.
      have hothers : ∀ fuel', (branchTurns (fun op p => r.drain fuel' none [op] p)
          (fun op p => r.turns fuel' none [op] p) ops d.progress).length ≤ n := by
        intro fuel'
        have hd' := drain_mono (Nat.le_max_left fuel fuel') hd
        have hle := hbound (max fuel fuel')
        rw [branchTurns, hd'.1, List.length_append] at hle
        exact Nat.le_trans (branchTurns_more (Nat.le_max_right fuel fuel')).length_le
          (Nat.le_trans (Nat.le_add_left ..) hle)
      obtain ⟨fuel', x, hx⟩ := ih (fun op' hmem => hend op' (List.mem_cons_of_mem op hmem)) hothers
      have hd' := drain_mono (Nat.le_max_left fuel fuel') hd
      have hx' := (branches_more (Nat.le_max_right fuel fuel') hx).1
      exact ⟨max fuel fuel', (⟨d.outcome, d.stack⟩ :: x.1, x.2), by
        rw [drainBranches, hd'.1]
        dsimp only
        rw [hx']⟩

theorem weight_le_of_mem (hmem : op ∈ ops) : op.weight ≤ Operation.weightOfAll ops := by
  induction ops with
  | nil => cases hmem
  | cons op' ops ih =>
      rw [Operation.weightOfAll]
      rcases List.mem_cons.mp hmem with rfl | hmem
      · omega
      · have := ih hmem
        omega

/-- A drain with boundedly many turns ends. The induction is on the bound, and
for each bound on the size of the stack. -/
theorem ends_of_bounded (r : DrainSetting) (n : Nat) :
    ∀ budget stack p, r.Bounded n budget stack p → ∃ fuel d, r.drain fuel budget stack p = some d := by
  induction n using Nat.strongRecOn with
  | _ n ihn =>
      intro budget stack
      generalize hw : Operation.weightOfAll stack = weight
      induction weight using Nat.strongRecOn generalizing budget stack with
      | _ weight ihw =>
          intro p hbound
          cases stack with
          | nil => exact ⟨1, _, drain_nil 0⟩
          | cons op rest =>
              rw [Operation.weightOfAll] at hw
              cases hm : r.move budget op p with
              | halt why => exact ⟨1, _, drain_halt hm 0⟩
              | unpack ops =>
                  -- As many turns may remain, but the stack is smaller.
                  have hlt : Operation.weightOfAll (ops ++ rest) < weight := by
                    have := weight_unpack hm
                    rw [Operation.weightOfAll_append]
                    omega
                  have hbound' : r.Bounded n budget (ops ++ rest) p := by
                    intro fuel
                    rw [← turns_unpack hm]
                    exact hbound (fuel + 1)
                  obtain ⟨fuel, d, hd⟩ := ihw _ hlt budget (ops ++ rest) rfl p hbound'
                  exact ⟨fuel + 1, d, by rw [drain_unpack hm, hd]⟩
              | split ops =>
                  have hsmall := weight_split hm
                  have hbranches : ∀ fuel, (branchTurns (fun op p => r.drain fuel none [op] p)
                      (fun op p => r.turns fuel none [op] p) ops p).length ≤ n := by
                    intro fuel
                    have := hbound (fuel + 1)
                    rw [turns, hm, List.length_append] at this
                    omega
                  -- Each branch is smaller than the stack, and so is what lies below them.
                  obtain ⟨fuel, ⟨ends, p'⟩, hb⟩ := branches_end_of_bounded
                    (fun op' hmem q hq => ihw (Operation.weightOfAll [op']) (by
                      have := weight_le_of_mem hmem
                      rw [Operation.weightOfAll, Operation.weightOfAll]
                      omega) none [op'] rfl q hq) hbranches
                  by_cases ho : (joinBranches ends).outcome = .ended none
                  · have hrest : r.Bounded n budget rest p' := by
                      intro fuel'
                      have hb' := (branches_more (Nat.le_max_left fuel fuel') hb).1
                      have hlong := hbound (max fuel fuel' + 1)
                      rw [(drain_split_go hm hb' ho).2, stackOn_of_dry hb' ho,
                        List.length_append] at hlong
                      have hle : r.turns fuel' budget rest p' <+:
                          r.turns (max fuel fuel') budget rest p' :=
                        turns_mono (Nat.le_max_right fuel fuel')
                      have := hle.length_le
                      omega
                    obtain ⟨fuel', d, hd⟩ := ihw (Operation.weightOfAll rest) (by omega) budget
                      rest rfl p' hrest
                    have hb' := (branches_more (Nat.le_max_left fuel fuel') hb).1
                    refine ⟨max fuel fuel' + 1, d, ?_⟩
                    rw [(drain_split_go hm hb' ho).1, stackOn_of_dry hb' ho]
                    exact (drain_mono (Nat.le_max_right fuel fuel') hd).1
                  · exact ⟨fuel + 1, _, (drain_split_end hm hb ho).1⟩
              | perform ctx =>
                  rcases he : r.execute ctx rest.length p.world with ⟨e | next, w⟩
                  · exact ⟨1, ⟨.failed e, .atomic ctx :: rest, p.fall e w⟩, by
                      simp only [drain_cons, hm, he]⟩
                  · cases hs : spend budget with
                    | none =>
                        exact ⟨1, ⟨.ended (some .budget), next.toList ++ rest, p.advance w⟩, by
                          simp only [drain_cons, hm, he, hs]⟩
                    | some budget' =>
                        have hstep : ∀ fuel, r.turns (fuel + 1) budget (op :: rest) p =
                            ⟨ctx, next.toList ++ rest, p.advance w⟩ ::
                              r.turns fuel budget' (next.toList ++ rest) (p.advance w) := by
                          intro fuel
                          simp only [turns, hm, he, hs]
                        -- The turn just taken counts, so that the bound goes down.
                        have hpos := hbound 1
                        rw [hstep, turns_zero, List.length_singleton] at hpos
                        have hbound' : r.Bounded (n - 1) budget' (next.toList ++ rest)
                            (p.advance w) := by
                          intro fuel
                          have := hbound (fuel + 1)
                          rw [hstep, List.length_cons] at this
                          omega
                        obtain ⟨fuel, d, hd⟩ := ihn (n - 1) (by omega) budget' _ _ hbound'
                        exact ⟨fuel + 1, d, by simp only [drain_cons, hm, he, hs, hd]⟩

end ScopeFlow.DrainSetting
