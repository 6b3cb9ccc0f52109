import ScopeFlow.Proofs.Drain.Bounded
import ScopeFlow.Proofs.Operator.Candid

/-!
# Branches on stacks of their own

A drain may drain the branches of a collection on stacks of their own, or take
the collection apart on the one stack that it has. The stacks of the two look
different: what interrupted branches leave is put back as one collection, where
the other drain has the operations themselves.

* `Folds` relates such stacks: one is the other with parts of it packed into
  collections;
* `Matches` says how the two drains end side by side, `drain_folds` that they
  do, by induction on the fuel of the one with branches;
* the converse is by counting: a drain with branches that did not end would
  have more turns than the other one (`folds_ends`).
-/

namespace ScopeFlow

/-- A stack with parts of it packed into collections, and the stack without. -/
inductive Folds : List Operation → List Operation → Prop
  | nil : Folds [] []
  | cons {folded flat : List Operation} (op : Operation) : Folds folded flat →
      Folds (op :: folded) (op :: flat)
  | sequence {inner part folded flat : List Operation} : Folds inner part → part ≠ [] →
      Folds folded flat → Folds (.sequence inner :: folded) (part ++ flat)
  | parallel {inner part folded flat : List Operation} : Folds inner part → part ≠ [] →
      Folds folded flat → Folds (.parallel inner :: folded) (part ++ flat)

namespace Folds

variable {folded folded' flat flat' ops : List Operation} {op : Operation}

theorem refl (ops : List Operation) : Folds ops ops := by
  induction ops with
  | nil => exact .nil
  | cons op ops ih => exact .cons op ih

theorem append (h : Folds folded flat) (h' : Folds folded' flat') :
    Folds (folded ++ folded') (flat ++ flat') := by
  induction h with
  | nil => exact h'
  | cons op _ ih => exact .cons op ih
  | sequence hinner hne _ _ ih =>
      rw [List.append_assoc]
      exact .sequence hinner hne ih
  | parallel hinner hne _ _ ih =>
      rw [List.append_assoc]
      exact .parallel hinner hne ih

/-- Packing keeps the atomic operations and their order. -/
theorem contexts (h : Folds folded flat) :
    Operation.contextsOfAll folded = Operation.contextsOfAll flat := by
  induction h with
  | nil => rfl
  | cons op _ ih => rw [Operation.contextsOfAll, Operation.contextsOfAll, ih]
  | sequence _ _ _ ihinner ih =>
      rw [Operation.contextsOfAll, Operation.contexts, Operation.contextsOfAll_append, ihinner, ih]
  | parallel _ _ _ ihinner ih =>
      rw [Operation.contextsOfAll, Operation.contexts, Operation.contextsOfAll_append, ihinner, ih]

/-- Packing makes a stack shorter. -/
theorem length_le (h : Folds folded flat) : folded.length ≤ flat.length := by
  induction h with
  | nil => exact Nat.le_refl 0
  | cons op _ ih => exact Nat.succ_le_succ ih
  | sequence _ hne _ _ ih =>
      have := List.length_pos_iff.mpr hne
      rw [List.length_cons, List.length_append]
      omega
  | parallel _ hne _ _ ih =>
      have := List.length_pos_iff.mpr hne
      rw [List.length_cons, List.length_append]
      omega

/-- Packing leaves nothing empty. -/
theorem eq_nil_iff (h : Folds folded flat) : folded = [] ↔ flat = [] := by
  induction h with
  | nil => exact Iff.rfl
  | cons op _ _ => simp
  | sequence _ hne _ _ _ => simp [hne]
  | parallel _ hne _ _ _ => simp [hne]

/-- The first operation of a packed stack and the part that it stands for. -/
theorem cons_inv (h : Folds (op :: folded) flat) : ∃ part flat', flat = part ++ flat' ∧
    Folds [op] part ∧ part ≠ [] ∧ Folds folded flat' := by
  cases h with
  | cons _ h => exact ⟨[op], _, rfl, .refl _, by simp, h⟩
  | sequence hinner hne h =>
      exact ⟨_, _, rfl, by simpa using Folds.sequence hinner hne .nil, hne, h⟩
  | parallel hinner hne h =>
      exact ⟨_, _, rfl, by simpa using Folds.parallel hinner hne .nil, hne, h⟩

/-- Each operation of a packed stack may be packed by itself. -/
theorem map_sequence (h : Folds folded flat) :
    Folds (folded.map fun op => .sequence [op]) flat := by
  induction h with
  | nil => exact .nil
  | cons op _ ih => exact .sequence (.refl [op]) (by simp) ih
  | sequence hinner hne _ _ ih =>
      have hone := Folds.sequence hinner hne .nil
      rw [List.append_nil] at hone
      exact .sequence hone hne ih
  | parallel hinner hne _ _ ih =>
      have hone := Folds.parallel hinner hne .nil
      rw [List.append_nil] at hone
      exact .sequence hone hne ih

end Folds

/-- Branches that leave something are put back as one collection. -/
theorem Joined.stackOn_cons {j : Joined} (h : j.pending ≠ []) (rest : List Operation) :
    j.stackOn rest = .parallel j.pending :: rest := by
  obtain ⟨_ | ⟨op, ops⟩, halt, failure⟩ := j
  · exact absurd rfl h
  · rfl

namespace DrainSetting

/-- The setting with branches on stacks of their own, or without. -/
def mode (r : DrainSetting) (parallel : Bool) : DrainSetting :=
  { r with config := { r.config with parallel } }

variable {r : DrainSetting} {g : SharedGraph} {op : Operation}
  {folded flat rest ops stack : List Operation} {p p' : Progress} {l l' : List Deed}
  {d : Drained} {ctx : Context} {w : World} {b : Bool} {budget : Option Nat} {n : Nat}

@[simp] theorem mode_execute : (r.mode b).execute ctx n w = r.execute ctx n w := rfl

theorem mode_inPlace : (r.mode false).InPlace budget := fun _ => rfl

/-! ## Moves of the two drains -/

theorem mode_move_halt {why : Halt} (h : r.halts? p = some why) :
    (r.mode b).move budget op p = .halt why :=
  move_eq_halt.mpr h

theorem mode_move_atomic (h : r.halts? p = none) :
    (r.mode b).move budget (.atomic ctx) p = .perform ctx :=
  move_eq_perform.mpr ⟨h, rfl⟩

theorem mode_move_sequence (h : r.halts? p = none) :
    (r.mode b).move budget (.sequence ops) p = .unpack ops :=
  move_eq_unpack.mpr ⟨h, .inl rfl⟩

/-- Branches are split off, or taken apart where they are. -/
theorem mode_move_parallel (h : r.halts? p = none) (budget : Option Nat) :
    (r.mode b).move budget (.parallel ops) p = .split ops ∨
      (r.mode b).move budget (.parallel ops) p = .unpack ops := by
  cases hs : (r.mode b).separates budget ops with
  | true => exact .inl (move_eq_split.mpr ⟨h, rfl, hs⟩)
  | false => exact .inr (move_eq_unpack.mpr ⟨h, .inr ⟨rfl, hs⟩⟩)

theorem mode_move_unpack (h : r.halts? p = none) :
    (r.mode false).move budget (.parallel ops) p = .unpack ops :=
  (mode_move_parallel h budget).resolve_left (mode_inPlace.not_split _ _ _)

/-! ## Side by side -/

/-- How a drain that has ended with a packed stack corresponds to the drain of
the flat stack on top of others, without branches: both run dry, both halt
with corresponding stacks, or both fail with corresponding stacks, and then
nothing is executed any more. -/
inductive Matches (r : DrainSetting) (flat rest : List Operation) (p : Progress) (l : List Deed)
    (d : Drained) : Prop
  | dry : d.outcome = .ended none → d.stack = [] →
      (r.mode false).Leads (flat ++ rest) p l rest d.progress → Matches r flat rest p l d
  | halted (why : Halt) (flat' : List Operation) : d.outcome = .ended (some why) →
      Folds d.stack flat' → flat' ≠ [] → r.halts? d.progress = some why →
      (r.mode false).Leads (flat ++ rest) p l (flat' ++ rest) d.progress → Matches r flat rest p l d
  | failed (e : Failure) (flat' : List Operation) : d.outcome = .failed e →
      Folds d.stack flat' → flat' ≠ [] → r.halts? d.progress ≠ none →
      (r.mode false).Ends none (flat ++ rest) p l ⟨.failed e, flat' ++ rest, d.progress⟩ →
      Matches r flat rest p l d

namespace Matches

variable {flat' : List Operation}

/-- The deeds of the one drain are deeds of the other. -/
theorem begins (h : r.Matches flat rest p l d) : (r.mode false).Begins none (flat ++ rest) p l := by
  cases h with
  | dry _ _ h => exact (h.begins l).mpr (.inl List.prefix_rfl)
  | halted _ _ _ _ _ _ h => exact (h.begins l).mpr (.inl List.prefix_rfl)
  | failed _ _ _ _ _ _ h => exact h.begins_iff.mpr List.prefix_rfl

/-- What the drain without branches does before comes first. -/
theorem lead (h : (r.mode false).Leads (flat ++ rest) p l (flat' ++ rest) p')
    (hd : r.Matches flat' rest p' l' d) : r.Matches flat rest p (l ++ l') d := by
  cases hd with
  | dry ho hs h' => exact .dry ho hs (h.trans h')
  | halted why _ ho hf hne hh h' => exact .halted why _ ho hf hne hh (h.trans h')
  | failed e _ ho hf hne hh h' =>
      exact .failed e _ ho hf hne hh ((h.ends _ _).mpr ⟨l', rfl, h'⟩)

end Matches

/-- After a failure nothing is executed any more: an operator that fails other
than by cancellation faults the drain, and cancellation comes with a halt. -/
theorem halts?_fall {e : Failure} (hg : g.Candid) (hctx : ctx.graph = g)
    (hw : p.world.Has r.control) (he : r.execute ctx n p.world = (.error e, w)) :
    r.halts? (p.fall e w) ≠ none := by
  unfold halts? Progress.fall
  cases hc : e.isCancellation with
  | true =>
      have hhalt := (execute_sober hg hctx hw n).halts e
      rw [he] at hhalt
      have hhalt := hhalt rfl hc
      dsimp only
      cases hh : w.halt? r.control with
      | none => exact absurd hh hhalt
      | some why => nofun
  | false =>
      dsimp only
      cases w.halt? r.control with
      | none => simp
      | some why => nofun

theorem execute_has (hg : g.Candid) (hctx : ctx.graph = g) (hw : p.world.Has r.control)
    {answer : Except Failure (Option Operation)} (he : r.execute ctx n p.world = (answer, w)) :
    w.Has r.control := by
  have := (execute_sober hg hctx hw n).grows.has hw
  rwa [he] at this

/-! ## Branches after a halt -/

/-- Where a halt is due, every branch halts before its first operation. -/
theorem drainBranches_halted {fuel : Nat} {why : Halt} (h : r.halts? p = some why)
    (ops : List Operation) :
    drainBranches (fun op p => (r.mode b).drain (fuel + 1) none [op] p) ops p =
        some (ops.map fun op => ⟨.ended (some why), [op]⟩, p) ∧
      branchTurns (fun op p => (r.mode b).drain (fuel + 1) none [op] p)
        (fun op p => (r.mode b).turns (fuel + 1) none [op] p) ops p = [] := by
  induction ops with
  | nil => exact ⟨rfl, rfl⟩
  | cons op ops ih =>
      have hm : (r.mode b).move none op p = .halt why := mode_move_halt h
      rw [drainBranches, branchTurns, drain_halt hm, turns_halt hm]
      dsimp only
      rw [ih.1, ih.2]
      exact ⟨rfl, rfl⟩

theorem foldl_add_halted (why : Halt) (ops : List Operation) (j : Joined)
    (hj : j.outcome ≠ .ended none) :
    ((ops.map fun op => (⟨.ended (some why), [op]⟩ : BranchEnd)).foldl Joined.add j).outcome =
      j.outcome := by
  induction ops generalizing j with
  | nil => rfl
  | cons op ops ih =>
      have hadd : (j.add ⟨.ended (some why), [op]⟩).outcome = j.outcome := by
        obtain ⟨pending, halt, failure⟩ := j
        unfold Joined.add Joined.outcome
        cases failure with
        | some e => rfl
        | none =>
            cases halt with
            | some why' => rfl
            | none => exact absurd rfl hj
      rw [List.map_cons, List.foldl_cons, ih _ (by rw [hadd]; exact hj), hadd]

/-- A branch that has not run dry decides how it ends together with branches
that halt after it, and they are all put back. -/
theorem joinBranches_halted {o : Outcome} (ho : o ≠ .ended none) (hs : stack ≠ []) (why : Halt)
    (ops : List Operation) :
    (joinBranches (⟨o, stack⟩ :: ops.map fun op => ⟨.ended (some why), [op]⟩)).outcome = o ∧
      (joinBranches (⟨o, stack⟩ :: ops.map fun op => ⟨.ended (some why), [op]⟩)).pending =
        .sequence stack :: ops.map fun op => .sequence [op] := by
  constructor
  · have hfirst : (Joined.empty.add ⟨o, stack⟩).outcome = o := by
      unfold Joined.add Joined.outcome Joined.empty
      cases o with
      | ended halt => simp
      | failed e => rfl
    rw [joinBranches, List.foldl_cons, foldl_add_halted _ _ _ (by rw [hfirst]; exact ho), hfirst]
  · rw [joinBranches_pending, List.filterMap_cons]
    have hfirst : BranchEnd.remainder ⟨o, stack⟩ = some (.sequence stack) := by
      simp [BranchEnd.remainder, hs]
    rw [hfirst, List.filterMap_map]
    dsimp only
    rw [List.cons.injEq]
    refine ⟨rfl, ?_⟩
    induction ops with
    | nil => rfl
    | cons op ops ih => rw [List.filterMap_cons, List.map_cons, ← ih]; rfl

/-- A dry branch leaves no trace in the join. -/
theorem joinBranches_dry (ends : List BranchEnd) :
    joinBranches (⟨.ended none, []⟩ :: ends) = joinBranches ends := rfl

/-! ## The drain with branches -/

/-- The drain of a packed stack, with so much fuel and with branches, matches
the drain of the flat one on top of others, also as far as it goes if the fuel
does not last. -/
structure SideBySide (r : DrainSetting) (fuel : Nat) (folded flat rest : List Operation)
    (p : Progress) : Prop where
  done : ∀ d, (r.mode true).drain fuel none folded p = some d →
    r.Matches flat rest p (((r.mode true).turns fuel none folded p).map Turn.deed) d ∧
      d.progress.world.Has r.control
  going : (r.mode true).drain fuel none folded p = none →
    (r.mode false).Begins none (flat ++ rest) p
      (((r.mode true).turns fuel none folded p).map Turn.deed)

/-- What is to be shown of drains with so much fuel. -/
def FoldsWith (r : DrainSetting) (g : SharedGraph) (fuel : Nat) : Prop :=
  ∀ folded flat rest p, Folds folded flat → Operation.AllRunIn flat g → p.world.Has r.control →
    (r.mode false).Roomy (flat ++ rest) p → r.SideBySide fuel folded flat rest p

/-- Branches one after another, given that each of them is drained as it
should be. They match as a drain would that left what they leave. -/
theorem branches_fold {fuel : Nat} (hfuel : r.FoldsWith g fuel) (ops : List Operation) :
    ∀ {flat rest p}, Folds ops flat → Operation.AllRunIn flat g → p.world.Has r.control →
      (r.mode false).Roomy (flat ++ rest) p →
      (∀ ends p', drainBranches (fun op p => (r.mode true).drain fuel none [op] p) ops p =
          some (ends, p') →
        r.Matches flat rest p ((branchTurns (fun op p => (r.mode true).drain fuel none [op] p)
          (fun op p => (r.mode true).turns fuel none [op] p) ops p).map Turn.deed)
          ⟨(joinBranches ends).outcome, (joinBranches ends).pending, p'⟩ ∧
        p'.world.Has r.control) ∧
      (drainBranches (fun op p => (r.mode true).drain fuel none [op] p) ops p = none →
        (r.mode false).Begins none (flat ++ rest) p
          ((branchTurns (fun op p => (r.mode true).drain fuel none [op] p)
            (fun op p => (r.mode true).turns fuel none [op] p) ops p).map Turn.deed)) := by
  induction ops with
  | nil =>
      intro flat rest p hfold _ hw _
      obtain rfl := hfold.eq_nil_iff.mp rfl
      refine ⟨fun ends p' h => ?_, fun h => by cases h⟩
      cases h
      exact ⟨.dry rfl rfl .refl, hw⟩
  | cons op ops ih =>
      intro flat rest p hfold hrun hw hroom
      obtain ⟨part, flat', rfl, hone, hne, hothers⟩ := hfold.cons_inv
      rw [Operation.allRunIn_append] at hrun
      rw [List.append_assoc] at hroom ⊢
      have hbranch := hfuel [op] part (flat' ++ rest) p hone hrun.1 hw hroom
      rw [branchTurns, drainBranches]
      cases hd : (r.mode true).drain fuel none [op] p with
      | none =>
          refine ⟨fun _ _ h => (by cases h), fun _ => ?_⟩
          dsimp only
          rw [List.append_nil]
          exact hbranch.going hd
      | some d =>
          obtain ⟨hmatch, hw'⟩ := hbranch.done d hd
          dsimp only
          rw [List.map_append]
          -- What the branches after a halt do is nothing.
          have hlater : ∀ {why}, r.halts? d.progress = some why →
              drainBranches (fun op p => (r.mode true).drain fuel none [op] p) ops d.progress =
                  some (ops.map fun op => ⟨.ended (some why), [op]⟩, d.progress) ∧
                branchTurns (fun op p => (r.mode true).drain fuel none [op] p)
                  (fun op p => (r.mode true).turns fuel none [op] p) ops d.progress = [] := by
            intro why hwhy
            cases fuel with
            | zero => rw [drain_zero] at hd; cases hd
            | succ fuel => exact drainBranches_halted hwhy ops
          cases hmatch with
          -- A branch that runs dry leaves the flat stack where the next branch begins.
          | dry ho hs hleads =>
              have hrest := ih hothers hrun.2 hw' (hleads.roomy hroom)
              cases hb : drainBranches (fun op p => (r.mode true).drain fuel none [op] p) ops
                  d.progress with
              | none =>
                  refine ⟨fun _ _ h => (by cases h), fun _ => ?_⟩
                  exact (hleads.begins _).mpr (.inr ⟨_, rfl, hrest.2 hb⟩)
              | some x =>
                  obtain ⟨ends, p'⟩ := x
                  refine ⟨fun ends' p'' h => ?_, fun h => by cases h⟩
                  cases h
                  rw [ho, hs, joinBranches_dry]
                  rw [← List.append_assoc] at hleads
                  exact ⟨.lead hleads (hrest.1 ends p' hb).1, (hrest.1 ends p' hb).2⟩
          -- After a halt, what is put back is what the branch has left and the others
          -- untouched.
          | halted why part' ho hf hne' hh hleads =>
              rw [(hlater hh).1, (hlater hh).2, List.map_nil, List.append_nil]
              refine ⟨fun ends' p'' h => ?_, fun h => by cases h⟩
              cases h
              have hstack : d.stack ≠ [] := fun h => hne' (hf.eq_nil_iff.mp h)
              have hjoin := joinBranches_halted (o := d.outcome) (by rw [ho]; simp) hstack why ops
              refine ⟨.halted why (part' ++ flat') (hjoin.1.trans ho) ?_ (by simp [hne']) hh ?_, hw'⟩
              · rw [hjoin.2]
                exact .sequence hf hne' hothers.map_sequence
              · rw [List.append_assoc, List.append_assoc]
                exact hleads
          | failed e part' ho hf hne' hh hends =>
              obtain ⟨why, hwhy⟩ := Option.ne_none_iff_exists'.mp hh
              rw [(hlater hwhy).1, (hlater hwhy).2, List.map_nil, List.append_nil]
              refine ⟨fun ends' p'' h => ?_, fun h => by cases h⟩
              cases h
              have hstack : d.stack ≠ [] := fun h => hne' (hf.eq_nil_iff.mp h)
              have hjoin := joinBranches_halted (o := d.outcome) (by rw [ho]; simp) hstack why ops
              refine ⟨.failed e (part' ++ flat') (hjoin.1.trans ho) ?_ (by simp [hne']) hh ?_, hw'⟩
              · rw [hjoin.2]
                exact .sequence hf hne' hothers.map_sequence
              · rw [List.append_assoc, List.append_assoc]
                exact hends

/-- What an unpacked collection leaves to be drained. -/
theorem folds_unpack {fuel : Nat} {part flat' : List Operation} (hfuel : r.FoldsWith g fuel)
    (hm : (r.mode true).move none op p = .unpack ops)
    (hleads : (r.mode false).Leads (flat' ++ rest) p [] (part ++ (flat ++ rest)) p)
    (hops : Folds ops part) (hfold : Folds folded flat) (hpart : Operation.AllRunIn part g)
    (hrun : Operation.AllRunIn flat g) (hw : p.world.Has r.control)
    (hroom : (r.mode false).Roomy (flat' ++ rest) p) :
    r.SideBySide (fuel + 1) (op :: folded) flat' rest p := by
  rw [← List.append_assoc] at hleads
  have := hfuel (ops ++ folded) (part ++ flat) rest p (hops.append hfold)
    (Operation.allRunIn_append.mpr ⟨hpart, hrun⟩) hw (hleads.roomy hroom)
  constructor
  · rw [drain_unpack hm, turns_unpack hm]
    exact fun d hd => ⟨.lead hleads (this.done d hd).1, (this.done d hd).2⟩
  · rw [drain_unpack hm, turns_unpack hm]
    exact fun hd => (hleads.begins _).mpr (.inr ⟨_, rfl, this.going hd⟩)

/-- What branches of a collection on top of a stack leave to be drained. -/
theorem folds_split {fuel : Nat} {part flat' : List Operation} (hfuel : r.FoldsWith g fuel)
    (hm : (r.mode true).move none op p = .split ops)
    (hleads : (r.mode false).Leads (flat' ++ rest) p [] (part ++ (flat ++ rest)) p)
    (hops : Folds ops part) (hfold : Folds folded flat) (hpart : Operation.AllRunIn part g)
    (hrun : Operation.AllRunIn flat g) (hw : p.world.Has r.control)
    (hroom : (r.mode false).Roomy (flat' ++ rest) p) :
    r.SideBySide (fuel + 1) (op :: folded) flat' rest p := by
  have hbranches := branches_fold hfuel ops hops hpart hw (hleads.roomy hroom)
  cases hb : drainBranches (fun op p => (r.mode true).drain fuel none [op] p) ops p with
  | none =>
      refine ⟨fun d hd => ?_, fun _ => ?_⟩
      · rw [(drain_split_none hm hb).1] at hd
        cases hd
      · rw [(drain_split_none hm hb).2]
        exact (hleads.begins _).mpr (.inr ⟨_, rfl, hbranches.2 hb⟩)
  | some x =>
      obtain ⟨ends, p'⟩ := x
      obtain ⟨hmatch, hw'⟩ := hbranches.1 ends p' hb
      cases hmatch with
      -- The drain goes on below, on both stacks.
      | dry ho hs hdry =>
          have ho : (joinBranches ends).outcome = .ended none := ho
          have hleads' := hleads.trans hdry
          have := hfuel folded flat rest p' hfold hrun hw' (hleads'.roomy hroom)
          constructor
          · rw [(drain_split_go hm hb ho).1, (drain_split_go hm hb ho).2, stackOn_of_dry hb ho,
              List.map_append]
            exact fun d hd => ⟨.lead hleads' (this.done d hd).1, (this.done d hd).2⟩
          · rw [(drain_split_go hm hb ho).1, (drain_split_go hm hb ho).2, stackOn_of_dry hb ho,
              List.map_append]
            exact fun hd => (hleads'.begins _).mpr (.inr ⟨_, rfl, this.going hd⟩)
      -- The drain ends with what has been put back on top of the stack below.
      | halted why part' ho hf hne hh hhalt =>
          have ho : (joinBranches ends).outcome = .ended (some why) := ho
          have hpending := Joined.stackOn_cons (fun h => hne (hf.eq_nil_iff.mp h)) folded
          have ho' : (joinBranches ends).outcome ≠ .ended none := by rw [ho]; simp
          refine ⟨fun d hd => ?_, fun hd => by rw [(drain_split_end hm hb ho').1] at hd; cases hd⟩
          rw [(drain_split_end hm hb ho').1, hpending] at hd
          rw [(drain_split_end hm hb ho').2]
          cases hd
          refine ⟨.halted why (part' ++ flat) ho (.parallel hf hne hfold) (by simp [hne]) hh ?_, hw'⟩
          rw [List.append_assoc]
          exact hleads.trans hhalt
      | failed e part' ho hf hne hh hends =>
          have ho : (joinBranches ends).outcome = .failed e := ho
          have hpending := Joined.stackOn_cons (fun h => hne (hf.eq_nil_iff.mp h)) folded
          have ho' : (joinBranches ends).outcome ≠ .ended none := by rw [ho]; simp
          refine ⟨fun d hd => ?_, fun hd => by rw [(drain_split_end hm hb ho').1] at hd; cases hd⟩
          rw [(drain_split_end hm hb ho').1, hpending] at hd
          rw [(drain_split_end hm hb ho').2]
          cases hd
          refine ⟨.failed e (part' ++ flat) ho (.parallel hf hne hfold) (by simp [hne]) hh ?_, hw'⟩
          rw [List.append_assoc]
          exact (hleads.ends _ _).mpr ⟨_, rfl, hends⟩

/-- What an operator on top of both stacks leaves to be drained. -/
theorem folds_perform {fuel : Nat} (hg : g.Candid) (hfuel : r.FoldsWith g fuel)
    (hhalt : r.halts? p = none) (hctx : ctx.graph = g) (hfold : Folds folded flat)
    (hrun : Operation.AllRunIn flat g) (hw : p.world.Has r.control)
    (hroom : (r.mode false).Roomy (.atomic ctx :: flat ++ rest) p) :
    r.SideBySide (fuel + 1) (.atomic ctx :: folded) (.atomic ctx :: flat) rest p := by
  have hm : (r.mode true).move none (.atomic ctx) p = .perform ctx := mode_move_atomic hhalt
  have hm' : (r.mode false).move none (.atomic ctx) p = .perform ctx := mode_move_atomic hhalt
  rw [List.cons_append] at hroom
  have hle := hroom.le_bound hm'
  change (flat ++ rest).length + 1 ≤ r.config.maxStackDepth at hle
  have hshort := hfold.length_le
  -- Both stacks are within the bound, so the execution is the same on both.
  have hexec : r.execute ctx (flat ++ rest).length = r.execute ctx folded.length := by
    refine execute_of_le ctx hle ?_
    rw [List.length_append] at hle
    omega
  rcases he : r.execute ctx folded.length p.world with ⟨e | next, w⟩
  · have he' : (r.mode true).execute ctx folded.length p.world = (.error e, w) := he
    have hflat : (r.mode false).execute ctx (flat ++ rest).length p.world = (.error e, w) := by
      rw [mode_execute, hexec, he]
    constructor
    · intro d hd
      rw [drain_cons, hm] at hd
      rw [turns, hm]
      dsimp only at hd ⊢
      rw [he'] at hd
      rw [he']
      cases hd
      refine ⟨.failed e (.atomic ctx :: flat) rfl (.cons _ hfold) (by simp)
        (halts?_fall hg hctx hw he) ?_, execute_has hg hctx hw he⟩
      exact (ends_error hm' hflat).mpr ⟨rfl, rfl⟩
    · intro hd
      rw [drain_cons, hm] at hd
      dsimp only at hd
      rw [he'] at hd
      cases hd
  · have he' : (r.mode true).execute ctx folded.length p.world = (.ok next, w) := he
    have hflat : (r.mode false).execute ctx (flat ++ rest).length p.world = (.ok next, w) := by
      rw [mode_execute, hexec, he]
    have hnext : Operation.AllRunIn next.toList g := hctx ▸ execute_answers he
    have hroom' := hroom.perform hm' hflat
    rw [← List.append_assoc] at hroom'
    have := hfuel (next.toList ++ folded) (next.toList ++ flat) rest (p.advance w)
      ((Folds.refl _).append hfold) (Operation.allRunIn_append.mpr ⟨hnext, hrun⟩)
      (execute_has hg hctx hw he) hroom'
    have hleads : (r.mode false).Leads (.atomic ctx :: flat ++ rest) p [(ctx, p.advance w)]
        ((next.toList ++ flat) ++ rest) (p.advance w) := by
      rw [List.append_assoc]
      exact .perform hm' hflat .refl
    constructor
    · intro d hd
      rw [drain_cons, hm] at hd
      rw [turns, hm]
      dsimp only [spend] at hd ⊢
      rw [he'] at hd
      rw [he']
      exact ⟨.lead hleads (this.done d hd).1, (this.done d hd).2⟩
    · intro hd
      rw [drain_cons, hm] at hd
      rw [turns, hm]
      dsimp only [spend] at hd ⊢
      rw [he'] at hd
      rw [he']
      exact (hleads.begins _).mpr (.inr ⟨_, rfl, this.going hd⟩)

/-- A drain with branches on stacks of their own matches the one without. By
induction on the fuel; the cases are those of the operation on top of the
packed stack. -/
theorem drain_folds (hg : g.Candid) (r : DrainSetting) (fuel : Nat) : r.FoldsWith g fuel := by
  induction fuel with
  | zero =>
      intro folded flat rest p _ _ _ _
      refine ⟨fun d hd => ?_, fun _ => ?_⟩
      · rw [drain_zero] at hd
        cases hd
      · rw [turns_zero]
        exact .nil
  | succ fuel ih =>
      intro folded flat rest p hfold hrun hw hroom
      cases folded with
      | nil =>
          obtain rfl := hfold.eq_nil_iff.mp rfl
          refine ⟨fun d hd => ?_, fun hd => by rw [drain_nil] at hd; cases hd⟩
          rw [drain_nil, Option.some.injEq] at hd
          subst hd
          exact ⟨.dry rfl rfl .refl, hw⟩
      | cons op folded =>
          cases hhalt : r.halts? p with
          | some why =>
              have hm : (r.mode true).move none op p = .halt why := mode_move_halt hhalt
              refine ⟨fun d hd => ?_, fun hd => by rw [drain_halt hm] at hd; cases hd⟩
              rw [drain_halt hm, Option.some.injEq] at hd
              rw [turns_halt hm]
              subst hd
              refine ⟨.halted why flat rfl hfold ?_ hhalt .refl, hw⟩
              exact fun h => by simpa using hfold.eq_nil_iff.mpr h
          | none =>
              cases hfold with
              -- The operation on top is the same on both stacks.
              | @cons _ flat _ hfold =>
                  rw [Operation.allRunIn_cons] at hrun
                  cases op with
                  | atomic ctx =>
                      exact folds_perform hg ih hhalt (Operation.runsIn_atomic.mp hrun.1) hfold
                        hrun.2 hw hroom
                  | sequence ops =>
                      exact folds_unpack ih (mode_move_sequence hhalt)
                        (.unpack (mode_move_sequence hhalt) .refl) (.refl ops) hfold hrun.1 hrun.2
                        hw hroom
                  | parallel ops =>
                      have hleads : (r.mode false).Leads (.parallel ops :: flat ++ rest) p []
                          (ops ++ (flat ++ rest)) p := .unpack (mode_move_unpack hhalt) .refl
                      rcases mode_move_parallel hhalt none with hm | hm
                      · exact folds_split ih hm hleads (.refl ops) hfold hrun.1 hrun.2 hw hroom
                      · exact folds_unpack ih hm hleads (.refl ops) hfold hrun.1 hrun.2 hw hroom
              -- A collection that is there on the packed stack only: the flat one has nothing
              -- to do.
              | @sequence ops part _ flat hops hne hfold =>
                  rw [Operation.allRunIn_append] at hrun
                  have hleads : (r.mode false).Leads (part ++ flat ++ rest) p []
                      (part ++ (flat ++ rest)) p := by
                    rw [List.append_assoc]
                    exact .refl
                  exact folds_unpack ih (mode_move_sequence hhalt) hleads hops hfold hrun.1 hrun.2
                    hw hroom
              | @parallel ops part _ flat hops hne hfold =>
                  rw [Operation.allRunIn_append] at hrun
                  have hleads : (r.mode false).Leads (part ++ flat ++ rest) p []
                      (part ++ (flat ++ rest)) p := by
                    rw [List.append_assoc]
                    exact .refl
                  rcases mode_move_parallel hhalt none with hm | hm
                  · exact folds_split ih hm hleads hops hfold hrun.1 hrun.2 hw hroom
                  · exact folds_unpack ih hm hleads hops hfold hrun.1 hrun.2 hw hroom

/-! ## Both ways -/

/-- Two ends that are alike but for the packing of what is left. -/
structure Akin (d d' : Drained) : Prop where
  outcome : d.outcome = d'.outcome
  progress : d.progress = d'.progress
  stack : Folds d.stack d'.stack

/-- Two beginnings of one drain are comparable. -/
theorem Begins.comparable (h : r.Begins budget stack p l) (h' : r.Begins budget stack p l') :
    l <+: l' ∨ l' <+: l := by
  obtain ⟨fuel, h⟩ := h
  obtain ⟨fuel', h'⟩ := h'
  exact List.prefix_or_prefix_of_prefix
    (h.trans ((turns_mono (Nat.le_max_left fuel fuel')).map _))
    (h'.trans ((turns_mono (Nat.le_max_right fuel fuel')).map _))

section

variable (hg : g.Candid) (hfold : Folds folded flat) (hrun : Operation.AllRunIn flat g)
  (hw : p.world.Has r.control) (hroom : (r.mode false).Roomy flat p)
include hg hfold hrun hw hroom

theorem folds_sideBySide (fuel : Nat) : r.SideBySide fuel folded flat [] p :=
  drain_folds hg r fuel folded flat [] p hfold hrun hw (by rw [List.append_nil]; exact hroom)

/-- Where the drain with branches ends, so does the one without. -/
theorem folds_ends (h : (r.mode true).Ends none folded p l d) :
    ∃ d', (r.mode false).Ends none flat p l d' ∧ Akin d d' := by
  obtain ⟨fuel, hd, rfl⟩ := h
  have hmatch := ((folds_sideBySide hg hfold hrun hw hroom fuel).done d hd).1
  generalize ((r.mode true).turns fuel none folded p).map Turn.deed = l at hmatch
  cases hmatch with
  | dry ho hs h =>
      rw [List.append_nil] at h
      refine ⟨⟨.ended none, [], d.progress⟩, ?_, ho, rfl, by rw [hs]; exact .nil⟩
      exact (h.ends _ _).mpr ⟨[], (List.append_nil l).symm, ends_nil.mpr ⟨rfl, rfl⟩⟩
  | halted why flat' ho hf hne hh h =>
      rw [List.append_nil, List.append_nil] at h
      refine ⟨⟨.ended (some why), flat', d.progress⟩, ?_, ho, rfl, hf⟩
      obtain ⟨op, rest, rfl⟩ := List.exists_cons_of_ne_nil hne
      exact (h.ends _ _).mpr ⟨[], (List.append_nil l).symm,
        (ends_halt (mode_move_halt hh)).mpr ⟨rfl, rfl⟩⟩
  | failed e flat' ho hf hne hh h =>
      rw [List.append_nil, List.append_nil] at h
      exact ⟨⟨.failed e, flat', d.progress⟩, h, ho, rfl, hf⟩

/-- The turns of the drain with branches are turns of the one without. -/
theorem folds_begins (fuel : Nat) : (r.mode false).Begins none flat p
    (((r.mode true).turns fuel none folded p).map Turn.deed) := by
  have hside := folds_sideBySide hg hfold hrun hw hroom fuel
  rw [← List.append_nil flat]
  cases hd : (r.mode true).drain fuel none folded p with
  | none => exact hside.going hd
  | some d => exact (hside.done d hd).1.begins

/-- Where the drain without branches ends, so does the one with branches: it
has no more turns. -/
theorem folds_ends_of {d' : Drained} (h : (r.mode false).Ends none flat p l d') :
    ∃ d, (r.mode true).Ends none folded p l d ∧ Akin d d' := by
  have hbound : (r.mode true).Bounded l.length none folded p := by
    intro fuel
    have := ((h.begins_iff).mp (folds_begins hg hfold hrun hw hroom fuel)).length_le
    rwa [List.length_map] at this
  obtain ⟨fuel, d, hd⟩ := ends_of_bounded _ _ _ _ _ hbound
  have hends : (r.mode true).Ends none folded p _ d := ⟨fuel, hd, rfl⟩
  obtain ⟨d'', hends', hakin⟩ := folds_ends hg hfold hrun hw hroom hends
  obtain ⟨rfl, rfl⟩ := h.unique hends'
  exact ⟨d, hends, hakin⟩

/-- The two drains begin with the same deeds, whether or not they end. -/
theorem folds_begins_iff : (r.mode true).Begins none folded p l ↔
    (r.mode false).Begins none flat p l := by
  constructor
  · rintro ⟨fuel, h⟩
    obtain ⟨fuel', h'⟩ := folds_begins hg hfold hrun hw hroom fuel
    exact ⟨fuel', h.trans h'⟩
  · intro h
    by_cases hbound : (r.mode true).Bounded l.length none folded p
    · obtain ⟨fuel, d, hd⟩ := ends_of_bounded _ _ _ _ _ hbound
      have hends : (r.mode true).Ends none folded p _ d := ⟨fuel, hd, rfl⟩
      obtain ⟨d', hends', -⟩ := folds_ends hg hfold hrun hw hroom hends
      exact hends.begins_iff.mpr (hends'.begins_iff.mp h)
    · -- It has more turns than these, and they are the same.
      obtain ⟨fuel, hlong⟩ := Classical.not_forall.mp hbound
      refine ⟨fuel, ?_⟩
      rcases h.comparable (folds_begins hg hfold hrun hw hroom fuel) with h' | h'
      · exact h'
      · have := h'.length_le
        rw [List.length_map] at this
        omega

end

end DrainSetting

end ScopeFlow
