import ScopeFlow.Proofs.Likeness.Work

/-!
# Drains on both sides

Drains of stacks that are alike, under the same configuration and the same
requests, go in step: with the same fuel both end or neither does, with the
same outcome and stacks that are alike (`drain_alike`). Each side changes only
what its own stack reaches.
-/

namespace ScopeFlow

/-- The frame of a run: in the heap only what the renaming reaches has changed,
apart from what is new, and no request has been made or taken back. -/
structure World.Frame (ρ ρ' : Renaming) (w w' : World) : Prop where
  heap : Confined ρ ρ' w.heap w'.heap
  requests : w.SameRequests w'

theorem World.Frame.refl {ρ : Renaming} {w : World} : World.Frame ρ ρ w w := ⟨.refl, .refl⟩

theorem World.Frame.trans {ρ ρ' ρ'' : Renaming} {w w' w'' : World} (h : World.Frame ρ ρ' w w')
    (h' : World.Frame ρ' ρ'' w' w'') : World.Frame ρ ρ'' w w'' :=
  ⟨h.heap.trans h'.heap, h.requests.trans h'.requests⟩

/-- Worlds that hold the same, in which the same requests have been made to two
controls. -/
structure World.Alike (ρ : Renaming) (a b : ControlId) (w w' : World) : Prop where
  heap : Agree ρ w.heap w'.heap
  pause : (w.control a).pause = (w'.control b).pause
  stop : (w.control a).stop = (w'.control b).stop
  abort : (w.control a).abort = (w'.control b).abort
  cancelled : w.isCancelled (w.token a) = w'.isCancelled (w'.token b)

theorem World.Alike.halt? {ρ : Renaming} {a b : ControlId} {w w' : World}
    (h : w.Alike ρ a b w') : w.halt? a = w'.halt? b := by
  have hcancelled := h.cancelled
  unfold World.token at hcancelled
  unfold World.halt?
  dsimp only
  rw [h.abort, h.stop, h.pause, hcancelled]

/-- Drains that have come equally far. -/
structure Progress.Alike (ρ : Renaming) (a b : ControlId) (p p' : Progress) : Prop where
  world : p.world.Alike ρ a b p'.world
  executed : p.executed = p'.executed
  fault : p.fault = p'.fault

/-- Drains that end alike, where the second one began at `w`. -/
def Drained.Alike (ρ : Renaming) (a b : ControlId) (w : World) (d d' : Drained) : Prop :=
  ∃ ρ', World.Frame ρ ρ' w d'.progress.world ∧ d.outcome = d'.outcome ∧
    Operation.AllAlike ρ' d.stack d'.stack ∧ d.progress.Alike ρ' a b d'.progress

theorem Drained.Alike.after {ρ ρ' : Renaming} {a b : ControlId} {w w' : World} {d d' : Drained}
    (h : World.Frame ρ ρ' w w') (hd : d.Alike ρ' a b w' d') : d.Alike ρ a b w d' := by
  obtain ⟨ρ'', hframe, hrest⟩ := hd
  exact ⟨ρ'', h.trans hframe, hrest⟩

/-- Branches that end alike. -/
structure BranchEnd.Alike (ρ : Renaming) (b b' : BranchEnd) : Prop where
  outcome : b.outcome = b'.outcome
  stack : Operation.AllAlike ρ b.stack b'.stack

/-- Joined branches with the same outcome that leave the same. -/
structure Joined.Alike (ρ : Renaming) (j j' : Joined) : Prop where
  pending : Operation.AllAlike ρ j.pending j'.pending
  halt : j.halt = j'.halt
  failure : j.failure = j'.failure

theorem Joined.Alike.add {ρ : Renaming} {j j' : Joined} {b b' : BranchEnd} (hj : j.Alike ρ j')
    (hb : b.Alike ρ b') : (j.add b).Alike ρ (j'.add b') := by
  have hempty : b.stack.isEmpty = b'.stack.isEmpty := by
    have hstack := hb.stack
    generalize b.stack = s at hstack ⊢
    generalize b'.stack = s' at hstack ⊢
    cases hstack <;> rfl
  have hpending : Operation.AllAlike ρ
      (if b.stack.isEmpty then j.pending else j.pending ++ [.sequence b.stack])
      (if b'.stack.isEmpty then j'.pending else j'.pending ++ [.sequence b'.stack]) := by
    rw [hempty]
    split
    · exact hj.pending
    · exact List.rel_append hj.pending (.cons (.sequence hb.stack) .nil)
  unfold Joined.add
  rw [hb.outcome, hj.failure, hj.halt]
  cases b'.outcome with
  | ended halt => exact ⟨hpending, rfl, rfl⟩
  | failed e =>
      dsimp only
      cases j'.failure with
      | none => exact ⟨hpending, rfl, rfl⟩
      | some e' => exact ⟨hpending, rfl, rfl⟩

theorem joinBranches_alike {ρ : Renaming} {ends ends' : List BranchEnd}
    (h : List.Forall₂ (BranchEnd.Alike ρ) ends ends') :
    (joinBranches ends).Alike ρ (joinBranches ends') := by
  have hfold : ∀ {j j' : Joined}, j.Alike ρ j' →
      (ends.foldl Joined.add j).Alike ρ (ends'.foldl Joined.add j') := by
    induction h with
    | nil => exact fun hj => hj
    | cons hb _ ih => exact fun hj => ih (hj.add hb)
  exact hfold ⟨.nil, rfl, rfl⟩

theorem Joined.Alike.outcome {ρ : Renaming} {j j' : Joined} (h : j.Alike ρ j') :
    j.outcome = j'.outcome := by
  unfold Joined.outcome
  rw [h.failure, h.halt]

theorem Joined.Alike.stackOn {ρ : Renaming} {j j' : Joined} {rest rest' : List Operation}
    (h : j.Alike ρ j') (hrest : Operation.AllAlike ρ rest rest') :
    Operation.AllAlike ρ (j.stackOn rest) (j'.stackOn rest') :=
  List.rel_append (Operation.toList_alike (Operation.inParallel_alike h.pending)) hrest

/-- Moves that do the same. -/
inductive Move.Alike (ρ : Renaming) : Move → Move → Prop
  | halt (why : Halt) : Alike ρ (.halt why) (.halt why)
  | unpack {ops ops' : List Operation} :
      Operation.AllAlike ρ ops ops' → Alike ρ (.unpack ops) (.unpack ops')
  | split {ops ops' : List Operation} :
      Operation.AllAlike ρ ops ops' → Alike ρ (.split ops) (.split ops')
  | perform {c d : Context} : ρ.contexts c d → Alike ρ (.perform c) (.perform d)

/-- What the branches of two drains come to. -/
def BranchesAlike (ρ : Renaming) (a b : ControlId) (w : World)
    (x y : List BranchEnd × Progress) : Prop :=
  ∃ ρ', World.Frame ρ ρ' w y.2.world ∧ List.Forall₂ (BranchEnd.Alike ρ') x.1 y.1 ∧
    x.2.Alike ρ' a b y.2

theorem drainBranches_alike {a b : ControlId} {run run' : Operation → Progress → Option Drained}
    (hrun : ∀ {ρ op op' p p'}, op.Alike ρ op' → p.Alike ρ a b p' →
      Option.Rel (Drained.Alike ρ a b p'.world) (run op p) (run' op' p')) (ops : List Operation) :
    ∀ {ρ ops' p p'}, Operation.AllAlike ρ ops ops' → p.Alike ρ a b p' →
      Option.Rel (BranchesAlike ρ a b p'.world) (drainBranches run ops p)
        (drainBranches run' ops' p') := by
  induction ops with
  | nil =>
      intro ρ ops' p p' h hp
      cases h
      exact .some ⟨ρ, .refl, .nil, hp⟩
  | cons op ops ih =>
      intro ρ ops' p p' h hp
      cases h with
      | @cons _ op' _ ops' hop hops =>
          have hone := hrun hop hp
          rw [drainBranches, drainBranches]
          generalize run op p = x at hone ⊢
          generalize run' op' p' = y at hone ⊢
          cases hone with
          | none => exact .none
          | @some d d' hd =>
              obtain ⟨ρ', hframe, hout, hstack, hp'⟩ := hd
              have hrest := ih (Operation.AllAlike.mono hframe.heap.within hops) hp'
              dsimp only
              generalize drainBranches run ops d.progress = x at hrest ⊢
              generalize drainBranches run' ops' d'.progress = y at hrest ⊢
              cases hrest with
              | none => exact .none
              | some hrest =>
                  obtain ⟨ρ'', hframe', hends, hp''⟩ := hrest
                  refine .some ⟨ρ'', hframe.trans hframe', .cons ⟨hout, ?_⟩ hends, hp''⟩
                  exact Operation.AllAlike.mono hframe'.heap.within hstack

namespace DrainSetting

variable {ρ : Renaming} {r r' : DrainSetting}

theorem halts?_alike {p p' : Progress} (h : p.Alike ρ r.control r'.control p') :
    r.halts? p = r'.halts? p' :=
  halts?_congr h.world.halt? h.fault

/-- Operations that are alike are taken up alike where the same halts. -/
theorem move_alike_of_halts (hconfig : r.config = r'.config) {op op' : Operation}
    {p p' : Progress} (hop : op.Alike ρ op') (hhalts : r.halts? p = r'.halts? p')
    (budget : Option Nat) : (r.move budget op p).Alike ρ (r'.move budget op' p') := by
  unfold move
  rw [hhalts]
  cases r'.halts? p' with
  | some why => exact .halt why
  | none =>
      cases hop with
      | atomic hcd => exact .perform hcd
      | sequence hops => exact .unpack hops
      | @parallel ops ops' hops =>
          have hsep : r.separates budget ops = r'.separates budget ops' := by
            unfold separates
            rw [hconfig, hops.length_eq]
          dsimp only
          rw [hsep]
          split
          · exact .split hops
          · exact .unpack hops

theorem move_alike (hconfig : r.config = r'.config) {op op' : Operation} {p p' : Progress}
    (hop : op.Alike ρ op') (hp : p.Alike ρ r.control r'.control p') (budget : Option Nat) :
    (r.move budget op p).Alike ρ (r'.move budget op' p') :=
  move_alike_of_halts hconfig hop (halts?_alike hp) budget

/-- Executions in corresponding contexts mirror each other. -/
theorem execute_alike (hconfig : r.config = r'.config) {c d : Context} {w w' : World}
    (hcd : ρ.contexts c d) (hw : w.Alike ρ r.control r'.control w') (pending : Nat) :
    ∃ ρ', World.Frame ρ ρ' w' (r'.execute d pending w').2 ∧
      (r.execute c pending w).2.Alike ρ' r.control r'.control (r'.execute d pending w').2 ∧
      ScopeFlow.Answers (Option.Rel (Operation.Alike ρ')) (r.execute c pending w).1
        (r'.execute d pending w').1 := by
  have ha := hw.heap
  have hsame : ∀ e : Failure, ∃ ρ', World.Frame ρ ρ' w' w' ∧ w.Alike ρ' r.control r'.control w' ∧
      ScopeFlow.Answers (Option.Rel (Operation.Alike ρ')) (.error e) (.error e) :=
    fun e => ⟨ρ, .refl, hw, .error e⟩
  by_cases hstack : pending + 1 > r.config.maxStackDepth
  · rw [execute_stack hstack, execute_stack (hconfig ▸ hstack), ha.operatorName_eq hcd, hconfig]
    exact hsame _
  · by_cases hdepth : c.depth > r.config.maxContextDepth
    · rw [execute_depth hstack hdepth, execute_depth (hconfig ▸ hstack)
        (ha.depth_eq hcd ▸ hconfig ▸ hdepth), ha.operatorName_eq hcd, hconfig]
      exact hsame _
    · rw [execute_within hstack hdepth, execute_within (hconfig ▸ hstack)
        (ha.depth_eq hcd ▸ hconfig ▸ hdepth)]
      rw [Context.execute, Context.execute, Act.bind_apply, Act.bind_apply, Act.ofExcept_apply,
        Act.ofExcept_apply]
      have hop := ha.operator_alike hcd
      obtain ⟨-, -, hsilent, hgraph⟩ := ha.graph (ha.context_graph hcd)
      rcases hc : c.operator with e | op
      · rw [hc] at hop
        generalize d.operator = y at hop ⊢
        cases hop
        exact hsame e
      · rw [hc] at hop
        rcases hd : d.operator with e | op'
        · rw [hd] at hop
          cases hop
        · rw [hd] at hop
          cases hop with
          | ok hop =>
              dsimp only
              rw [Operator.execute_silent (hsilent op (c.operator_mem hc rfl)),
                Operator.execute_silent (hgraph.silent hsilent op' (d.operator_mem hd rfl)),
                World.onHeap_apply, World.onHeap_apply, hw.cancelled]
              obtain ⟨ρ', hconf, ha', hanswer⟩ :=
                Operator.effect_mirrors hcd hop _ w.heap w'.heap ha
              exact ⟨ρ', ⟨hconf, rfl, rfl⟩, { hw with heap := ha' }, hanswer⟩

theorem drain_alike (hconfig : r.config = r'.config) (fuel : Nat) :
    ∀ {ρ budget stack stack' p p'}, Operation.AllAlike ρ stack stack' →
      p.Alike ρ r.control r'.control p' →
      Option.Rel (Drained.Alike ρ r.control r'.control p'.world) (r.drain fuel budget stack p)
        (r'.drain fuel budget stack' p') := by
  induction fuel with
  | zero =>
      intro ρ budget stack stack' p p' _ _
      rw [drain_zero, drain_zero]
      exact .none
  | succ fuel ih =>
      intro ρ budget stack stack' p p' hstack hp
      cases hstack with
      | nil =>
          rw [drain_nil, drain_nil]
          exact .some ⟨ρ, .refl, rfl, .nil, hp⟩
      | @cons op op' rest rest' hop hrest =>
          -- Both do the same to what is on top; the renaming has grown by the time they go on.
          have hmove := move_alike hconfig hop hp budget
          rw [drain_cons, drain_cons]
          generalize r.move budget op p = m at hmove ⊢
          generalize r'.move budget op' p' = m' at hmove ⊢
          cases hmove with
          | halt why => exact .some ⟨ρ, .refl, rfl, .cons hop hrest, hp⟩
          | unpack hops => exact ih (List.rel_append hops hrest) hp
          | @split ops ops' hops =>
              have hbranches : Option.Rel (BranchesAlike ρ r.control r'.control p'.world)
                  (drainBranches (fun op p => r.drain fuel none [op] p) ops p)
                  (drainBranches (fun op p => r'.drain fuel none [op] p) ops' p') :=
                drainBranches_alike (fun hop hp => ih (.cons hop .nil) hp) ops hops hp
              dsimp only
              generalize drainBranches (fun op p => r.drain fuel none [op] p) ops p = x
                at hbranches ⊢
              generalize drainBranches (fun op p => r'.drain fuel none [op] p) ops' p' = y
                at hbranches ⊢
              cases hbranches with
              | none => exact .none
              | @some x y hxy =>
                  obtain ⟨ends, q⟩ := x
                  obtain ⟨ends', q'⟩ := y
                  obtain ⟨ρ', hframe, hends, hq⟩ := hxy
                  have hjoined := joinBranches_alike hends
                  have hstack := hjoined.stackOn (Operation.AllAlike.mono hframe.heap.within hrest)
                  dsimp only
                  rw [hjoined.outcome]
                  rcases (joinBranches ends').outcome with (_ | why) | e
                  · exact rel_imp (Drained.Alike.after hframe) (ih hstack hq)
                  · exact .some ⟨ρ', hframe, rfl, hstack, hq⟩
                  · exact .some ⟨ρ', hframe, rfl, hstack, hq⟩
          | @perform c d hcd =>
              obtain ⟨ρ', hframe, hw, hanswer⟩ := execute_alike hconfig hcd hp.world rest.length
              have hrest' := Operation.AllAlike.mono hframe.heap.within hrest
              dsimp only
              rw [← hrest.length_eq]
              generalize r.execute c rest.length p.world = x at hw hanswer ⊢
              generalize r'.execute d rest.length p'.world = y at hframe hw hanswer ⊢
              obtain ⟨x, w⟩ := x
              obtain ⟨y, w'⟩ := y
              cases hanswer with
              | error e =>
                  refine .some ⟨ρ', hframe, rfl,
                    .cons (.atomic (hframe.heap.within.contexts hcd)) hrest', hw, hp.executed, ?_⟩
                  show (p.fault || _) = (p'.fault || _)
                  rw [hp.fault]
              | @ok next next' hnext =>
                  have hstack := List.rel_append (Operation.toList_alike hnext) hrest'
                  have hadv : (p.advance w).Alike ρ' r.control r'.control (p'.advance w') :=
                    ⟨hw, congrArg (· + 1) hp.executed, hp.fault⟩
                  dsimp only
                  cases spend budget with
                  | none => exact .some ⟨ρ', hframe, rfl, hstack, hadv⟩
                  | some budget => exact rel_imp (Drained.Alike.after hframe) (ih hstack hadv)

end DrainSetting

end ScopeFlow
