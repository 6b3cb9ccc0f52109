import ScopeFlow.Proofs.Drain.Rules

/-!
# The stack below

What lies below on the stack has no part in a drain until everything above it
is done: the drain of an operation on top of a stack is the drain of the
operation alone and then, if nothing is left of it, the drain of the stack.
The one thing that looks at the whole stack is the bound on its size, so this
holds of drains that do not run into it (`Roomy`).

* `frame`: by induction on the fuel of the drain above, case by case of its
  moves; whether there is room depends on the height of what is below alone;
* `drain_on_stack`: a drain as one operation after another, each finished with
  all that it schedules before the next one starts.
-/

namespace ScopeFlow

/-- The end of a drain, with more lying below what is left on the stack. -/
def Drained.above (d : Drained) (below : List Operation) : Drained :=
  { d with stack := d.stack ++ below }

theorem Joined.stackOn_append (j : Joined) (rest below : List Operation) :
    j.stackOn rest ++ below = j.stackOn (rest ++ below) :=
  List.append_assoc ..

/-! ## Joined branches -/

/-- The halt that a branch has ended in, if it has. -/
def BranchEnd.halt? (b : BranchEnd) : Option Halt :=
  match b.outcome with
  | .ended halt => halt
  | .failed _ => none

/-- What a branch leaves, as one operation. -/
def BranchEnd.remainder (b : BranchEnd) : Option Operation :=
  if b.stack.isEmpty then none else some (.sequence b.stack)

theorem Joined.add_pending (j : Joined) (b : BranchEnd) :
    (j.add b).pending = j.pending ++ b.remainder.toList := by
  unfold Joined.add BranchEnd.remainder
  by_cases hs : b.stack.isEmpty = true
  · cases b.outcome with
    | ended halt => simp [hs]
    | failed e => cases j.failure <;> simp [hs]
  · cases b.outcome with
    | ended halt => simp [hs]
    | failed e => cases j.failure <;> simp [hs]

theorem foldl_add_pending (ends : List BranchEnd) (j : Joined) :
    (ends.foldl Joined.add j).pending = j.pending ++ ends.filterMap BranchEnd.remainder := by
  induction ends generalizing j with
  | nil => simp
  | cons b ends ih =>
      rw [List.foldl_cons, ih, Joined.add_pending, List.append_assoc]
      cases hb : b.remainder <;> simp [hb]

/-- What branches leave is put back in their order. -/
theorem joinBranches_pending (ends : List BranchEnd) :
    (joinBranches ends).pending = ends.filterMap BranchEnd.remainder := by
  unfold joinBranches
  rw [foldl_add_pending]
  rfl

/-- A join goes on only if everything joined so far and the branch do. -/
theorem Joined.add_outcome_none (j : Joined) (b : BranchEnd) :
    (j.add b).outcome = .ended none ↔ j.outcome = .ended none ∧ b.outcome = .ended none := by
  unfold Joined.add Joined.outcome
  cases hb : b.outcome with
  | ended halt => cases j.failure <;> cases j.halt <;> simp
  | failed e => cases j.failure <;> simp

theorem foldl_add_outcome_none (ends : List BranchEnd) (j : Joined) :
    (ends.foldl Joined.add j).outcome = .ended none ↔
      j.outcome = .ended none ∧ ∀ b ∈ ends, b.outcome = .ended none := by
  induction ends generalizing j with
  | nil => simp
  | cons b ends ih =>
      rw [List.foldl_cons, ih, Joined.add_outcome_none, List.forall_mem_cons, and_assoc]

/-- Joined branches go on exactly if every one of them has run dry. -/
theorem joinBranches_outcome_none (ends : List BranchEnd) :
    (joinBranches ends).outcome = .ended none ↔ ∀ b ∈ ends, b.outcome = .ended none := by
  unfold joinBranches
  rw [foldl_add_outcome_none]
  exact and_iff_right rfl

theorem Joined.add_outcome (j : Joined) (b : BranchEnd) :
    (j.add b).outcome = j.outcome ∨ (j.add b).outcome = b.outcome := by
  unfold Joined.add Joined.outcome
  cases hb : b.outcome with
  | ended halt =>
      cases j.failure with
      | some e => exact .inl rfl
      | none => cases j.halt <;> simp
  | failed e =>
      cases j.failure with
      | some e' => by_cases hcancel : e'.isCancellation = true <;> simp [hcancel]
      | none => exact .inr rfl

theorem foldl_add_outcome (ends : List BranchEnd) (j : Joined) :
    (ends.foldl Joined.add j).outcome = j.outcome ∨
      ∃ b ∈ ends, (ends.foldl Joined.add j).outcome = b.outcome := by
  induction ends generalizing j with
  | nil => exact .inl rfl
  | cons b ends ih =>
      rcases ih (j.add b) with hadd | ⟨b', hmem, hb'⟩
      · rcases j.add_outcome b with hold | hnew
        · exact .inl (hadd.trans hold)
        · exact .inr ⟨b, List.mem_cons_self, hadd.trans hnew⟩
      · exact .inr ⟨b', List.mem_cons_of_mem b hmem, hb'⟩

/-- What branches end in together, unless they go on, one of them has ended in. -/
theorem exists_of_joinBranches {ends : List BranchEnd} {o : Outcome}
    (h : (joinBranches ends).outcome = o) (ho : o ≠ .ended none) : ∃ b ∈ ends, b.outcome = o := by
  obtain hempty | ⟨b, hb, hbo⟩ := foldl_add_outcome ends .empty
  · exact absurd (h.symm.trans hempty) ho
  · exact ⟨b, hb, hbo.symm.trans h⟩

/-- What a branch leaves is put back. -/
theorem stackOn_ne_nil_of_mem {ends : List BranchEnd} {b : BranchEnd} {rest : List Operation}
    (hb : b ∈ ends) (hstack : b.stack ≠ []) : (joinBranches ends).stackOn rest ≠ [] := by
  have hmem : Operation.sequence b.stack ∈ (joinBranches ends).pending := by
    rw [joinBranches_pending, List.mem_filterMap]
    exact ⟨b, hb, by simp [BranchEnd.remainder, hstack]⟩
  intro hnil
  rw [Joined.stackOn, List.append_eq_nil_iff] at hnil
  cases hpending : (joinBranches ends).pending with
  | nil => rw [hpending] at hmem; cases hmem
  | cons op ops => rw [hpending] at hnil; simp [Operation.inParallel] at hnil

/-- Branches that did not all run dry leave something to be put back. -/
theorem Joined.stackOn_ne_nil {ends : List BranchEnd} {rest : List Operation}
    (ho : (joinBranches ends).outcome ≠ .ended none)
    (hempty : ∀ b ∈ ends, b.stack = [] ↔ b.outcome = .ended none) :
    (joinBranches ends).stackOn rest ≠ [] := by
  rw [Ne, joinBranches_outcome_none] at ho
  obtain ⟨b, hb⟩ := Classical.not_forall.mp ho
  obtain ⟨hb, hdry⟩ := Classical.not_imp.mp hb
  exact stackOn_ne_nil_of_mem hb fun hstack => hdry ((hempty b hb).mp hstack)

namespace DrainSetting

variable {r : DrainSetting} {budget : Option Nat} {op : Operation} {rest ops stack : List Operation}
  {p p' : Progress} {l : List Deed} {d : Drained} {ctx : Context} {w : World}
  {next : Option Operation}

/-! ## An empty stack -/

theorem drainBranches_mem {run : Operation → Progress → Option Drained} {ends : List BranchEnd}
    (h : drainBranches run ops p = some (ends, p')) :
    ∀ b ∈ ends, ∃ op p d, run op p = some d ∧ b = ⟨d.outcome, d.stack⟩ := by
  induction ops generalizing p ends with
  | nil =>
      rw [drainBranches, Option.some.injEq, Prod.mk.injEq] at h
      simp [← h.1]
  | cons op ops ih =>
      cases hd : run op p with
      | none => simp [drainBranches, hd] at h
      | some d =>
          cases hb : drainBranches run ops d.progress with
          | none => simp [drainBranches, hd, hb] at h
          | some x =>
              simp only [drainBranches, hd, hb, Option.some.injEq, Prod.mk.injEq] at h
              obtain ⟨rfl, rfl⟩ := h
              rw [List.forall_mem_cons]
              exact ⟨⟨op, p, d, hd, rfl⟩, ih hb⟩

/-- A drain without a budget leaves its stack empty exactly if it neither
halts nor fails. -/
theorem stack_eq_nil_iff (fuel : Nat) :
    ∀ {stack p d}, r.drain fuel none stack p = some d →
      (d.stack = [] ↔ d.outcome = .ended none) := by
  induction fuel with
  | zero => intro stack p d h; rw [drain_zero] at h; cases h
  | succ fuel ih =>
      intro stack p d h
      cases stack with
      | nil => rw [drain_nil, Option.some.injEq] at h; simp [← h]
      | cons op rest =>
          cases hm : r.move none op p with
          | halt why =>
              rw [drain_halt hm, Option.some.injEq] at h
              simp [← h]
          | unpack ops =>
              rw [drain_unpack hm] at h
              exact ih h
          | split ops =>
              cases hb : drainBranches (fun op p => r.drain fuel none [op] p) ops p with
              | none => rw [(drain_split_none hm hb).1] at h; cases h
              | some x =>
                  obtain ⟨ends, p'⟩ := x
                  by_cases ho : (joinBranches ends).outcome = .ended none
                  · rw [(drain_split_go hm hb ho).1] at h
                    exact ih h
                  · rw [(drain_split_end hm hb ho).1] at h
                    rw [← Option.some.inj h]
                    refine iff_of_false (Joined.stackOn_ne_nil ho fun b hmem => ?_) ho
                    obtain ⟨op', q, d', hd', rfl⟩ := drainBranches_mem hb b hmem
                    exact ih hd'
          | perform ctx =>
              rw [drain_cons, hm] at h
              dsimp only [spend] at h
              rcases he : r.execute ctx rest.length p.world with ⟨e | next, w⟩ <;> rw [he] at h
              · rw [← Option.some.inj h]
                simp
              · exact ih h

/-! ## The bound on the stack -/

/-- Has a drain run into the bound on the stack? -/
def Overflow (r : DrainSetting) (o : Outcome) : Prop :=
  ∃ operator, o = .failed (.graphCycle operator
    ("continuation exceeds " ++ toString r.config.maxStackDepth ++ " operations"))

/-- Where the stack is past its bound, nothing is executed. -/
theorem execute_of_lt (ctx : Context) {pending : Nat} (h : r.config.maxStackDepth < pending + 1)
    (w : World) : ∃ e, r.execute ctx pending w = (.error e, w) ∧ r.Overflow (.failed e) := by
  refine ⟨_, ?_, ctx.operatorName, rfl⟩
  unfold execute
  rw [if_pos h]
  rfl

/-- Within the bound, an execution does not see how large the stack is. -/
theorem execute_of_le (ctx : Context) {pending pending' : Nat}
    (h : pending + 1 ≤ r.config.maxStackDepth) (h' : pending' + 1 ≤ r.config.maxStackDepth) :
    r.execute ctx pending = r.execute ctx pending' := by
  unfold execute
  rw [if_neg (Nat.not_lt.mpr h), if_neg (Nat.not_lt.mpr h')]

/-- The drain of a stack never runs into the bound on it. -/
def Roomy (r : DrainSetting) (stack : List Operation) (p : Progress) : Prop :=
  ∀ l d, r.Ends none stack p l d → ¬ r.Overflow d.outcome

namespace Roomy

theorem unpack (hm : r.move none op p = .unpack ops) (h : r.Roomy (op :: rest) p) :
    r.Roomy (ops ++ rest) p :=
  fun l d hd => h l d ((ends_unpack hm).mpr hd)

theorem split {ends : List BranchEnd} (hm : r.move none op p = .split ops)
    (hb : r.BranchesEnd ops p l ends p') (ho : (joinBranches ends).outcome = .ended none)
    (h : r.Roomy (op :: rest) p) : r.Roomy ((joinBranches ends).stackOn rest) p' :=
  fun l' d hd => h (l ++ l') d ((ends_split hm).mpr ⟨l, ends, p', hb, .inl ⟨ho, l', rfl, hd⟩⟩)

theorem perform (hm : r.move none op p = .perform ctx)
    (he : r.execute ctx rest.length p.world = (.ok next, w)) (h : r.Roomy (op :: rest) p) :
    r.Roomy (next.toList ++ rest) (p.advance w) :=
  fun l d hd => h (_ :: l) d ((ends_perform hm he).mpr ⟨l, rfl, hd⟩)

/-- What is executed lies within the bound. -/
theorem le_bound (hm : r.move none op p = .perform ctx) (h : r.Roomy (op :: rest) p) :
    rest.length + 1 ≤ r.config.maxStackDepth := by
  refine Decidable.byContradiction fun hlt => ?_
  obtain ⟨e, he, hover⟩ := execute_of_lt (r := r) ctx (Nat.not_le.mp hlt) p.world
  exact h _ _ ((ends_error hm he).mpr ⟨rfl, rfl⟩) hover

end Roomy

/-! ## The frame -/

/-- The drain of the upper part of a stack, and that of the whole. If the part
runs dry, the whole goes over into the drain of what is below; if it halts or
fails, so does the whole, with what is below as it was; and as long as it goes
on, the whole does the same. It is enough that there is room for the part on
some floor of the same height. -/
theorem frame (r : DrainSetting) {floor below : List Operation}
    (hheight : floor.length = below.length) (fuel : Nat) :
    ∀ stack p, r.Roomy (stack ++ floor) p →
      (∀ d, r.drain fuel none stack p = some d →
        (d.outcome = .ended none → r.Leads (stack ++ below) p
          ((r.turns fuel none stack p).map Turn.deed) below d.progress) ∧
        (d.outcome ≠ .ended none → r.Ends none (stack ++ below) p
          ((r.turns fuel none stack p).map Turn.deed) (d.above below))) ∧
      (r.drain fuel none stack p = none → r.drain fuel none (stack ++ below) p = none ∧
        (r.turns fuel none (stack ++ below) p).map Turn.deed =
          (r.turns fuel none stack p).map Turn.deed) := by
  induction fuel with
  | zero =>
      intro stack p _
      simp
  | succ fuel ih =>
      intro stack p hroom
      cases stack with
      | nil =>
          refine ⟨fun d hd => ?_, fun h => by simp at h⟩
          rw [drain_nil, Option.some.injEq] at hd
          subst hd
          exact ⟨fun _ => .refl, fun h => absurd rfl h⟩
      | cons op rest =>
          rw [List.cons_append] at hroom
          rw [List.cons_append]
          cases hm : r.move none op p with
          -- A halt puts back all of the stack, on whatever it lies.
          | halt why =>
              rw [drain_halt hm, turns_halt hm]
              refine ⟨fun d hd => ?_, fun h => by cases h⟩
              rw [← Option.some.inj hd]
              exact ⟨fun h => by simp at h, fun _ => (ends_halt hm).mpr ⟨rfl, rfl⟩⟩
          | unpack ops =>
              have := ih (ops ++ rest) p (by rw [List.append_assoc]; exact hroom.unpack hm)
              rw [List.append_assoc] at this
              rw [drain_unpack hm, turns_unpack hm, drain_unpack hm, turns_unpack hm]
              exact ⟨fun d hd => ⟨fun ho => .unpack hm ((this.1 d hd).1 ho),
                fun ho => (ends_unpack hm).mpr ((this.1 d hd).2 ho)⟩, this.2⟩
          | split ops =>
              cases hb : drainBranches (fun op p => r.drain fuel none [op] p) ops p with
              | none =>
                  rw [(drain_split_none hm hb).1, (drain_split_none hm hb).2,
                    (drain_split_none hm hb).1, (drain_split_none hm hb).2]
                  refine ⟨fun d hd => ?_, fun _ => ⟨rfl, rfl⟩⟩
                  cases hd
              | some x =>
                  obtain ⟨ends, p'⟩ := x
                  have hbe : r.BranchesEnd ops p _ ends p' := ⟨fuel, hb, rfl⟩
                  by_cases ho : (joinBranches ends).outcome = .ended none
                  · have := ih ((joinBranches ends).stackOn rest) p'
                      (by rw [Joined.stackOn_append]; exact hroom.split hm hbe ho)
                    rw [Joined.stackOn_append] at this
                    rw [(drain_split_go hm hb ho).1, (drain_split_go hm hb ho).2,
                      (drain_split_go hm hb ho).1, (drain_split_go hm hb ho).2, List.map_append,
                      List.map_append]
                    refine ⟨fun d hd => ⟨fun ho' => .split hm hbe ho ((this.1 d hd).1 ho'),
                      fun ho' => (ends_split hm).mpr
                        ⟨_, ends, p', hbe, .inl ⟨ho, _, rfl, (this.1 d hd).2 ho'⟩⟩⟩, fun h => ?_⟩
                    exact ⟨(this.2 h).1, by rw [(this.2 h).2]⟩
                  · rw [(drain_split_end hm hb ho).1, (drain_split_end hm hb ho).2]
                    refine ⟨fun d hd => ?_, fun h => by cases h⟩
                    rw [← Option.some.inj hd]
                    refine ⟨fun h => absurd h ho, fun _ => (ends_split hm).mpr ?_⟩
                    exact ⟨_, ends, p', hbe, .inr ⟨ho, rfl, by rw [← Joined.stackOn_append]; rfl⟩⟩
          | perform ctx =>
              have hle := hroom.le_bound hm
              rw [List.length_append, hheight, ← List.length_append] at hle
              -- The height of the whole stack is within the bound, and nothing else of it is
              -- looked at.
              have hexec : r.execute ctx (rest ++ below).length = r.execute ctx rest.length :=
                execute_of_le ctx hle (by rw [List.length_append] at hle; omega)
              have hfloor : r.execute ctx (rest ++ floor).length = r.execute ctx rest.length := by
                rw [← hexec, List.length_append, List.length_append, hheight]
              rw [drain_cons, drain_cons, turns, turns, hm]
              dsimp only [spend]
              rw [hexec]
              rcases he : r.execute ctx rest.length p.world with ⟨e | next, w⟩
              · refine ⟨fun d hd => ?_, fun h => by cases h⟩
                rw [← Option.some.inj hd]
                refine ⟨fun h => by simp at h, fun _ => ?_⟩
                exact (ends_error hm (by rw [hexec, he])).mpr ⟨rfl, rfl⟩
              · have he' : r.execute ctx (rest ++ below).length p.world = (.ok next, w) := by
                  rw [hexec, he]
                have := ih (next.toList ++ rest) (p.advance w)
                  (by rw [List.append_assoc]; exact hroom.perform hm (by rw [hfloor, he]))
                rw [List.append_assoc] at this
                dsimp only
                refine ⟨fun d hd => ⟨fun ho => .perform hm he' ((this.1 d hd).1 ho),
                  fun ho => (ends_perform hm he').mpr ⟨_, rfl, (this.1 d hd).2 ho⟩⟩, fun h => ?_⟩
                exact ⟨(this.2 h).1, congrArg (_ :: ·) (this.2 h).2⟩

/-! ## One operation after another -/

/-- How the drain of two parts of a stack ends: with the drain of the lower
part once the upper one has run dry, or else with the upper part, and then the
lower one is left as it was. -/
theorem ends_on_floor_iff {upper floor below : List Operation}
    (hheight : floor.length = below.length) (hroom : r.Roomy (upper ++ floor) p) :
    r.Ends none (upper ++ below) p l d ↔
      (∃ l₁ p₁ l₂, r.Ends none upper p l₁ ⟨.ended none, [], p₁⟩ ∧ r.Ends none below p₁ l₂ d ∧
        l = l₁ ++ l₂) ∨
      ∃ d₁, r.Ends none upper p l d₁ ∧ d₁.stack ≠ [] ∧ d = d₁.above below := by
  constructor
  · rintro ⟨fuel, hd, hl⟩
    have hframe := r.frame hheight fuel upper p hroom
    cases ha : r.drain fuel none upper p with
    | none => rw [(hframe.2 ha).1] at hd; cases hd
    | some d₁ =>
        have hends : r.Ends none upper p _ d₁ := ⟨fuel, ha, rfl⟩
        by_cases ho : d₁.outcome = .ended none
        · obtain ⟨l₂, hl₂, hbelow⟩ := (((hframe.1 d₁ ha).1 ho).ends l d).mp ⟨fuel, hd, hl⟩
          have hd₁ : d₁ = ⟨.ended none, [], d₁.progress⟩ := by
            rw [← ho, ← (stack_eq_nil_iff fuel ha).mpr ho]
          exact .inl ⟨_, d₁.progress, l₂, hd₁ ▸ hends, hbelow, hl₂⟩
        · obtain ⟨rfl, rfl⟩ := Ends.unique ⟨fuel, hd, hl⟩ ((hframe.1 d₁ ha).2 ho)
          exact .inr ⟨d₁, hends, fun hs => ho ((stack_eq_nil_iff fuel ha).mp hs), rfl⟩
  · rintro (⟨l₁, p₁, l₂, ⟨fuel, ha, rfl⟩, hbelow, rfl⟩ | ⟨d₁, ⟨fuel, ha, rfl⟩, hs, rfl⟩)
    · have hleads := ((r.frame hheight fuel upper p hroom).1 _ ha).1 rfl
      exact (hleads.ends _ _).mpr ⟨l₂, rfl, hbelow⟩
    · refine ((r.frame hheight fuel upper p hroom).1 d₁ ha).2 fun ho => ?_
      exact hs ((stack_eq_nil_iff fuel ha).mpr ho)

theorem ends_append_iff {upper below : List Operation} (hroom : r.Roomy (upper ++ below) p) :
    r.Ends none (upper ++ below) p l d ↔
      (∃ l₁ p₁ l₂, r.Ends none upper p l₁ ⟨.ended none, [], p₁⟩ ∧ r.Ends none below p₁ l₂ d ∧
        l = l₁ ++ l₂) ∨
      ∃ d₁, r.Ends none upper p l d₁ ∧ d₁.stack ≠ [] ∧ d = d₁.above below :=
  ends_on_floor_iff rfl hroom

/-- How the drain of two parts of a stack begins. -/
theorem begins_append_iff {upper below : List Operation} (hroom : r.Roomy (upper ++ below) p) :
    r.Begins none (upper ++ below) p l ↔ r.Begins none upper p l ∨
      ∃ l₁ p₁ l₂, r.Ends none upper p l₁ ⟨.ended none, [], p₁⟩ ∧ r.Begins none below p₁ l₂ ∧
        l = l₁ ++ l₂ := by
  constructor
  · rintro ⟨fuel, h⟩
    have hframe := r.frame rfl fuel upper p hroom
    cases ha : r.drain fuel none upper p with
    | none =>
        rw [(hframe.2 ha).2] at h
        exact .inl ⟨fuel, h⟩
    | some d₁ =>
        have hends : r.Ends none upper p _ d₁ := ⟨fuel, ha, rfl⟩
        by_cases ho : d₁.outcome = .ended none
        · have hd₁ : d₁ = ⟨.ended none, [], d₁.progress⟩ := by
            rw [← ho, ← (stack_eq_nil_iff fuel ha).mpr ho]
          rcases (((hframe.1 d₁ ha).1 ho).begins l).mp ⟨fuel, h⟩ with h' | ⟨l₂, hl, h'⟩
          · exact .inl (hends.begins_iff.mpr h')
          · exact .inr ⟨_, d₁.progress, l₂, hd₁ ▸ hends, h', hl⟩
        · exact .inl (hends.begins_iff.mpr
            (((hframe.1 d₁ ha).2 ho).begins_iff.mp ⟨fuel, h⟩))
  · rintro (⟨fuel, h⟩ | ⟨l₁, p₁, l₂, ⟨fuel, ha, rfl⟩, hbelow, rfl⟩)
    · have hframe := r.frame rfl fuel upper p hroom
      cases ha : r.drain fuel none upper p with
      | none => exact ⟨fuel, by rw [(hframe.2 ha).2]; exact h⟩
      | some d₁ =>
          by_cases ho : d₁.outcome = .ended none
          · exact (((hframe.1 d₁ ha).1 ho).begins l).mpr (.inl h)
          · exact ((hframe.1 d₁ ha).2 ho).begins_iff.mpr h
    · have hleads := ((r.frame rfl fuel upper p hroom).1 _ ha).1 rfl
      exact (hleads.begins _).mpr (.inr ⟨l₂, rfl, hbelow⟩)

/-- The operations of a stack drained one after another, each by itself and to
its end; where one halts or fails, the later ones are left as they are. -/
inductive InTurn (r : DrainSetting) :
    List Operation → Progress → List Deed → Drained → Prop
  | done (q : Progress) : InTurn r [] q [] ⟨.ended none, [], q⟩
  | next {x : Operation} {xs : List Operation} {q q₁ : Progress} {l₁ l₂ : List Deed}
      {z : Drained} : r.Ends none [x] q l₁ ⟨.ended none, [], q₁⟩ →
      InTurn r xs q₁ l₂ z → InTurn r (x :: xs) q (l₁ ++ l₂) z
  | cut {x : Operation} {xs : List Operation} {q : Progress} {l₁ : List Deed} {z : Drained} :
      r.Ends none [x] q l₁ z → z.stack ≠ [] → InTurn r (x :: xs) q l₁ (z.above xs)

/-- The first deeds of operations drained so. -/
inductive InTurnBegins (r : DrainSetting) : List Operation → Progress → List Deed → Prop
  | done (q : Progress) : InTurnBegins r [] q []
  | next {x : Operation} {xs : List Operation} {q q₁ : Progress} {l₁ l₂ : List Deed} :
      r.Ends none [x] q l₁ ⟨.ended none, [], q₁⟩ → InTurnBegins r xs q₁ l₂ →
      InTurnBegins r (x :: xs) q (l₁ ++ l₂)
  | first {x : Operation} {xs : List Operation} {q : Progress} {l₁ : List Deed} :
      r.Begins none [x] q l₁ → InTurnBegins r (x :: xs) q l₁

/-- The upper part of a stack has room if the whole has: where it runs into the
bound by itself, it does so on top of more. -/
theorem Roomy.upper {upper below : List Operation} (hroom : r.Roomy (upper ++ below) p) :
    r.Roomy upper p := by
  intro l d hd hover
  by_cases hs : d.stack = []
  · obtain ⟨fuel, hdrain, -⟩ := hd
    obtain ⟨operator, ho⟩ := hover
    rw [(stack_eq_nil_iff fuel hdrain).mp hs] at ho
    cases ho
  · exact hroom l (d.above below) ((ends_append_iff hroom).mpr (.inr ⟨d, hd, hs, rfl⟩)) hover

/-- A part that runs dry leads to what is below. -/
theorem Leads.of_dry {upper below : List Operation} (hroom : r.Roomy (upper ++ below) p)
    (h : r.Ends none upper p l ⟨.ended none, [], p'⟩) : r.Leads (upper ++ below) p l below p' := by
  obtain ⟨fuel, hd, rfl⟩ := h
  exact ((r.frame rfl fuel upper p hroom).1 _ hd).1 rfl

theorem Leads.roomy {stack' : List Operation} (h : r.Leads stack p l stack' p')
    (hroom : r.Roomy stack p) : r.Roomy stack' p' :=
  fun l' d hd => hroom (l ++ l') d ((h.ends _ _).mpr ⟨l', rfl, hd⟩)

/-- What a drain leads over to has room if the drain has. -/
theorem Roomy.below {upper below : List Operation} {l₁ : List Deed} {p₁ : Progress}
    (hroom : r.Roomy (upper ++ below) p) (h : r.Ends none upper p l₁ ⟨.ended none, [], p₁⟩) :
    r.Roomy below p₁ := (Leads.of_dry hroom h).roomy hroom

/-- A drain takes the operations of its stack one after another. -/
theorem ends_iff_inTurn (hroom : r.Roomy stack p) :
    r.Ends none stack p l d ↔ r.InTurn stack p l d := by
  induction stack generalizing p l d with
  | nil =>
      rw [ends_nil]
      constructor
      · rintro ⟨rfl, rfl⟩
        exact .done p
      · intro h
        cases h
        exact ⟨rfl, rfl⟩
  | cons op ops ih =>
      rw [← List.singleton_append] at hroom ⊢
      rw [ends_append_iff hroom]
      constructor
      · rintro (⟨l₁, p₁, l₂, h, hrest, rfl⟩ | ⟨d₁, h, hs, rfl⟩)
        · exact .next h ((ih (hroom.below h)).mp hrest)
        · exact .cut h hs
      · intro h
        cases h with
        | next h hrest => exact .inl ⟨_, _, _, h, (ih (hroom.below h)).mpr hrest, rfl⟩
        | cut h hs => exact .inr ⟨_, h, hs, rfl⟩

/-- The same of a drain that need not end. -/
theorem begins_iff_inTurn (hroom : r.Roomy stack p) :
    r.Begins none stack p l ↔ r.InTurnBegins stack p l := by
  induction stack generalizing p l with
  | nil =>
      rw [begins_nil]
      constructor
      · rintro rfl
        exact .done p
      · intro h
        cases h
        rfl
  | cons op ops ih =>
      rw [← List.singleton_append] at hroom ⊢
      rw [begins_append_iff hroom]
      constructor
      · rintro (h | ⟨l₁, p₁, l₂, h, hrest, rfl⟩)
        · exact .first h
        · exact .next h ((ih (hroom.below h)).mp hrest)
      · intro h
        cases h with
        | next h hrest => exact .inr ⟨_, _, _, h, (ih (hroom.below h)).mpr hrest, rfl⟩
        | first h => exact .inl h

/-- **Stack discipline.** As long as the bound on the stack is not hit, the
drain of an operation on top of a stack is the drain of the operation alone
and then, if nothing is left of it, the drain of the stack; if it halts or
fails, the stack is left below what remains. The deeds, in their order, are
those of the one and then those of the other, also where the drain never ends.
A sequence is drained part by part, each with all that it schedules. -/
theorem drain_on_stack (r : DrainSetting) (op : Operation) (below : List Operation) (p : Progress)
    (hroom : r.Roomy (op :: below) p) :
    (∀ l d, r.Ends none (op :: below) p l d ↔
      (∃ l₁ p₁ l₂, r.Ends none [op] p l₁ ⟨.ended none, [], p₁⟩ ∧ r.Ends none below p₁ l₂ d ∧
        l = l₁ ++ l₂) ∨
      ∃ d₁, r.Ends none [op] p l d₁ ∧ d₁.stack ≠ [] ∧ d = d₁.above below) ∧
    (∀ l, r.Begins none (op :: below) p l ↔ r.Begins none [op] p l ∨
      ∃ l₁ p₁ l₂, r.Ends none [op] p l₁ ⟨.ended none, [], p₁⟩ ∧ r.Begins none below p₁ l₂ ∧
        l = l₁ ++ l₂) ∧
    (∀ l d, r.Ends none [op] p l d → (d.stack = [] ↔ d.outcome = .ended none)) ∧
    ∀ ops, op = .sequence ops → r.halts? p = none →
      (∀ l d, r.Ends none (op :: below) p l d ↔ r.InTurn (ops ++ below) p l d) ∧
      ∀ l, r.Begins none (op :: below) p l ↔ r.InTurnBegins (ops ++ below) p l := by
  have hroom' : r.Roomy ([op] ++ below) p := hroom
  refine ⟨fun l d => ends_append_iff hroom', fun l => begins_append_iff hroom', ?_, ?_⟩
  · rintro l d ⟨fuel, hd, _⟩
    exact stack_eq_nil_iff fuel hd
  · rintro ops rfl hhalt
    have hm : r.move none (.sequence ops) p = .unpack ops := by rw [move, hhalt]
    refine ⟨fun l d => ?_, fun l => ?_⟩
    · rw [ends_unpack hm, ends_iff_inTurn (hroom.unpack hm)]
    · rw [begins_unpack hm, begins_iff_inTurn (hroom.unpack hm)]

end DrainSetting

namespace Sample

/-- A graph of one operator that does nothing. -/
def idleGraph : SharedGraph :=
  ⟨⟨0⟩, ⟨"Idle", .empty, #[⟨"Idle", .empty, none, .empty⟩], some ⟨0⟩⟩⟩

/-- Doing nothing, in a context of its own. -/
def idling (n : Nat) : Operation :=
  .atomic (.frame ⟨n⟩ ⟨0⟩ ⟨0⟩ [⟨0⟩] (.root ⟨0⟩ idleGraph ⟨0⟩))

/-- Branches on top of one more operation, under the standard bounds. -/
theorem drain_on_stack_idle :
    (DrainSetting.mk .standard ⟨0⟩).Roomy [.parallel [idling 1, .sequence [idling 2]], idling 3]
        ⟨.empty, 0, false⟩ ∧
      ∃ l₁ p₁ l₂ d, (DrainSetting.mk .standard ⟨0⟩).Ends none
          [.parallel [idling 1, .sequence [idling 2]]] ⟨.empty, 0, false⟩ l₁
          ⟨.ended none, [], p₁⟩ ∧
        (DrainSetting.mk .standard ⟨0⟩).Ends none [idling 3] p₁ l₂ d ∧ d.outcome = .ended none := by
  let r : DrainSetting := ⟨.standard, ⟨0⟩⟩
  let op : Operation := .parallel [idling 1, .sequence [idling 2]]
  have hends : ∃ l d, r.Ends none [op, idling 3] ⟨.empty, 0, false⟩ l d ∧ d.outcome = .ended none ∧
      d.stack = [] := ⟨_, _, ⟨9, rfl, rfl⟩, rfl, rfl⟩
  obtain ⟨l, d, hends, ho, hs⟩ := hends
  have hroom : r.Roomy [op, idling 3] ⟨.empty, 0, false⟩ := by
    intro l' d' h hover
    rw [← (hends.unique h).2, ho] at hover
    obtain ⟨operator, hover⟩ := hover
    cases hover
  refine ⟨hroom, ?_⟩
  rcases ((DrainSetting.drain_on_stack r op [idling 3] _ hroom).1 l d).mp hends with
    ⟨l₁, p₁, l₂, h₁, h₂, -⟩ | ⟨d₁, -, hne, rfl⟩
  · exact ⟨l₁, p₁, l₂, d, h₁, h₂, ho⟩
  · exact absurd (List.append_eq_nil_iff.mp hs).1 hne

end Sample

end ScopeFlow
