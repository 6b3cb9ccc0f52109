import ScopeFlow.Engine.Drain

/-!
# Moves of a drain

What a drain does with the operation on top of its stack is one of four
moves, and its definition is read off them once, here (`drain_cons`); what
follows about drains is by cases on the move.

* `DrainSetting.turns` lists the operators that a drain takes up, with what is
  pending and how far it has come after each: also of a drain whose fuel does
  not last;
* more fuel changes no finished drain (`drain_mono`) and only lengthens the
  list of turns (`turns_mono`);
* `Ends` and `Begins` are drains without fuel: how one ends, and how one
  begins whether or not it ends.
-/

namespace ScopeFlow

/-- Nobody asks for a halt after a failure, or for a spent budget. -/
theorem World.halt?_ne {w : World} {c : ControlId} :
    w.halt? c ≠ some .fault ∧ w.halt? c ≠ some .budget := by
  grind [halt?]

/-- What a drain does with the operation on top of its stack. -/
inductive Move where
  /-- Put it back and end. -/
  | halt (why : Halt)
  /-- Put its parts in its place. -/
  | unpack (ops : List Operation)
  /-- Drain its parts as branches, each on a stack of its own. -/
  | split (ops : List Operation)
  /-- Execute the operator that a context binds. -/
  | perform (ctx : Context)

/-- An operator taken up by a drain: its context, what is pending on its stack
afterwards, and how far the drain has come. -/
structure Turn where
  ctx : Context
  stack : List Operation
  progress : Progress

/-- A turn apart from what it leaves pending. -/
def Turn.deed (t : Turn) : Context × Progress := (t.ctx, t.progress)

namespace Progress

/-- After an operator has been executed. -/
def advance (p : Progress) (w : World) : Progress := ⟨w, p.executed + 1, p.fault⟩

/-- After an operator has failed. -/
def fall (p : Progress) (e : Failure) (w : World) : Progress :=
  ⟨w, p.executed, p.fault || !e.isCancellation⟩

end Progress

/-- What is put back for joined branches, on top of the stack below them. -/
def Joined.stackOn (j : Joined) (rest : List Operation) : List Operation :=
  (Operation.inParallel j.pending).toList ++ rest

/-- The turns of branches drained one after another with `run`, where `log`
lists those of one branch. -/
def branchTurns (run : Operation → Progress → Option Drained)
    (log : Operation → Progress → List Turn) : List Operation → Progress → List Turn
  | [], _ => []
  | op :: ops, p =>
    log op p ++ match run op p with
      | none => []
      | some d => branchTurns run log ops d.progress

/-- What one more operator leaves of a budget; none where it is spent. -/
def spend : Option Nat → Option (Option Nat)
  | none => some none
  | some steps => if steps ≤ 1 then none else some (some (steps - 1))

namespace DrainSetting

variable {r : DrainSetting} {budget : Option Nat} {op : Operation} {rest ops : List Operation}
  {p : Progress}

/-- Why a drain that has come so far halts before any further operation, if it
does. -/
def halts? (r : DrainSetting) (p : Progress) : Option Halt :=
  match p.world.halt? r.control with
  | some why => some why
  | none => if p.fault then some .fault else none

/-- The move of a drain with an operation on top of its stack. -/
def move (r : DrainSetting) (budget : Option Nat) (op : Operation) (p : Progress) : Move :=
  match r.halts? p with
  | some why => .halt why
  | none =>
    match op with
    | .sequence ops => .unpack ops
    | .parallel ops => if r.separates budget ops then .split ops else .unpack ops
    | .atomic ctx => .perform ctx

/-! ## When a halt is due -/

theorem halts?_eq_none_iff :
    r.halts? p = none ↔ p.world.halt? r.control = none ∧ p.fault = false := by
  grind [halts?]

/-- A halt is due for a request, or else because an operator has failed. -/
theorem halts?_eq_some_iff {why : Halt} :
    r.halts? p = some why ↔ p.world.halt? r.control = some why ∨
      p.world.halt? r.control = none ∧ p.fault = true ∧ why = .fault := by
  grind [halts?]

/-- What has been asked for is why a halt is due. -/
theorem halts?_of_halt? {why : Halt} (h : p.world.halt? r.control = some why) :
    r.halts? p = some why :=
  halts?_eq_some_iff.mpr (.inl h)

/-- A halt is due for nothing else. -/
theorem halts?_congr {r' : DrainSetting} {p' : Progress}
    (hhalt : p.world.halt? r.control = p'.world.halt? r'.control) (hfault : p.fault = p'.fault) :
    r.halts? p = r'.halts? p' := by
  rw [halts?, hhalt, hfault, halts?]

/-! ## When each move is made -/

theorem move_eq_halt {why : Halt} :
    r.move budget op p = .halt why ↔ r.halts? p = some why := by
  cases op <;> grind [move]

theorem move_eq_unpack : r.move budget op p = .unpack ops ↔ r.halts? p = none ∧
    (op = .sequence ops ∨ op = .parallel ops ∧ r.separates budget ops = false) := by
  cases op <;> grind [move]

theorem move_eq_split : r.move budget op p = .split ops ↔ r.halts? p = none ∧
    op = .parallel ops ∧ r.separates budget ops = true := by
  cases op <;> grind [move]

theorem move_eq_perform {ctx : Context} :
    r.move budget op p = .perform ctx ↔ r.halts? p = none ∧ op = .atomic ctx := by
  cases op <;> grind [move]

/-- The turns of a drain, as far as the fuel lasts. -/
def turns (r : DrainSetting) :
    (fuel : Nat) → (budget : Option Nat) → List Operation → Progress → List Turn
  | 0, _, _, _ => []
  | _ + 1, _, [], _ => []
  | fuel + 1, budget, op :: rest, p =>
    match r.move budget op p with
    | .halt _ => []
    | .unpack ops => r.turns fuel budget (ops ++ rest) p
    | .split ops =>
      branchTurns (fun op p => r.drain fuel none [op] p) (fun op p => r.turns fuel none [op] p)
          ops p ++
        match drainBranches (fun op p => r.drain fuel none [op] p) ops p with
        | none => []
        | some (ends, p) =>
          match (joinBranches ends).outcome with
          | .ended none => r.turns fuel budget ((joinBranches ends).stackOn rest) p
          | _ => []
    | .perform ctx =>
      match r.execute ctx rest.length p.world with
      | (.ok next, w) =>
        ⟨ctx, next.toList ++ rest, p.advance w⟩ ::
          match spend budget with
          | none => []
          | some budget => r.turns fuel budget (next.toList ++ rest) (p.advance w)
      | (.error e, w) => [⟨ctx, .atomic ctx :: rest, p.fall e w⟩]

/-! ## One move at a time -/

@[simp] theorem drain_zero : r.drain 0 budget rest p = none := by
  cases rest <;> rfl

@[simp] theorem drain_nil (fuel : Nat) :
    r.drain (fuel + 1) budget [] p = some ⟨.ended none, [], p⟩ := rfl

/-- The definition of a drain, move by move. -/
theorem drain_cons (fuel : Nat) :
    r.drain (fuel + 1) budget (op :: rest) p =
      match r.move budget op p with
      | .halt why => some ⟨.ended (some why), op :: rest, p⟩
      | .unpack ops => r.drain fuel budget (ops ++ rest) p
      | .split ops =>
        match drainBranches (fun op p => r.drain fuel none [op] p) ops p with
        | none => none
        | some (ends, p') =>
          match (joinBranches ends).outcome with
          | .ended none => r.drain fuel budget ((joinBranches ends).stackOn rest) p'
          | outcome => some ⟨outcome, (joinBranches ends).stackOn rest, p'⟩
      | .perform ctx =>
        match r.execute ctx rest.length p.world with
        | (.ok next, w) =>
          match spend budget with
          | none => some ⟨.ended (some .budget), next.toList ++ rest, p.advance w⟩
          | some budget => r.drain fuel budget (next.toList ++ rest) (p.advance w)
        | (.error e, w) => some ⟨.failed e, .atomic ctx :: rest, p.fall e w⟩ := by
  obtain ⟨w, executed, fault⟩ := p
  rw [drain.eq_def]
  cases hw : w.halt? r.control with
  | some why =>
      rw [show r.move budget op ⟨w, executed, fault⟩ = .halt why by simp [move, halts?, hw]]
      simp only [hw]
  | none =>
      cases fault with
      | true =>
          rw [show r.move budget op ⟨w, executed, true⟩ = .halt .fault by simp [move, halts?, hw]]
          simp only [hw, if_true]
      | false =>
          have hh : r.halts? ⟨w, executed, false⟩ = none := by simp [halts?, hw]
          simp only [hw, Bool.false_eq_true, if_false]
          cases op with
          | sequence ops =>
              rw [show r.move budget (.sequence ops) ⟨w, executed, false⟩ = .unpack ops by
                simp [move, hh]]
          | parallel ops =>
              by_cases hs : r.separates budget ops = true
              · rw [show r.move budget (.parallel ops) ⟨w, executed, false⟩ = .split ops by
                  simp [move, hh, hs]]
                simp only [hs, if_true]
                rfl
              · rw [show r.move budget (.parallel ops) ⟨w, executed, false⟩ = .unpack ops by
                  simp [move, hh, hs]]
                simp only [hs]
                rfl
          | atomic ctx =>
              rw [show r.move budget (.atomic ctx) ⟨w, executed, false⟩ = .perform ctx by
                simp [move, hh]]
              simp only
              rcases r.execute ctx rest.length w with ⟨_ | next, w'⟩
              · rfl
              · cases budget with
                | none => rfl
                | some steps =>
                    by_cases hs : steps ≤ 1
                    · simp only [spend, hs, if_true]
                      rfl
                    · simp only [spend, hs, if_false]
                      rfl

theorem drain_halt {why : Halt} (h : r.move budget op p = .halt why) (fuel : Nat) :
    r.drain (fuel + 1) budget (op :: rest) p = some ⟨.ended (some why), op :: rest, p⟩ := by
  rw [drain_cons, h]

theorem drain_unpack (h : r.move budget op p = .unpack ops) (fuel : Nat) :
    r.drain (fuel + 1) budget (op :: rest) p = r.drain fuel budget (ops ++ rest) p := by
  rw [drain_cons, h]

@[simp] theorem turns_zero : r.turns 0 budget rest p = [] := by
  cases rest <;> rfl

@[simp] theorem turns_nil (fuel : Nat) : r.turns (fuel + 1) budget [] p = [] := rfl

theorem turns_halt {why : Halt} (h : r.move budget op p = .halt why) (fuel : Nat) :
    r.turns (fuel + 1) budget (op :: rest) p = [] := by
  rw [turns, h]

theorem turns_unpack (h : r.move budget op p = .unpack ops) (fuel : Nat) :
    r.turns (fuel + 1) budget (op :: rest) p = r.turns fuel budget (ops ++ rest) p := by
  rw [turns, h]

section Split

variable {fuel : Nat} {ends : List BranchEnd} {p' : Progress}

theorem drain_split_none (hm : r.move budget op p = .split ops)
    (hb : drainBranches (fun op p => r.drain fuel none [op] p) ops p = none) :
    r.drain (fuel + 1) budget (op :: rest) p = none ∧
      r.turns (fuel + 1) budget (op :: rest) p =
        branchTurns (fun op p => r.drain fuel none [op] p) (fun op p => r.turns fuel none [op] p)
          ops p := by
  rw [drain_cons, turns, hm]
  dsimp only
  rw [hb]
  exact ⟨rfl, List.append_nil _⟩

theorem drain_split_go (hm : r.move budget op p = .split ops)
    (hb : drainBranches (fun op p => r.drain fuel none [op] p) ops p = some (ends, p'))
    (ho : (joinBranches ends).outcome = .ended none) :
    r.drain (fuel + 1) budget (op :: rest) p =
        r.drain fuel budget ((joinBranches ends).stackOn rest) p' ∧
      r.turns (fuel + 1) budget (op :: rest) p =
        branchTurns (fun op p => r.drain fuel none [op] p) (fun op p => r.turns fuel none [op] p)
            ops p ++
          r.turns fuel budget ((joinBranches ends).stackOn rest) p' := by
  rw [drain_cons, turns, hm]
  dsimp only
  rw [hb]
  dsimp only
  rw [ho]
  exact ⟨rfl, rfl⟩

theorem drain_split_end (hm : r.move budget op p = .split ops)
    (hb : drainBranches (fun op p => r.drain fuel none [op] p) ops p = some (ends, p'))
    (ho : (joinBranches ends).outcome ≠ .ended none) :
    r.drain (fuel + 1) budget (op :: rest) p =
        some ⟨(joinBranches ends).outcome, (joinBranches ends).stackOn rest, p'⟩ ∧
      r.turns (fuel + 1) budget (op :: rest) p =
        branchTurns (fun op p => r.drain fuel none [op] p) (fun op p => r.turns fuel none [op] p)
          ops p := by
  rw [drain_cons, turns, hm]
  dsimp only
  rw [hb]
  dsimp only
  rcases hj : (joinBranches ends).outcome with (_ | why) | e
  · exact absurd hj ho
  · exact ⟨rfl, List.append_nil _⟩
  · exact ⟨rfl, List.append_nil _⟩

end Split

end DrainSetting

/-! ## More fuel -/

section Branches

variable {run run' : Operation → Progress → Option Drained}
  {log log' : Operation → Progress → List Turn}

theorem drainBranches_mono (hrun : ∀ op p d, run op p = some d → run' op p = some d)
    {ops : List Operation} {p : Progress} {x : List BranchEnd × Progress}
    (h : drainBranches run ops p = some x) : drainBranches run' ops p = some x := by
  induction ops generalizing p x with
  | nil => exact h
  | cons op ops ih =>
      cases hd : run op p with
      | none => simp [drainBranches, hd] at h
      | some d =>
          simp only [drainBranches, hd, hrun op p d hd] at h ⊢
          cases hb : drainBranches run ops d.progress with
          | none => simp [hb] at h
          | some y =>
              rw [hb] at h
              rw [ih hb]
              exact h

/-- Where branches are drained further, their list of turns is longer, and it
is the same where they were drained to their end. -/
theorem branchTurns_mono (hrun : ∀ op p d, run op p = some d → run' op p = some d)
    (hlog : ∀ op p, log op p <+: log' op p)
    (hend : ∀ op p d, run op p = some d → log' op p = log op p)
    (ops : List Operation) (p : Progress) :
    branchTurns run log ops p <+: branchTurns run' log' ops p ∧
      ((drainBranches run ops p).isSome →
        branchTurns run' log' ops p = branchTurns run log ops p) := by
  induction ops generalizing p with
  | nil => exact ⟨List.prefix_rfl, fun _ => rfl⟩
  | cons op ops ih =>
      cases hd : run op p with
      | none =>
          simp only [branchTurns, drainBranches, hd, List.append_nil]
          exact ⟨(hlog op p).trans (List.prefix_append ..), fun h => by simp at h⟩
      | some d =>
          simp only [branchTurns, drainBranches, hd, hrun op p d hd, hend op p d hd]
          refine ⟨(List.prefix_append_right_inj _).mpr (ih d.progress).1, fun h => ?_⟩
          rw [(ih d.progress).2]
          cases hb : drainBranches run ops d.progress with
          | none => simp [hb] at h
          | some y => rfl

end Branches

namespace DrainSetting

variable {r : DrainSetting} {budget : Option Nat} {stack : List Operation} {p : Progress}
  {d : Drained}

/-- One unit of fuel more. -/
theorem more_fuel (r : DrainSetting) (fuel : Nat) :
    ∀ budget stack p, r.turns fuel budget stack p <+: r.turns (fuel + 1) budget stack p ∧
      ∀ d, r.drain fuel budget stack p = some d →
        r.drain (fuel + 1) budget stack p = some d ∧
          r.turns (fuel + 1) budget stack p = r.turns fuel budget stack p := by
  induction fuel with
  | zero => exact fun budget stack p => by simp
  | succ fuel ih =>
      intro budget stack p
      cases stack with
      | nil => exact ⟨List.prefix_rfl, fun d h => ⟨h, rfl⟩⟩
      | cons op rest =>
          cases hm : r.move budget op p with
          | halt why =>
              rw [drain_halt hm, drain_halt hm, turns_halt hm, turns_halt hm]
              exact ⟨List.prefix_rfl, fun d h => ⟨h, rfl⟩⟩
          | unpack ops =>
              simp only [drain_unpack hm, turns_unpack hm]
              exact ih budget (ops ++ rest) p
          -- Branches that end with so much fuel end alike with more, so what follows them is
          -- the same.
          | split ops =>
              have hrun : ∀ op p d, r.drain fuel none [op] p = some d →
                  r.drain (fuel + 1) none [op] p = some d :=
                fun op p d h => ((ih none [op] p).2 d h).1
              have hlog : ∀ op p d, r.drain fuel none [op] p = some d →
                  r.turns (fuel + 1) none [op] p = r.turns fuel none [op] p :=
                fun op p d h => ((ih none [op] p).2 d h).2
              have hbranch := branchTurns_mono hrun (fun op p => (ih none [op] p).1) hlog ops p
              cases hb : drainBranches (fun op p => r.drain fuel none [op] p) ops p with
              | none =>
                  rw [(drain_split_none hm hb).1, (drain_split_none hm hb).2, turns, hm]
                  exact ⟨hbranch.1.trans (List.prefix_append ..), fun d h => by cases h⟩
              | some x =>
                  obtain ⟨ends, p'⟩ := x
                  have hb' := drainBranches_mono hrun hb
                  have hturns := hbranch.2 (by rw [hb]; rfl)
                  by_cases ho : (joinBranches ends).outcome = .ended none
                  · rw [(drain_split_go hm hb ho).1, (drain_split_go hm hb ho).2,
                      (drain_split_go hm hb' ho).1, (drain_split_go hm hb' ho).2, hturns]
                    have := ih budget ((joinBranches ends).stackOn rest) p'
                    exact ⟨(List.prefix_append_right_inj _).mpr this.1,
                      fun d h => ⟨(this.2 d h).1, by rw [(this.2 d h).2]⟩⟩
                  · rw [(drain_split_end hm hb ho).1, (drain_split_end hm hb ho).2,
                      (drain_split_end hm hb' ho).1, (drain_split_end hm hb' ho).2, hturns]
                    exact ⟨List.prefix_rfl, fun d h => ⟨h, rfl⟩⟩
          | perform ctx =>
              rw [drain_cons, drain_cons, turns, turns, hm]
              dsimp only
              rcases r.execute ctx rest.length p.world with ⟨e | next, w⟩
              · exact ⟨List.prefix_rfl, fun d h => ⟨h, rfl⟩⟩
              · dsimp only
                cases hs : spend budget with
                | none => exact ⟨List.prefix_rfl, fun d h => ⟨h, rfl⟩⟩
                | some budget' =>
                    have := ih budget' (next.toList ++ rest) (p.advance w)
                    exact ⟨List.cons_prefix_cons.mpr ⟨rfl, this.1⟩,
                      fun d h => ⟨(this.2 d h).1, congrArg (_ :: ·) (this.2 d h).2⟩⟩

/-- A finished drain stays as it is with more fuel, turns included. -/
theorem drain_mono {fuel fuel' : Nat} (hle : fuel ≤ fuel')
    (h : r.drain fuel budget stack p = some d) :
    r.drain fuel' budget stack p = some d ∧
      r.turns fuel' budget stack p = r.turns fuel budget stack p := by
  induction hle with
  | refl => exact ⟨h, rfl⟩
  | step _ ih =>
      have := (r.more_fuel _ budget stack p).2 d ih.1
      exact ⟨this.1, this.2.trans ih.2⟩

/-- More fuel only adds turns. -/
theorem turns_mono {fuel fuel' : Nat} (hle : fuel ≤ fuel') :
    r.turns fuel budget stack p <+: r.turns fuel' budget stack p := by
  induction hle with
  | refl => exact List.prefix_rfl
  | step _ ih => exact ih.trans (r.more_fuel _ budget stack p).1

/-! ## Drains without fuel -/

/-- A drain ends so, having done these deeds. -/
def Ends (r : DrainSetting) (budget : Option Nat) (stack : List Operation) (p : Progress)
    (deeds : List (Context × Progress)) (d : Drained) : Prop :=
  ∃ fuel, r.drain fuel budget stack p = some d ∧
    (r.turns fuel budget stack p).map Turn.deed = deeds

/-- The first deeds of a drain are these, whether or not it ends. -/
def Begins (r : DrainSetting) (budget : Option Nat) (stack : List Operation) (p : Progress)
    (deeds : List (Context × Progress)) : Prop :=
  ∃ fuel, deeds <+: (r.turns fuel budget stack p).map Turn.deed

/-- A drain that ends does so in one way, whatever the fuel. -/
theorem drain_unique {fuel fuel' : Nat} {d' : Drained} (h : r.drain fuel budget stack p = some d)
    (h' : r.drain fuel' budget stack p = some d') : d = d' := by
  have hmore := (drain_mono (Nat.le_max_left fuel fuel') h).1
  have hmore' := (drain_mono (Nat.le_max_right fuel fuel') h').1
  exact Option.some.inj (hmore.symm.trans hmore')

/-- A drain ends in one way only. -/
theorem Ends.unique {l l' : List (Context × Progress)} {d' : Drained}
    (h : r.Ends budget stack p l d) (h' : r.Ends budget stack p l' d') : l = l' ∧ d = d' := by
  obtain ⟨f, hd, hl⟩ := h
  obtain ⟨f', hd', hl'⟩ := h'
  have h1 := drain_mono (Nat.le_max_left f f') hd
  have h2 := drain_mono (Nat.le_max_right f f') hd'
  refine ⟨?_, drain_unique hd hd'⟩
  rw [← hl, ← hl', ← h1.2, ← h2.2]

end DrainSetting

end ScopeFlow
