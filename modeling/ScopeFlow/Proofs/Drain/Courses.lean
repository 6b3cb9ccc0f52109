import ScopeFlow.Proofs.Drain.Bounded
import ScopeFlow.Proofs.Drain.Efforts
import ScopeFlow.Proofs.Operator.BuiltIn

/-!
# The course of a drain

All that happens in a drain, told once: which operators it executes, where it
stands each time it takes an operation off a stack, and what it leaves if it
ends. What holds of every drain, and of the branches drained inside it, is then
by induction on the course.

* `DrainSetting.looks` lists where a drain stands each time it takes an
  operation off a stack;
* `DrainSetting.Course` is the course of a stack or of branches, with one rule
  for each move, and `drain_course` says that every drain takes one;
* nothing is executed where a halt is due (`Course.unhalted`), and a drain that
  sees that one is due ends there (`Course.looked`);
* what fails is still pending at the end (`Course.pending`);
* `Lined`: without a failure, or up to the first one, operators are executed in
  line, each the first of all that is pending.
-/

namespace ScopeFlow

open Operation (contextsOfAll)

/-- What branches leave is put back with its contexts in order. -/
theorem Operation.contexts_stackOn (ends : List BranchEnd) (rest : List Operation) :
    contextsOfAll ((joinBranches ends).stackOn rest) =
      (ends.flatMap fun b => contextsOfAll b.stack) ++ contextsOfAll rest := by
  rw [Joined.stackOn, Operation.contextsOfAll_append, Operation.contexts_inParallel,
    joinBranches_pending]
  congr 1
  induction ends with
  | nil => rfl
  | cons b ends ih =>
      rw [List.flatMap_cons, ← ih]
      by_cases hempty : b.stack.isEmpty = true
      · rw [List.filterMap_cons, BranchEnd.remainder, if_pos hempty,
          List.isEmpty_iff.mp hempty]
        rfl
      · rw [List.filterMap_cons, BranchEnd.remainder, if_neg hempty]
        rfl

/-- What is to be drained. -/
inductive Load where
  /-- A stack, within a budget. -/
  | stack (budget : Option Nat) (ops : List Operation)
  /-- Branches, each on a stack of its own. -/
  | branches (ops : List Operation)

namespace Load

/-- The operations of a load. -/
def ops : Load → List Operation
  | stack _ ops => ops
  | branches ops => ops

/-- The budget of a load. Branches have none. -/
def budget : Load → Option Nat
  | stack budget _ => budget
  | branches _ => none

end Load

/-- What a load has come to: how its stack has ended, or each of its branches,
and how far the drain has come. -/
structure Upshot where
  ends : List BranchEnd
  progress : Progress

/-- The end of a drain as what its stack has come to. -/
def Drained.upshot (d : Drained) : Upshot := ⟨[⟨d.outcome, d.stack⟩], d.progress⟩

namespace Upshot

/-- The contexts that are left pending, in order. -/
def contexts (u : Upshot) : List Context := u.ends.flatMap fun b => contextsOfAll b.stack

/-- With one branch more, before the others. -/
def after (d : Drained) (u : Upshot) : Upshot := ⟨⟨d.outcome, d.stack⟩ :: u.ends, u.progress⟩

@[simp] theorem progress_upshot (d : Drained) : d.upshot.progress = d.progress := rfl

@[simp] theorem contexts_upshot (d : Drained) : d.upshot.contexts = contextsOfAll d.stack :=
  List.append_nil _

@[simp] theorem contexts_after (d : Drained) (u : Upshot) :
    (u.after d).contexts = contextsOfAll d.stack ++ u.contexts := rfl

theorem contexts_of_dry {u : Upshot} (hdry : ∀ b ∈ u.ends, b.outcome = .ended none ∧ b.stack = []) :
    u.contexts = [] := by
  rw [contexts, List.flatMap_eq_nil_iff]
  intro b hb
  rw [(hdry b hb).2]
  rfl

end Upshot

/-- Where branches drained one after another with `run` stand at each look,
where `log` lists the looks of one branch. -/
def branchLooks (run : Operation → Progress → Option Drained)
    (log : Operation → Progress → List Progress) : List Operation → Progress → List Progress
  | [], _ => []
  | op :: ops, p =>
    log op p ++ match run op p with
      | none => []
      | some d => branchLooks run log ops d.progress

namespace DrainSetting

/-- Where a drain stands each time it takes an operation off a stack and looks
whether a halt is due, as far as the fuel lasts. -/
def looks (r : DrainSetting) :
    (fuel : Nat) → (budget : Option Nat) → List Operation → Progress → List Progress
  | 0, _, _, _ => []
  | _ + 1, _, [], _ => []
  | fuel + 1, budget, op :: rest, p =>
    p :: match r.move budget op p with
      | .halt _ => []
      | .unpack ops => r.looks fuel budget (ops ++ rest) p
      | .split ops =>
        branchLooks (fun op p => r.drain fuel none [op] p) (fun op p => r.looks fuel none [op] p)
            ops p ++
          match drainBranches (fun op p => r.drain fuel none [op] p) ops p with
          | none => []
          | some (ends, p) =>
            match (joinBranches ends).outcome with
            | .ended none => r.looks fuel budget ((joinBranches ends).stackOn rest) p
            | _ => []
      | .perform ctx =>
        match r.execute ctx rest.length p.world with
        | (.ok next, w) =>
          match spend budget with
          | none => []
          | some budget => r.looks fuel budget (next.toList ++ rest) (p.advance w)
        | (.error _, _) => []

/-- The course of a load: the efforts made, where the drain stands at each look,
and what the load has come to, if the fuel lasts that long. -/
inductive Course (r : DrainSetting) :
    Nat → Load → Progress → List Effort → List Progress → Option Upshot → Prop
  /-- The fuel does not last. -/
  | out {budget stack p} : Course r 0 (.stack budget stack) p [] [] none
  /-- The stack is empty. -/
  | dry {fuel budget p} :
      Course r (fuel + 1) (.stack budget []) p [] [] (some (Drained.upshot ⟨.ended none, [], p⟩))
  | halt {fuel budget op rest p why} (hwhy : r.halts? p = some why) :
      Course r (fuel + 1) (.stack budget (op :: rest)) p [] [p]
        (some (Drained.upshot ⟨.ended (some why), op :: rest, p⟩))
  | unpack {fuel budget op ops rest p xs qs u} (hm : r.move budget op p = .unpack ops)
      (later : Course r fuel (.stack budget (ops ++ rest)) p xs qs u) :
      Course r (fuel + 1) (.stack budget (op :: rest)) p xs (p :: qs) u
  /-- The branches do not come to an end. -/
  | stuck {fuel budget op ops rest p xs qs} (hm : r.move budget op p = .split ops)
      (branches : Course r fuel (.branches ops) p xs qs none) :
      Course r (fuel + 1) (.stack budget (op :: rest)) p xs (p :: qs) none
  /-- A branch has halted or failed. -/
  | joined {fuel budget op ops rest p xs qs v} (hm : r.move budget op p = .split ops)
      (branches : Course r fuel (.branches ops) p xs qs (some v))
      (ho : (joinBranches v.ends).outcome ≠ .ended none) :
      Course r (fuel + 1) (.stack budget (op :: rest)) p xs (p :: qs)
        (some (Drained.upshot
          ⟨(joinBranches v.ends).outcome, (joinBranches v.ends).stackOn rest, v.progress⟩))
  /-- All branches have run dry. -/
  | through {fuel budget op ops rest p xs ys qs qs' v u} (hm : r.move budget op p = .split ops)
      (branches : Course r fuel (.branches ops) p xs qs (some v))
      (hdry : ∀ b ∈ v.ends, b.outcome = .ended none ∧ b.stack = [])
      (later : Course r fuel (.stack budget rest) v.progress ys qs' u) :
      Course r (fuel + 1) (.stack budget (op :: rest)) p (xs ++ ys) (p :: (qs ++ qs')) u
  | fail {fuel budget ctx rest p e w} (hh : r.halts? p = none)
      (hx : r.execute ctx rest.length p.world = (.error e, w)) :
      Course r (fuel + 1) (.stack budget (.atomic ctx :: rest)) p
        [⟨⟨ctx, .atomic ctx :: rest, p.fall e w⟩, p⟩] [p]
        (some (Drained.upshot ⟨.failed e, .atomic ctx :: rest, p.fall e w⟩))
  /-- An operator has been executed, and the budget is spent. -/
  | last {fuel budget ctx rest p next w} (hh : r.halts? p = none)
      (hx : r.execute ctx rest.length p.world = (.ok next, w)) (hs : spend budget = none) :
      Course r (fuel + 1) (.stack budget (.atomic ctx :: rest)) p
        [⟨⟨ctx, next.toList ++ rest, p.advance w⟩, p⟩] [p]
        (some (Drained.upshot ⟨.ended (some .budget), next.toList ++ rest, p.advance w⟩))
  | perform {fuel budget budget' ctx rest p next w xs qs u} (hh : r.halts? p = none)
      (hx : r.execute ctx rest.length p.world = (.ok next, w)) (hs : spend budget = some budget')
      (later : Course r fuel (.stack budget' (next.toList ++ rest)) (p.advance w) xs qs u) :
      Course r (fuel + 1) (.stack budget (.atomic ctx :: rest)) p
        (⟨⟨ctx, next.toList ++ rest, p.advance w⟩, p⟩ :: xs) (p :: qs) u
  /-- No branches are left. -/
  | empty {fuel p} : Course r fuel (.branches []) p [] [] (some ⟨[], p⟩)
  /-- The first branch does not come to an end. -/
  | first {fuel op ops p xs qs} (branch : Course r fuel (.stack none [op]) p xs qs none) :
      Course r fuel (.branches (op :: ops)) p xs qs none
  | next {fuel op ops p xs ys qs qs' d u}
      (branch : Course r fuel (.stack none [op]) p xs qs (some (Drained.upshot d)))
      (later : Course r fuel (.branches ops) d.progress ys qs' u) :
      Course r fuel (.branches (op :: ops)) p (xs ++ ys) (qs ++ qs') (u.map (Upshot.after d))

variable {r : DrainSetting} {fuel : Nat} {budget budget' : Option Nat} {op : Operation}
  {ops rest stack : List Operation} {p q : Progress} {ctx : Context} {next : Option Operation}
  {e : Failure} {w : World} {why : Halt} {x : Effort} {xs ys : List Effort}
  {qs qs' : List Progress} {load : Load} {u : Option Upshot} {v : Upshot} {d : Drained}

/-- How far the drain has come is said by its efforts. -/
theorem Course.reach (h : r.Course fuel load p xs qs u) :
    ∀ v, u = some v → Turn.reach p (xs.map Effort.toTurn) = v.progress := by
  induction h with
  | out => nofun
  | dry | halt | empty => rintro v ⟨⟩; rfl
  | unpack _ _ ih => exact ih
  | stuck => nofun
  | joined _ _ _ ih =>
      rintro v ⟨⟩
      have hreach := ih _ rfl
      exact hreach
  | through _ _ _ _ ihb ih =>
      intro v hv
      rw [List.map_append, Turn.reach_append, ihb _ rfl]
      exact ih v hv
  | fail | last => rintro v ⟨⟩; rfl
  | perform _ _ _ _ ih => exact ih
  | first => nofun
  | @next _ _ _ _ _ _ _ _ d _ _ _ ihb ih =>
      intro v hv
      obtain ⟨v', hv', rfl⟩ := Option.map_eq_some_iff.mp hv
      rw [List.map_append, Turn.reach_append, ihb _ rfl]
      exact ih v' hv'

/-! ## Every drain takes a course -/

/-- Branches take a course if each of them does. -/
theorem branches_course (hrun : ∀ op p, r.Course fuel (.stack none [op]) p
      (Turn.efforts p (r.turns fuel none [op] p)) (r.looks fuel none [op] p)
      ((r.drain fuel none [op] p).map Drained.upshot)) (ops : List Operation) :
    ∀ p, r.Course fuel (.branches ops) p
      (Turn.efforts p (branchTurns (fun op p => r.drain fuel none [op] p)
        (fun op p => r.turns fuel none [op] p) ops p))
      (branchLooks (fun op p => r.drain fuel none [op] p) (fun op p => r.looks fuel none [op] p)
        ops p)
      ((drainBranches (fun op p => r.drain fuel none [op] p) ops p).map fun x => ⟨x.1, x.2⟩) := by
  induction ops with
  | nil => exact fun p => .empty
  | cons op ops ih =>
      intro p
      have hfirst := hrun op p
      cases hd : r.drain fuel none [op] p with
      | none =>
          rw [hd] at hfirst
          simp only [branchTurns, branchLooks, drainBranches, hd, List.append_nil]
          exact .first hfirst
      | some d =>
          rw [hd] at hfirst
          have hreach : Turn.reach p (r.turns fuel none [op] p) = d.progress := by
            simpa using hfirst.reach _ rfl
          simp only [branchTurns, branchLooks, drainBranches, hd]
          rw [Turn.efforts_append, hreach]
          have hlater := Course.next hfirst (ih d.progress)
          cases hb : drainBranches (fun op p => r.drain fuel none [op] p) ops d.progress with
          | none =>
              rw [hb] at hlater
              exact hlater
          | some y =>
              rw [hb] at hlater
              exact hlater

/-- Every drain takes a course. -/
theorem drain_course (r : DrainSetting) (fuel : Nat) : ∀ budget stack p,
    r.Course fuel (.stack budget stack) p (Turn.efforts p (r.turns fuel budget stack p))
      (r.looks fuel budget stack p) ((r.drain fuel budget stack p).map Drained.upshot) := by
  induction fuel with
  | zero =>
      intro budget stack p
      rw [turns_zero, drain_zero, looks]
      exact .out
  | succ fuel ih =>
      intro budget stack p
      cases stack with
      | nil => exact .dry
      | cons op rest =>
          cases hm : r.move budget op p with
          | halt why =>
              rw [turns_halt hm, drain_halt hm, looks, hm]
              exact .halt (move_eq_halt.mp hm)
          | unpack ops =>
              rw [turns_unpack hm, drain_unpack hm, looks, hm]
              exact .unpack hm (ih budget (ops ++ rest) p)
          | split ops =>
              have hbranches := branches_course (fun op p => ih none [op] p) ops p
              cases hb : drainBranches (fun op p => r.drain fuel none [op] p) ops p with
              | none =>
                  rw [hb] at hbranches
                  rw [(drain_split_none hm hb).1, (drain_split_none hm hb).2, looks, hm]
                  simp only [hb, List.append_nil]
                  exact .stuck hm hbranches
              | some y =>
                  obtain ⟨ends, q⟩ := y
                  rw [hb] at hbranches
                  -- The branches have come as far as their efforts say, and there the drain
                  -- goes on.
                  have hq : Turn.reach p (branchTurns (fun op p => r.drain fuel none [op] p)
                      (fun op p => r.turns fuel none [op] p) ops p) = q := by
                    simpa using hbranches.reach _ rfl
                  by_cases ho : (joinBranches ends).outcome = .ended none
                  · rw [(drain_split_go hm hb ho).1, (drain_split_go hm hb ho).2, looks, hm,
                      Turn.efforts_append, hq, stackOn_of_dry hb ho]
                    simp only [hb, ho, stackOn_of_dry hb ho]
                    refine .through hm hbranches (fun b hmem => ?_) (ih budget rest q)
                    obtain ⟨op', p', d, hd, rfl⟩ := drainBranches_mem hb b hmem
                    have hdry := (joinBranches_outcome_none ends).mp ho _ hmem
                    exact ⟨hdry, (stack_eq_nil_iff fuel hd).mpr hdry⟩
                  · rw [(drain_split_end hm hb ho).1, (drain_split_end hm hb ho).2, looks, hm]
                    simp only [hb, List.append_nil]
                    exact .joined hm hbranches ho
          | perform ctx =>
              obtain ⟨hh, rfl⟩ := move_eq_perform.mp hm
              rcases hx : r.execute ctx rest.length p.world with ⟨e | next, w⟩
              · simp only [drain_cons, turns, looks, hm, hx]
                exact .fail hh hx
              · cases hs : spend budget with
                | none =>
                    simp only [drain_cons, turns, looks, hm, hx, hs]
                    exact .last hh hx hs
                | some budget' =>
                    simp only [drain_cons, turns, looks, hm, hx, hs]
                    exact .perform hh hx hs (ih budget' _ _)

/-- How far a drain has come at its end. -/
theorem reach_turns (hd : r.drain fuel budget stack p = some d) :
    Turn.reach p (r.turns fuel budget stack p) = d.progress := by
  have hcourse := r.drain_course fuel budget stack p
  rw [hd] at hcourse
  simpa using hcourse.reach d.upshot rfl

theorem reach_branchTurns {ends : List BranchEnd}
    (hb : drainBranches (fun op p => r.drain fuel none [op] p) ops p = some (ends, q)) :
    Turn.reach p (branchTurns (fun op p => r.drain fuel none [op] p)
      (fun op p => r.turns fuel none [op] p) ops p) = q := by
  have hcourse := branches_course (fun op p => r.drain_course fuel none [op] p) ops p
  rw [hb] at hcourse
  simpa using hcourse.reach _ rfl

/-! ## What every course keeps to -/

/-- A budget that is spent or has to be spent has been given. -/
theorem ne_none_of_spend {left : Option (Option Nat)} (hs : spend budget = left)
    (hleft : left ≠ some none) : budget ≠ none := by
  rintro rfl
  exact hleft hs.symm

namespace Course

/-- No operator is executed where a halt is due. -/
theorem unhalted (h : r.Course fuel load p xs qs u) : ∀ x ∈ xs, r.halts? x.before = none := by
  induction h with
  | out => nofun
  | dry => nofun
  | halt _ => nofun
  | unpack _ _ ih => exact ih
  | stuck _ _ ih => exact ih
  | joined _ _ _ ih => exact ih
  | through _ _ _ _ ihb ih => exact List.forall_mem_append.mpr ⟨ihb, ih⟩
  | fail hh _ => exact List.forall_mem_singleton.mpr hh
  | last hh _ _ => exact List.forall_mem_singleton.mpr hh
  | perform hh _ _ _ ih => exact List.forall_mem_cons.mpr ⟨hh, ih⟩
  | empty => nofun
  | first _ ih => exact ih
  | next _ _ ihb ih => exact List.forall_mem_append.mpr ⟨ihb, ih⟩

/-- A load that ends has had some fuel, unless there was nothing to drain. -/
theorem fuel_ne_zero (h : r.Course fuel (.stack budget stack) p xs qs (some v)) : fuel ≠ 0 := by
  cases h <;> exact Nat.succ_ne_zero _

/-- Where a halt is due, nothing is executed any more, and a load ends at once. -/
theorem still (h : r.Course fuel load p xs qs u) (hp : r.halts? p ≠ none) :
    xs = [] ∧ (∀ v, u = some v → v.progress = p) ∧ (fuel ≠ 0 → u ≠ none) := by
  induction h with
  | out => exact ⟨rfl, nofun, fun hfuel => absurd rfl hfuel⟩
  | dry => exact ⟨rfl, fun v hv => by cases hv; rfl, fun _ => nofun⟩
  | halt _ => exact ⟨rfl, fun v hv => by cases hv; rfl, fun _ => nofun⟩
  | unpack hm => exact absurd (move_eq_unpack.mp hm).1 hp
  | stuck hm => exact absurd (move_eq_split.mp hm).1 hp
  | joined hm => exact absurd (move_eq_split.mp hm).1 hp
  | through hm => exact absurd (move_eq_split.mp hm).1 hp
  | fail hh => exact absurd hh hp
  | last hh => exact absurd hh hp
  | perform hh => exact absurd hh hp
  | empty => exact ⟨rfl, fun v hv => by cases hv; rfl, fun _ => nofun⟩
  | first _ ih =>
      obtain ⟨hxs, -, hend⟩ := ih hp
      exact ⟨hxs, nofun, hend⟩
  | @next fuel op ops p xs ys qs qs' d u _ _ ihb ih =>
      obtain ⟨hxs, hprogress, -⟩ := ihb hp
      have hd : d.progress = p := hprogress d.upshot rfl
      rw [hd] at ih
      obtain ⟨hys, hlater, hend⟩ := ih hp
      refine ⟨by rw [hxs, hys]; rfl, fun v hv => ?_, fun hfuel => ?_⟩
      · obtain ⟨v', hv', rfl⟩ := Option.map_eq_some_iff.mp hv
        exact hlater v' hv'
      · rw [Ne, Option.map_eq_none_iff]
        exact hend hfuel

/-- What has run dry leaves nothing. -/
theorem stack_of_dry (h : r.Course fuel load p xs qs u) :
    ∀ v, u = some v → ∀ b ∈ v.ends, b.outcome = .ended none → b.stack = [] := by
  have hone : ∀ {d : Drained}, (d.outcome = .ended none → d.stack = []) →
      ∀ v, some d.upshot = some v → ∀ b ∈ v.ends, b.outcome = .ended none → b.stack = [] := by
    rintro d hd v ⟨⟩ b hb
    rw [List.mem_singleton.mp hb]
    exact hd
  induction h with
  | out => nofun
  | dry => exact hone fun _ => rfl
  | halt _ => exact hone nofun
  | unpack _ _ ih => exact ih
  | stuck => nofun
  | joined _ _ ho _ => exact hone fun hdry => absurd hdry ho
  | through _ _ _ _ _ ih => exact ih
  | fail => exact hone nofun
  | last => exact hone nofun
  | perform _ _ _ _ ih => exact ih
  | empty => rintro v ⟨⟩ b hb; cases hb
  | first => nofun
  | next _ _ ihb ih =>
      intro v hv
      obtain ⟨v', hv', rfl⟩ := Option.map_eq_some_iff.mp hv
      exact List.forall_mem_cons.mpr ⟨ihb _ rfl _ (List.mem_singleton_self _), ih v' hv'⟩

/-- What has halted has done so where a halt was due and seen to be, or else
because the budget was spent. -/
theorem halted (h : r.Course fuel load p xs qs u) :
    ∀ v, u = some v → ∀ b ∈ v.ends, ∀ why, b.outcome = .ended (some why) →
      (why = .budget ∧ load.budget ≠ none) ∨
        (r.halts? v.progress = some why ∧ v.progress ∈ qs) := by
  have hone : ∀ {d : Drained} {P : Halt → Prop}, (∀ why, d.outcome = .ended (some why) → P why) →
      ∀ b ∈ d.upshot.ends, ∀ why, b.outcome = .ended (some why) → P why := by
    intro d P hd b hb
    rw [List.mem_singleton.mp hb]
    exact hd
  induction h with
  | out => nofun
  | dry =>
      rintro v ⟨⟩
      exact hone nofun
  | halt hwhy =>
      rintro v ⟨⟩
      refine hone fun why hended => ?_
      cases hended
      exact .inr ⟨hwhy, List.mem_singleton_self _⟩
  | unpack _ _ ih =>
      exact fun v hv b hb why hended =>
        (ih v hv b hb why hended).imp_right
          fun ⟨hwhy, hlook⟩ => ⟨hwhy, List.mem_cons_of_mem _ hlook⟩
  | stuck => nofun
  -- What the branches have halted for together, one of them has halted for.
  | joined _ _ _ ih =>
      rintro v ⟨⟩
      refine hone fun why hended => ?_
      obtain ⟨b, hb, hbe⟩ := exists_of_joinBranches hended nofun
      obtain ⟨-, hno⟩ | ⟨hwhy, hlook⟩ := ih _ rfl b hb why hbe
      · exact absurd rfl hno
      · exact .inr ⟨hwhy, List.mem_cons_of_mem _ hlook⟩
  | through _ _ _ _ _ ih =>
      exact fun v hv b hb why hended => (ih v hv b hb why hended).imp_right fun ⟨hwhy, hlook⟩ =>
        ⟨hwhy, List.mem_cons_of_mem _ (List.mem_append_right _ hlook)⟩
  | fail =>
      rintro v ⟨⟩
      exact hone nofun
  | last _ _ hs =>
      rintro v ⟨⟩
      refine hone fun why hended => ?_
      cases hended
      exact .inl ⟨rfl, ne_none_of_spend hs nofun⟩
  | perform _ _ hs _ ih =>
      intro v hv b hb why hended
      rcases ih v hv b hb why hended with ⟨hwhy, hbudget⟩ | ⟨hwhy, hlook⟩
      · exact .inl ⟨hwhy, ne_none_of_spend hs fun hno => hbudget (Option.some.inj hno)⟩
      · exact .inr ⟨hwhy, List.mem_cons_of_mem _ hlook⟩
  | empty =>
      rintro v ⟨⟩ b hb
      cases hb
  | first => nofun
  | @next _ _ _ _ _ _ qs _ d _ _ later ihb ih =>
      intro v hv
      obtain ⟨v', hv', rfl⟩ := Option.map_eq_some_iff.mp hv
      refine List.forall_mem_cons.mpr ⟨fun why hended => ?_, fun b hb why hended => ?_⟩
      · have hseen : r.halts? d.progress = some why ∧ d.progress ∈ qs :=
          (ihb _ rfl _ (List.mem_singleton_self _) why hended).resolve_left fun h => h.2 rfl
        -- The branches after it halt where it has halted.
        have hstay : v'.progress = d.progress :=
          (later.still (by rw [hseen.1]; nofun)).2.1 v' hv'
        rw [← hstay] at hseen
        exact .inr ⟨hseen.1, List.mem_append_left _ hseen.2⟩
      · exact (ih v' hv' b hb why hended).imp_right fun ⟨hwhy, hlook⟩ =>
          ⟨hwhy, List.mem_append_right _ hlook⟩

/-- A look at which a halt is due ends the load where it stands: some part of
it halts there, or has failed before, and leaves something. -/
theorem looked (h : r.Course fuel load p xs qs u) (hq : q ∈ qs) (hwhy : r.halts? q = some why) :
    ∃ v, u = some v ∧ v.progress = q ∧ ∃ b ∈ v.ends, b.stack ≠ [] ∧
      (b.outcome = .ended (some why) ∨ ∃ e, b.outcome = .failed e) := by
  -- It is not the first look, where the drain has gone on.
  have hlater : ∀ {p : Progress} {qs : List Progress}, r.halts? p = none → q ∈ p :: qs →
      q ∈ qs := by
    intro p qs hp hq
    rcases List.mem_cons.mp hq with rfl | hq
    · rw [hp] at hwhy
      cases hwhy
    · exact hq
  induction h with
  | out => cases hq
  | dry => cases hq
  | halt hdue' =>
      obtain rfl := List.mem_singleton.mp hq
      obtain rfl : _ = why := Option.some.inj (hdue'.symm.trans hwhy)
      exact ⟨_, rfl, rfl, _, List.mem_singleton_self _, List.cons_ne_nil _ _, .inl rfl⟩
  | unpack hm _ ih =>
      exact ih (hlater (move_eq_unpack.mp hm).1 hq)
  | stuck hm _ ih =>
      obtain ⟨v, hv, -⟩ := ih (hlater (move_eq_split.mp hm).1 hq)
      cases hv
  | @joined _ _ _ _ _ _ _ _ v hm branches ho ih =>
      obtain ⟨v', hv, rfl, b, hb, hstack, -⟩ := ih (hlater (move_eq_split.mp hm).1 hq)
      obtain rfl := Option.some.inj hv
      refine ⟨_, rfl, rfl, _, List.mem_singleton_self _, stackOn_ne_nil_of_mem hb hstack, ?_⟩
      rcases hj : (joinBranches v.ends).outcome with (_ | why') | e
      · exact absurd hj ho
      · obtain ⟨b, hb, hended⟩ := exists_of_joinBranches hj nofun
        have hwhy' := ((branches.halted v rfl b hb why' hended).resolve_left fun h => h.2 rfl).1
        obtain rfl : why' = why := Option.some.inj (hwhy'.symm.trans hwhy)
        exact .inl rfl
      · exact .inr ⟨e, rfl⟩
  | @through _ _ _ _ _ _ _ _ _ _ v _ hm _ hdry _ ihb ih =>
      rcases List.mem_append.mp (hlater (move_eq_split.mp hm).1 hq) with hq | hq
      · obtain ⟨v', hv, -, b, hb, hstack, -⟩ := ihb hq
        obtain rfl := Option.some.inj hv
        exact absurd (hdry b hb).2 hstack
      · exact ih hq
  | fail hh => cases hlater hh hq
  | last hh => cases hlater hh hq
  | perform hh _ _ _ ih => exact ih (hlater hh hq)
  | empty => cases hq
  | first _ ih =>
      obtain ⟨v, hv, -⟩ := ih hq
      cases hv
  | @next _ _ _ _ _ _ _ _ d u branch later ihb ih =>
      rcases List.mem_append.mp hq with hq | hq
      · obtain ⟨v, hv, hprogress, b, hb, hended⟩ := ihb hq
        obtain rfl := Option.some.inj hv
        have hd : r.halts? d.progress ≠ none := by
          rw [show d.progress = q from hprogress, hwhy]
          nofun
        obtain ⟨-, hstay, hend⟩ := later.still hd
        obtain ⟨v', rfl⟩ := Option.ne_none_iff_exists'.mp (hend branch.fuel_ne_zero)
        exact ⟨v'.after d, rfl, (hstay v' rfl).trans hprogress, b,
          List.mem_cons.mpr (.inl (List.mem_singleton.mp hb)), hended⟩
      · obtain ⟨v, rfl, hprogress, b, hb, hended⟩ := ih hq
        exact ⟨v.after d, rfl, hprogress, b, List.mem_cons_of_mem _ hb, hended⟩

/-- What has failed has done so with an effort. -/
theorem failed (h : r.Course fuel load p xs qs u) :
    ∀ v, u = some v → ∀ b ∈ v.ends, ∀ e, b.outcome = .failed e →
      ∃ x ∈ xs, ∃ rest w, r.Fails x rest e w := by
  induction h with
  | out => nofun
  | dry => rintro v ⟨⟩ b hb e hfailed; rw [List.mem_singleton.mp hb] at hfailed; cases hfailed
  | halt => rintro v ⟨⟩ b hb e hfailed; rw [List.mem_singleton.mp hb] at hfailed; cases hfailed
  | unpack _ _ ih => exact ih
  | stuck => nofun
  | joined _ _ _ ih =>
      rintro v ⟨⟩ b hb e hfailed
      rw [List.mem_singleton.mp hb] at hfailed
      obtain ⟨b', hb', hfailed'⟩ := exists_of_joinBranches hfailed nofun
      exact ih _ rfl b' hb' e hfailed'
  | through _ _ _ _ _ ih =>
      intro v hv b hb e hfailed
      obtain ⟨x, hx, hfails⟩ := ih v hv b hb e hfailed
      exact ⟨x, List.mem_append_right _ hx, hfails⟩
  | fail _ hx =>
      rintro v ⟨⟩ b hb e hfailed
      rw [List.mem_singleton.mp hb] at hfailed
      cases hfailed
      exact ⟨_, List.mem_singleton_self _, _, _, hx, rfl⟩
  | last => rintro v ⟨⟩ b hb e hfailed; rw [List.mem_singleton.mp hb] at hfailed; cases hfailed
  | perform _ _ _ _ ih =>
      intro v hv b hb e hfailed
      obtain ⟨x, hx, hfails⟩ := ih v hv b hb e hfailed
      exact ⟨x, List.mem_cons_of_mem _ hx, hfails⟩
  | empty => rintro v ⟨⟩ b hb; cases hb
  | first => nofun
  | next _ _ ihb ih =>
      intro v hv
      obtain ⟨v', hv', rfl⟩ := Option.map_eq_some_iff.mp hv
      refine List.forall_mem_cons.mpr ⟨fun e hfailed => ?_, fun b hb e hfailed => ?_⟩
      · obtain ⟨x, hx, hfails⟩ := ihb _ rfl _ (List.mem_singleton_self _) e hfailed
        exact ⟨x, List.mem_append_left _ hx, hfails⟩
      · obtain ⟨x, hx, hfails⟩ := ih v' hv' b hb e hfailed
        exact ⟨x, List.mem_append_right _ hx, hfails⟩

/-- What has failed is still pending at the end. -/
theorem pending (h : r.Course fuel load p xs qs u) {x : Effort} {rest : List Operation}
    (hx : x ∈ xs) (hf : r.Fails x rest e w) : ∀ v, u = some v → x.ctx ∈ v.contexts := by
  induction h with
  | out => cases hx
  | dry => cases hx
  | halt => cases hx
  | unpack _ _ ih => exact ih hx
  | stuck => nofun
  -- What a branch leaves is put back with all its contexts.
  | joined _ _ _ ih =>
      rintro v ⟨⟩
      rw [Upshot.contexts_upshot, Operation.contexts_stackOn]
      exact List.mem_append_left _ (ih hx _ rfl)
  | through _ _ hdry _ ihb ih =>
      rcases List.mem_append.mp hx with hx | hx
      · -- A branch in which an operator has failed does not run dry.
        have hpending := ihb hx _ rfl
        rw [Upshot.contexts_of_dry hdry] at hpending
        cases hpending
      · exact ih hx
  | fail =>
      rintro v ⟨⟩
      obtain rfl := List.mem_singleton.mp hx
      rw [Upshot.contexts_upshot]
      exact List.mem_cons_self
  | last _ hexec =>
      obtain rfl := List.mem_singleton.mp hx
      exact absurd hf (Answers.not_fails ⟨hexec, rfl⟩)
  | perform _ hexec _ _ ih =>
      rcases List.mem_cons.mp hx with rfl | hx
      · exact absurd hf (Answers.not_fails ⟨hexec, rfl⟩)
      · exact ih hx
  | empty => cases hx
  | first => nofun
  | next _ _ ihb ih =>
      intro v hv
      obtain ⟨v', hv', rfl⟩ := Option.map_eq_some_iff.mp hv
      rw [Upshot.contexts_after, List.mem_append]
      rcases List.mem_append.mp hx with hx | hx
      · exact .inl (Upshot.contexts_upshot _ ▸ ihb hx _ rfl)
      · exact .inr (ih hx v' hv')

/-- A step that executes an operator has spent its budget, whatever has been
asked for by then. -/
theorem step (h : r.Course fuel (.stack (some 1) stack) p xs qs u) {next : Option Operation}
    (hx : x ∈ xs) (ha : r.Answers x rest next w) :
    ∀ v, u = some v → v = Drained.upshot ⟨.ended (some .budget), x.stack, x.progress⟩ := by
  generalize hload : Load.stack (some 1) stack = load at h
  induction h generalizing stack with
  | out => cases hx
  | dry => cases hx
  | halt => cases hx
  | unpack _ _ ih =>
      cases hload
      exact ih hx rfl
  | stuck hm =>
      cases hload
      exact absurd hm ((inPlace_step 1).not_split _ _ _)
  | joined hm =>
      cases hload
      exact absurd hm ((inPlace_step 1).not_split _ _ _)
  | through hm =>
      cases hload
      exact absurd hm ((inPlace_step 1).not_split _ _ _)
  | fail _ hexec =>
      obtain rfl := List.mem_singleton.mp hx
      exact absurd ⟨hexec, rfl⟩ ha.not_fails
  | last =>
      rintro v ⟨⟩
      obtain rfl := List.mem_singleton.mp hx
      rfl
  | perform _ _ hs =>
      cases hload
      cases hs
  | empty => cases hx
  | first => cases hload
  | next => cases hload

end Course

/-! ## In line -/

/-- Efforts made in line, from the contexts that are pending: each is made for
the first of them, and what it schedules takes its place. In the end come what
is pending then, and how far the drain has come; or nothing, if an effort has
failed, and then what comes after it need not be in line. -/
inductive Lined (r : DrainSetting) :
    List Context → Progress → List Effort → Option (List Context × Progress) → Prop
  | idle {line p} : Lined r line p [] (some (line, p))
  | done {line x xs rest next w left} (hx : r.Answers x rest next w)
      (later : Lined r (contextsOfAll next.toList ++ line) x.progress xs left) :
      Lined r (x.ctx :: line) x.before (x :: xs) left
  | failed {line x xs rest e w} (hx : r.Fails x rest e w) :
      Lined r (x.ctx :: line) x.before (x :: xs) none

namespace Lined

variable {line line' line'' : List Context} {left left' : Option (List Context × Progress)}

theorem of_nil (h : r.Lined line p [] left) : left = some (line, p) := by
  cases h
  rfl

/-- The first of them is made for the first in line. -/
theorem uncons (h : r.Lined line p (x :: xs) left) :
    ∃ later, line = x.ctx :: later ∧ p = x.before ∧
      ((∃ rest next w, r.Answers x rest next w ∧
          r.Lined (contextsOfAll next.toList ++ later) x.progress xs left) ∨
        left = none ∧ ∃ rest e w, r.Fails x rest e w) := by
  cases h with
  | done hx later => exact ⟨_, rfl, rfl, .inl ⟨_, _, _, hx, later⟩⟩
  | failed hx => exact ⟨_, rfl, rfl, .inr ⟨rfl, _, _, _, hx⟩⟩

/-- What stands further back in line takes no part. -/
theorem frame (h : r.Lined line p xs left) (back : List Context) :
    r.Lined (line ++ back) p xs (left.map fun y => (y.1 ++ back, y.2)) := by
  induction h with
  | idle => exact .idle
  | done hx _ ih =>
      rw [List.append_assoc] at ih
      exact .done hx ih
  | failed hx => exact .failed hx

theorem trans (h : r.Lined line p xs (some (line', q))) (h' : r.Lined line' q ys left) :
    r.Lined line p (xs ++ ys) left := by
  generalize hleft : some (line', q) = left' at h
  induction h with
  | idle =>
      cases hleft
      exact h'
  | done hx _ ih => exact .done hx (ih hleft)
  | failed hx => cases hleft

/-- Nothing is said about what comes after a failure. -/
theorem broken (h : r.Lined line p xs none) (ys : List Effort) :
    r.Lined line p (xs ++ ys) none := by
  generalize hleft : (none : Option (List Context × Progress)) = left at h
  induction h with
  | idle => cases hleft
  | done hx _ ih => exact .done hx (ih hleft)
  | failed hx => exact .failed hx

/-- They have come as far as the last of them. -/
theorem progress_eq (h : r.Lined line p xs (some (line', q))) :
    (xs.getLast?.map fun x => x.progress).getD p = q := by
  generalize hleft : some (line', q) = left at h
  induction h with
  | idle =>
      cases hleft
      rfl
  | @done _ x xs _ _ _ _ _ _ ih =>
      rw [← ih hleft]
      cases xs with
      | nil => rfl
      | cons y ys => rw [List.getLast?_cons_cons, List.getLast?_cons]; rfl
  | failed hx => cases hleft

/-- Efforts that have all been made in line have all been answered. -/
theorem answers (h : r.Lined line p xs left) (hleft : left ≠ none) :
    ∀ x ∈ xs, ∃ rest next w, r.Answers x rest next w := by
  induction h with
  | idle => nofun
  | done hx _ ih => exact List.forall_mem_cons.mpr ⟨⟨_, _, _, hx⟩, ih hleft⟩
  | failed _ => exact absurd rfl hleft

/-- Where the line is left, an effort has failed. -/
theorem exists_fails (h : r.Lined line p xs none) : ∃ x ∈ xs, ∃ rest e w, r.Fails x rest e w := by
  generalize hleft : (none : Option (List Context × Progress)) = left at h
  induction h with
  | idle => cases hleft
  | done _ _ ih =>
      obtain ⟨x, hx, hfails⟩ := ih hleft
      exact ⟨x, List.mem_cons_of_mem _ hx, hfails⟩
  | failed hx => exact ⟨_, List.mem_cons_self, _, _, _, hx⟩

end Lined

/-- A branch has run dry if all its efforts have been answered and a branch
after it executes anything. -/
theorem Course.dry_of_later {op : Operation} {ops : List Operation}
    (branch : r.Course fuel (.stack none [op]) p xs qs (some d.upshot))
    (hanswers : ∀ x ∈ xs, ∃ rest next w, r.Answers x rest next w)
    (later : r.Course fuel (.branches ops) d.progress ys qs' u) (hys : ys ≠ []) :
    d.stack = [] := by
  have hb : (⟨d.outcome, d.stack⟩ : BranchEnd) ∈ d.upshot.ends := List.mem_singleton_self _
  refine branch.stack_of_dry _ rfl _ hb ?_
  rcases ho : d.outcome with (_ | why) | e
  · rfl
  · obtain ⟨-, hno⟩ | ⟨hwhy, -⟩ := branch.halted _ rfl _ hb why ho
    · exact absurd rfl hno
    · refine absurd (later.still ?_).1 hys
      rw [show r.halts? d.progress = some why from hwhy]
      exact Option.some_ne_none why
  · obtain ⟨x, hx, rest, w, hfails⟩ := branch.failed _ rfl _ hb e ho
    obtain ⟨rest', next, w', hx'⟩ := hanswers x hx
    exact absurd hfails hx'.not_fails

/-- A course keeps in line, up to the first failure. -/
theorem Course.lined (h : r.Course fuel load p xs qs u) :
    ∃ left, r.Lined (contextsOfAll load.ops) p xs left ∧
      ∀ v, u = some v → left = none ∨ left = some (v.contexts, v.progress) := by
  induction h with
  | out => exact ⟨_, .idle, nofun⟩
  | dry => exact ⟨_, .idle, fun v hv => by cases hv; exact .inr rfl⟩
  | halt _ =>
      refine ⟨_, .idle, fun v hv => ?_⟩
      cases hv
      rw [Upshot.contexts_upshot]
      exact .inr rfl
  | unpack hm _ ih =>
      rw [Load.ops, contextsOfAll, move_unpack_contexts hm, ← Operation.contextsOfAll_append]
      exact ih
  | stuck hm _ ih =>
      obtain ⟨left, hline, -⟩ := ih
      rw [Load.ops, contextsOfAll, move_split_contexts hm]
      exact ⟨_, hline.frame _, nofun⟩
  | joined hm _ _ ih =>
      obtain ⟨left, hline, hleft⟩ := ih
      rw [Load.ops, contextsOfAll, move_split_contexts hm]
      refine ⟨_, hline.frame _, fun v hv => ?_⟩
      cases hv
      rw [Upshot.contexts_upshot, Operation.contexts_stackOn]
      rcases hleft _ rfl with rfl | rfl
      · exact .inl rfl
      · exact .inr rfl
  | @through _ _ _ _ _ _ _ _ _ _ v _ hm _ hdry _ ihb ih =>
      obtain ⟨left, hline, hleft⟩ := ihb
      obtain ⟨left', hline', hleft'⟩ := ih
      -- The branches have left nothing, so the line goes on behind them.
      have hnil := Upshot.contexts_of_dry hdry
      have hframe := hline.frame
      rw [Load.ops, contextsOfAll, move_split_contexts hm]
      rcases hleft v rfl with rfl | rfl
      · exact ⟨none, (hframe _).broken _, fun _ _ => .inl rfl⟩
      · rw [hnil] at hframe
        exact ⟨left', (hframe _).trans hline', hleft'⟩
  -- From a failure on nothing is said any more.
  | @fail _ _ ctx rest p e w _ hx =>
      have hfails : r.Fails ⟨⟨ctx, .atomic ctx :: rest, p.fall e w⟩, p⟩ rest e w := ⟨hx, rfl⟩
      exact ⟨none, Lined.failed hfails, fun _ _ => .inl rfl⟩
  | @last _ _ ctx rest p next w _ hx _ =>
      have hanswers : r.Answers ⟨⟨ctx, next.toList ++ rest, p.advance w⟩, p⟩ rest next w :=
        ⟨hx, rfl⟩
      refine ⟨_, Lined.done hanswers .idle, fun v hv => ?_⟩
      cases hv
      rw [Upshot.contexts_upshot, Operation.contextsOfAll_append]
      exact .inr rfl
  | @perform _ _ _ ctx rest p next w _ _ _ _ hx _ _ ih =>
      have hanswers : r.Answers ⟨⟨ctx, next.toList ++ rest, p.advance w⟩, p⟩ rest next w :=
        ⟨hx, rfl⟩
      obtain ⟨left, hline, hleft⟩ := ih
      rw [Load.ops, Operation.contextsOfAll_append] at hline
      exact ⟨left, Lined.done hanswers hline, hleft⟩
  | empty => exact ⟨_, .idle, fun v hv => by cases hv; exact .inr rfl⟩
  | first _ ih =>
      obtain ⟨left, hline, -⟩ := ih
      rw [Load.ops, contextsOfAll]
      rw [Load.ops, contextsOfAll, contextsOfAll, List.append_nil] at hline
      exact ⟨_, hline.frame _, nofun⟩
  | @next _ op ops p xs ys _ _ d u branch later ihb ih =>
      obtain ⟨left, hline, hleft⟩ := ihb
      obtain ⟨left', hline', hleft'⟩ := ih
      rw [Load.ops, contextsOfAll, contextsOfAll, List.append_nil] at hline
      rw [Load.ops, contextsOfAll]
      rcases hleft _ rfl with rfl | rfl
      · exact ⟨none, (hline.frame _).broken ys, fun _ _ => .inl rfl⟩
      · rw [Upshot.contexts_upshot] at hline
        have hframe : r.Lined (op.contexts ++ contextsOfAll ops) p xs
            (some (contextsOfAll d.stack ++ contextsOfAll ops, d.progress)) := hline.frame _
        -- The branches after this one have executed nothing, or else it has run dry.
        by_cases hys : ys = []
        · subst hys
          rw [List.append_nil]
          refine ⟨_, hframe, fun v hv => ?_⟩
          obtain ⟨v', hv', rfl⟩ := Option.map_eq_some_iff.mp hv
          obtain rfl := hline'.of_nil
          obtain ⟨hcontexts, hprogress⟩ :=
            Prod.mk.inj (Option.some.inj ((hleft' v' hv').resolve_left (Option.some_ne_none _)))
          rw [Upshot.contexts_after, ← hcontexts, hprogress]
          exact .inr rfl
        · have hnil : d.stack = [] :=
            branch.dry_of_later (hline.answers (Option.some_ne_none _)) later hys
          rw [hnil] at hframe
          refine ⟨left', hframe.trans hline', fun v hv => ?_⟩
          obtain ⟨v', hv', rfl⟩ := Option.map_eq_some_iff.mp hv
          rw [Upshot.contexts_after, hnil]
          exact hleft' v' hv'

/-! ## One drain -/

theorem drain_halted (hd : r.drain fuel budget stack p = some d)
    (ho : d.outcome = .ended (some why)) : (why = .budget ∧ budget ≠ none) ∨
      (r.halts? d.progress = some why ∧ d.progress ∈ r.looks fuel budget stack p) := by
  have hcourse := r.drain_course fuel budget stack p
  rw [hd] at hcourse
  exact hcourse.halted d.upshot rfl _ (List.mem_singleton_self _) why ho

theorem drain_dry (hd : r.drain fuel budget stack p = some d) (ho : d.outcome = .ended none) :
    d.stack = [] := by
  have hcourse := r.drain_course fuel budget stack p
  rw [hd] at hcourse
  exact hcourse.stack_of_dry d.upshot rfl _ (List.mem_singleton_self _) ho

theorem drain_failed (hd : r.drain fuel budget stack p = some d) (ho : d.outcome = .failed e) :
    ∃ x ∈ Turn.efforts p (r.turns fuel budget stack p), ∃ rest w, r.Fails x rest e w := by
  have hcourse := r.drain_course fuel budget stack p
  rw [hd] at hcourse
  exact hcourse.failed d.upshot rfl _ (List.mem_singleton_self _) e ho

/-- A drain that fails leaves the operation that failed. -/
theorem stack_ne_nil_of_failed (hd : r.drain fuel budget stack p = some d)
    (ho : d.outcome = .failed e) : d.stack ≠ [] := by
  obtain ⟨x, hx, rest, w, hfails⟩ := drain_failed hd ho
  have hcourse := r.drain_course fuel budget stack p
  rw [hd] at hcourse
  have hpending := hcourse.pending hx hfails d.upshot rfl
  rw [Upshot.contexts_upshot] at hpending
  rintro hnil
  rw [hnil] at hpending
  cases hpending

/-- A drain keeps in line up to what it leaves on its stack, or up to a failure. -/
theorem drain_lined (hd : r.drain fuel budget stack p = some d) :
    ∃ left, r.Lined (contextsOfAll stack) p (Turn.efforts p (r.turns fuel budget stack p)) left ∧
      (left = none ∨ left = some (contextsOfAll d.stack, d.progress)) := by
  have hcourse := r.drain_course fuel budget stack p
  rw [hd] at hcourse
  obtain ⟨left, hline, hleft⟩ := hcourse.lined
  refine ⟨left, hline, ?_⟩
  have hends := hleft d.upshot rfl
  rwa [Upshot.contexts_upshot] at hends

/-- If nothing fails, a drain does not fail either, and keeps in line up to what
it leaves on its stack. -/
theorem drain_unfailed (hd : r.drain fuel budget stack p = some d)
    (hok : ∀ x ∈ Turn.efforts p (r.turns fuel budget stack p), ∀ rest e w, ¬ r.Fails x rest e w) :
    (∀ e, d.outcome ≠ .failed e) ∧
      r.Lined (contextsOfAll stack) p (Turn.efforts p (r.turns fuel budget stack p))
        (some (contextsOfAll d.stack, d.progress)) := by
  refine ⟨fun e ho => ?_, ?_⟩
  · obtain ⟨x, hx, rest, w, hfails⟩ := drain_failed hd ho
    exact hok x hx rest e w hfails
  · obtain ⟨left, hline, rfl | rfl⟩ := drain_lined hd
    · obtain ⟨x, hx, rest, e, w, hfails⟩ := hline.exists_fails
      exact absurd hfails (hok x hx rest e w)
    · exact hline

/-- A step that executes an operator ends after it, with what is pending then. -/
theorem drain_step (hd : r.drain fuel (some 1) stack p = some d) {next : Option Operation}
    (hx : x ∈ Turn.efforts p (r.turns fuel (some 1) stack p)) (ha : r.Answers x rest next w) :
    d.outcome = .ended (some .budget) ∧ d.stack = x.stack := by
  have hcourse := r.drain_course fuel (some 1) stack p
  rw [hd] at hcourse
  have hends := hcourse.step hx ha d.upshot rfl
  obtain ⟨hend, -⟩ := List.cons.inj (congrArg Upshot.ends hends)
  exact ⟨congrArg BranchEnd.outcome hend, congrArg BranchEnd.stack hend⟩

/-! ## Once a halt is due -/

/-- Once a halt is due, a drain has no more turns. -/
theorem no_more_turns {ts later : List Turn} (hturns : r.turns fuel budget stack p = ts ++ later)
    (hdue : r.halts? (Turn.reach p ts) ≠ none) : later = [] := by
  cases later with
  | nil => rfl
  | cons t later =>
      refine absurd ((r.drain_course fuel budget stack p).unhalted ⟨t, Turn.reach p ts⟩ ?_) hdue
      rw [hturns, Turn.efforts_append]
      exact List.mem_append_right _ List.mem_cons_self

/-- An effort after which a halt is due is the last one. -/
theorem last_of_due (hx : x ∈ Turn.efforts p (r.turns fuel budget stack p))
    (hdue : r.halts? x.progress ≠ none) : ∃ ts, r.turns fuel budget stack p = ts ++ [x.toTurn] ∧
      Turn.efforts p (r.turns fuel budget stack p) = Turn.efforts p ts ++ [x] ∧
      Turn.reach p (r.turns fuel budget stack p) = x.progress := by
  obtain ⟨before, after, hturns, hbefore⟩ := Turn.exists_of_mem_efforts hx
  have hreach : Turn.reach p (before ++ [x.toTurn]) = x.progress := by
    rw [Turn.reach_append]
    rfl
  have hsplit : r.turns fuel budget stack p = (before ++ [x.toTurn]) ++ after := by
    rw [hturns, List.append_assoc]
    rfl
  obtain rfl : after = [] := no_more_turns hsplit (by rwa [hreach])
  refine ⟨before, hturns, ?_, by rw [hturns, hreach]⟩
  rw [hturns, Turn.efforts_append, ← hbefore]
  rfl

/-- Once a halt is due, more fuel changes nothing about the turns, and enough of
it lets the drain end. -/
theorem ends_of_due (hdue : r.halts? (Turn.reach p (r.turns fuel budget stack p)) ≠ none) :
    (∀ fuel', fuel ≤ fuel' → r.turns fuel' budget stack p = r.turns fuel budget stack p) ∧
      ∃ fuel' d, fuel ≤ fuel' ∧ r.drain fuel' budget stack p = some d := by
  have hsame : ∀ fuel', fuel ≤ fuel' →
      r.turns fuel' budget stack p = r.turns fuel budget stack p := by
    intro fuel' hle
    have hmore : r.turns fuel budget stack p <+: r.turns fuel' budget stack p := turns_mono hle
    obtain ⟨later, hlater⟩ := hmore
    rw [← hlater, no_more_turns hlater.symm hdue, List.append_nil]
  refine ⟨hsame, ?_⟩
  have hbounded : r.Bounded (r.turns fuel budget stack p).length budget stack p := by
    intro fuel'
    rcases Nat.le_total fuel fuel' with hle | hle
    · exact Nat.le_of_eq (congrArg List.length (hsame fuel' hle))
    · exact (turns_mono hle).length_le
  obtain ⟨fuel', d, hd⟩ := ends_of_bounded r _ budget stack p hbounded
  exact ⟨max fuel fuel', d, Nat.le_max_left .., (drain_mono (Nat.le_max_right ..) hd).1⟩

end DrainSetting

end ScopeFlow
