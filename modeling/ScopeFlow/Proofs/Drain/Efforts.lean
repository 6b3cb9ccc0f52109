import ScopeFlow.Proofs.Drain.Frame

/-!
# Efforts

What a drain has done is a list of turns. Together with how far the drain had
come before it, a turn is an effort, and says by itself what was executed where
and to what effect, whether it was answered or failed.

* `Turn.efforts` pairs turns with how far the drain had come before them, and
  `Turn.reach` is how far it has come after them;
* `Effort.count` is how many of some efforts are of a kind;
* an effort is `DrainSetting.Answers` or `DrainSetting.Fails`, never both.
-/

namespace ScopeFlow

/-- A turn of a drain, with how far the drain had come before it. -/
structure Effort extends Turn where
  before : Progress

namespace Turn

/-- Turns with how far the drain had come before each of them. -/
def efforts (p : Progress) : List Turn → List Effort
  | [] => []
  | t :: ts => ⟨t, p⟩ :: efforts t.progress ts

/-- How far a drain has come after some turns. -/
def reach (p : Progress) : List Turn → Progress
  | [] => p
  | t :: ts => reach t.progress ts

variable {p : Progress} {ts ts' : List Turn} {x : Effort}

theorem efforts_append (p : Progress) (ts ts' : List Turn) :
    efforts p (ts ++ ts') = efforts p ts ++ efforts (reach p ts) ts' := by
  induction ts generalizing p with
  | nil => rfl
  | cons t ts ih => exact congrArg (_ :: ·) (ih t.progress)

theorem reach_append (p : Progress) (ts ts' : List Turn) :
    reach p (ts ++ ts') = reach (reach p ts) ts' := by
  induction ts generalizing p with
  | nil => rfl
  | cons t ts ih => exact ih t.progress

@[simp] theorem length_efforts (p : Progress) (ts : List Turn) :
    (efforts p ts).length = ts.length := by
  induction ts generalizing p with
  | nil => rfl
  | cons t ts ih => exact congrArg (· + 1) (ih t.progress)

@[simp] theorem map_toTurn_efforts (p : Progress) (ts : List Turn) :
    (efforts p ts).map Effort.toTurn = ts := by
  induction ts generalizing p with
  | nil => rfl
  | cons t ts ih => exact congrArg (t :: ·) (ih t.progress)

theorem efforts_prefix (h : ts <+: ts') : efforts p ts <+: efforts p ts' := by
  obtain ⟨rest, rfl⟩ := h
  rw [efforts_append]
  exact List.prefix_append ..

/-- Where an effort stands among the turns of a drain. -/
theorem exists_of_mem_efforts (hx : x ∈ efforts p ts) :
    ∃ before after, ts = before ++ x.toTurn :: after ∧ x.before = reach p before := by
  induction ts generalizing p with
  | nil => cases hx
  | cons t ts ih =>
      rcases List.mem_cons.mp hx with rfl | hx
      · exact ⟨[], ts, rfl, rfl⟩
      · obtain ⟨before, after, rfl, hbefore⟩ := ih hx
        exact ⟨t :: before, after, rfl, hbefore⟩

end Turn

namespace Effort

variable {p q : Effort → Prop} {x : Effort} {xs ys : List Effort}

open scoped Classical in
/-- How many of some efforts are of a kind. -/
noncomputable def count (p : Effort → Prop) (xs : List Effort) : Nat := xs.countP fun x => p x

@[simp] theorem count_nil : count p [] = 0 := rfl

open scoped Classical in
theorem count_cons : count p (x :: xs) = count p xs + if p x then 1 else 0 := by
  simp only [count, List.countP_cons, decide_eq_true_eq]

theorem count_append : count p (xs ++ ys) = count p xs + count p ys := List.countP_append

theorem count_le_of_prefix (h : xs <+: ys) : count p xs ≤ count p ys := h.sublist.countP_le

open scoped Classical in
theorem count_mono (hpq : ∀ x ∈ xs, p x → q x) : count p xs ≤ count q xs :=
  List.countP_mono_left fun x hmem hx => decide_eq_true (hpq x hmem (of_decide_eq_true hx))

theorem forall_not_of_count (h : count p xs = 0) : ∀ x ∈ xs, ¬ p x := by
  simpa [count, List.countP_eq_zero] using h

theorem exists_of_count_pos (h : 0 < count p xs) : ∃ x ∈ xs, p x := by
  simpa [count, List.countP_pos_iff] using h

theorem count_or_le (p q : Effort → Prop) (xs : List Effort) :
    count (fun x => p x ∨ q x) xs ≤ count p xs + count q xs := by
  induction xs with
  | nil => exact Nat.le_refl 0
  | cons x xs ih =>
      rw [count_cons, count_cons, count_cons]
      by_cases hp : p x
      · rw [if_pos (.inl hp), if_pos hp]
        omega
      · by_cases hq : q x
        · rw [if_pos (.inr hq), if_neg hp, if_pos hq]
          omega
        · rw [if_neg (not_or.mpr ⟨hp, hq⟩)]
          omega

end Effort

namespace DrainSetting

variable {r : DrainSetting} {x : Effort} {rest rest' : List Operation}
  {next : Option Operation} {e e' : Failure} {w w' : World}

/-- The effort is an execution that answers `next`, of a context popped off a
stack that has `rest` left. -/
structure Answers (r : DrainSetting) (x : Effort) (rest : List Operation)
    (next : Option Operation) (w : World) : Prop where
  execute : r.execute x.ctx rest.length x.before.world = (.ok next, w)
  turn : x.toTurn = ⟨x.ctx, next.toList ++ rest, x.before.advance w⟩

/-- The effort is an execution that fails with `e`, of a context popped off a
stack that has `rest` left. -/
structure Fails (r : DrainSetting) (x : Effort) (rest : List Operation) (e : Failure)
    (w : World) : Prop where
  execute : r.execute x.ctx rest.length x.before.world = (.error e, w)
  turn : x.toTurn = ⟨x.ctx, .atomic x.ctx :: rest, x.before.fall e w⟩

/-- What fails is not counted. -/
theorem Fails.executed (hx : r.Fails x rest e w) : x.progress.executed = x.before.executed :=
  congrArg (fun t => t.progress.executed) hx.turn

theorem Answers.not_fails (hx : r.Answers x rest next w) : ¬ r.Fails x rest' e w' := by
  intro hfails
  have hcounted : x.progress.executed = x.before.executed + 1 :=
    congrArg (fun t => t.progress.executed) hx.turn
  rw [hfails.executed] at hcounted
  omega

/-- An effort fails in one way only. -/
theorem Fails.unique (hx : r.Fails x rest e w) (hx' : r.Fails x rest' e' w') : e = e' := by
  have hstack : Operation.atomic x.ctx :: rest = .atomic x.ctx :: rest' :=
    congrArg Turn.stack (hx.turn.symm.trans hx'.turn)
  have hexec := hx'.execute
  rw [← (List.cons.inj hstack).2, hx.execute] at hexec
  exact Except.error.inj (Prod.mk.inj hexec).1

end DrainSetting

end ScopeFlow
