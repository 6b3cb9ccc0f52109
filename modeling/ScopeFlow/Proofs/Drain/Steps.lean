import ScopeFlow.Proofs.Drain.Rules

/-!
# Drains as single steps

A drain that splits no collections is a chain of steps: one operator executed
after another, until it ends before the next one.

* `Fires` is such a step and `Stalls` such an end; a stack does one of the two
  (`fires_or_stalls`), since unpacking makes its operations fewer or smaller;
* `ends_iff_runs`: a drain ends exactly if its chain of steps does;
* `After` is what a drain has pending and how far it has come after so many
  operators, whether or not it ends, and `after_add` cuts it in two.
-/

namespace ScopeFlow

namespace Operation

mutual

/-- The size of an operation, its collections counted. -/
def weight : Operation → Nat
  | atomic _ => 1
  | sequence ops => 1 + weightOfAll ops
  | parallel ops => 1 + weightOfAll ops

/-- The size of several operations. -/
def weightOfAll : List Operation → Nat
  | [] => 0
  | op :: ops => op.weight + weightOfAll ops

end

theorem weightOfAll_append (xs ys : List Operation) :
    weightOfAll (xs ++ ys) = weightOfAll xs + weightOfAll ys := by
  induction xs with
  | nil => rw [List.nil_append, weightOfAll, Nat.zero_add]
  | cons op xs ih => rw [List.cons_append, weightOfAll, weightOfAll, ih, Nat.add_assoc]

end Operation

namespace DrainSetting

/-- Does a drain with this budget unpack every collection where it is? -/
def InPlace (r : DrainSetting) (budget : Option Nat) : Prop :=
  budget = none → r.config.parallel = false

/-- The first operator of a stack is executed, which leaves a stack and a
progress. -/
inductive Fires (r : DrainSetting) :
    List Operation → Progress → Context → List Operation → Progress → Prop
  | unpack {op : Operation} {ops rest stack' : List Operation} {q q' : Progress} {c : Context} :
      r.move (some 1) op q = .unpack ops → Fires r (ops ++ rest) q c stack' q' →
      Fires r (op :: rest) q c stack' q'
  | perform {op : Operation} {rest : List Operation} {q : Progress} {c : Context}
      {answer : Option Operation} {w' : World} :
      r.move (some 1) op q = .perform c →
      r.execute c rest.length q.world = (.ok answer, w') →
      Fires r (op :: rest) q c (answer.toList ++ rest) (q.advance w')

/-- The drain of a stack ends before an operator has been executed. -/
inductive Stalls (r : DrainSetting) : List Operation → Progress → Drained → Prop
  | nil (q : Progress) : Stalls r [] q ⟨.ended none, [], q⟩
  | halt {op : Operation} {rest : List Operation} {q : Progress} {why : Halt} :
      r.move (some 1) op q = .halt why →
      Stalls r (op :: rest) q ⟨.ended (some why), op :: rest, q⟩
  | unpack {op : Operation} {ops rest : List Operation} {q : Progress} {z : Drained} :
      r.move (some 1) op q = .unpack ops → Stalls r (ops ++ rest) q z →
      Stalls r (op :: rest) q z
  | error {op : Operation} {rest : List Operation} {q : Progress} {c : Context} {e : Failure}
      {w' : World} : r.move (some 1) op q = .perform c →
      r.execute c rest.length q.world = (.error e, w') →
      Stalls r (op :: rest) q ⟨.failed e, .atomic c :: rest, q.fall e w'⟩

/-- A chain of so many steps, and then an end. -/
inductive Runs (r : DrainSetting) : Nat → List Operation → Progress → Drained → Prop
  | stall {stack : List Operation} {q : Progress} {z : Drained} : r.Stalls stack q z →
      Runs r 0 stack q z
  | fire {stack stack' : List Operation} {q q' : Progress} {c : Context} {n : Nat} {z : Drained} :
      r.Fires stack q c stack' q' → Runs r n stack' q' z → Runs r (n + 1) stack q z

/-- What a drain without a budget has pending, and how far it has come, after
so many operators. -/
def After (r : DrainSetting) (n : Nat) (stack : List Operation) (p : Progress)
    (stack' : List Operation) (p' : Progress) : Prop :=
  ∃ fuel, ((stack, p) :: (r.turns fuel none stack p).map fun t => (t.stack, t.progress))[n]? =
    some (stack', p') ∧ p'.executed = p.executed + n

variable {r : DrainSetting} {budget : Option Nat} {op : Operation}
  {rest ops stack stack' : List Operation} {p p' : Progress} {l : List Deed} {d : Drained}
  {ctx : Context} {w : World} {next : Option Operation} {e : Failure} {n : Nat}

/-! ## Moves in place -/

theorem inPlace_step (n : Nat) : r.InPlace (some n) := nofun

theorem InPlace.separates (h : r.InPlace budget) (ops : List Operation) :
    r.separates budget ops = false := by
  unfold DrainSetting.separates
  cases budget with
  | none => simp [h rfl]
  | some steps => simp

/-- In place, all budgets make the same moves. -/
theorem InPlace.move (h : r.InPlace budget) (op : Operation) (p : Progress) :
    r.move budget op p = r.move (some 1) op p := by
  unfold DrainSetting.move
  cases r.halts? p with
  | some why => rfl
  | none =>
      cases op with
      | atomic ctx => rfl
      | sequence ops => rfl
      | parallel ops => simp only [h.separates, (inPlace_step (r := r) 1).separates]

theorem InPlace.not_split (h : r.InPlace budget) (op : Operation) (p : Progress)
    (ops : List Operation) : r.move budget op p ≠ .split ops := by
  intro hm
  obtain ⟨-, -, hsep⟩ := move_eq_split.mp hm
  rw [h.separates] at hsep
  cases hsep

/-- What is unpacked is smaller than the operation. -/
theorem weight_unpack (hm : r.move budget op p = .unpack ops) :
    Operation.weightOfAll ops < op.weight := by
  obtain ⟨-, rfl | ⟨rfl, -⟩⟩ := move_eq_unpack.mp hm
  · rw [Operation.weight]
    omega
  · rw [Operation.weight]
    omega

/-- Of every stack the first operator is executed, or its drain ends before. -/
theorem fires_or_stalls (r : DrainSetting) (stack : List Operation) (p : Progress) :
    (∃ ctx stack' p', r.Fires stack p ctx stack' p') ∨ ∃ d, r.Stalls stack p d := by
  generalize hn : Operation.weightOfAll stack = n
  induction n using Nat.strongRecOn generalizing stack with
  | _ n ih =>
      cases stack with
      | nil => exact .inr ⟨_, .nil p⟩
      | cons op rest =>
          cases hm : r.move (some 1) op p with
          | halt why => exact .inr ⟨_, .halt hm⟩
          | split ops => exact absurd hm ((inPlace_step 1).not_split op p ops)
          | unpack ops =>
              have hlt : Operation.weightOfAll (ops ++ rest) < n := by
                have := weight_unpack hm
                rw [← hn, Operation.weightOfAll_append, Operation.weightOfAll]
                omega
              rcases ih _ hlt (ops ++ rest) rfl with ⟨ctx, stack', p', h⟩ | ⟨d, h⟩
              · exact .inl ⟨ctx, stack', p', .unpack hm h⟩
              · exact .inr ⟨d, .unpack hm h⟩
          | perform ctx =>
              rcases he : r.execute ctx rest.length p.world with ⟨e | next, w⟩
              · exact .inr ⟨_, .error hm he⟩
              · exact .inl ⟨ctx, _, _, .perform hm he⟩

/-! ## Steps of a drain -/

/-- A drain of one step ends with it. -/
theorem Fires.ends_one (h : r.Fires stack p ctx stack' p') :
    r.Ends (some 1) stack p [(ctx, p')] ⟨.ended (some .budget), stack', p'⟩ := by
  induction h with
  | unpack hm _ ih => exact (ends_unpack hm).mpr ih
  | perform hm he => exact (ends_last hm he).mpr ⟨rfl, rfl⟩

/-- A drain that stalls ends so with every budget. -/
theorem Stalls.ends (h : r.Stalls stack p d) (hb : r.InPlace budget) :
    ∃ l, r.Ends budget stack p l d := by
  induction h with
  | nil q => exact ⟨[], ends_nil.mpr ⟨rfl, rfl⟩⟩
  | halt hm => exact ⟨[], (ends_halt (by rw [hb.move]; exact hm)).mpr ⟨rfl, rfl⟩⟩
  | unpack hm _ ih =>
      obtain ⟨l, h⟩ := ih
      exact ⟨l, (ends_unpack (by rw [hb.move]; exact hm)).mpr h⟩
  | error hm he => exact ⟨_, (ends_error (by rw [hb.move]; exact hm) he).mpr ⟨rfl, rfl⟩⟩

/-- A drain without a budget goes on behind its first step. -/
theorem Fires.shift (h : r.Fires stack p ctx stack' p') (hb : r.InPlace none) :
    ∃ k, ∀ fuel, r.drain (fuel + k) none stack p = r.drain fuel none stack' p' ∧
      r.turns (fuel + k) none stack p = ⟨ctx, stack', p'⟩ :: r.turns fuel none stack' p' := by
  induction h with
  | unpack hm _ ih =>
      obtain ⟨k, hk⟩ := ih
      refine ⟨k + 1, fun fuel => ?_⟩
      rw [← Nat.add_assoc, drain_unpack (by rw [hb.move]; exact hm),
        turns_unpack (by rw [hb.move]; exact hm)]
      exact hk fuel
  | perform hm he =>
      refine ⟨1, fun fuel => ?_⟩
      rw [drain_cons, turns, hb.move, hm]
      dsimp only
      rw [he]
      exact ⟨rfl, rfl⟩

/-- The turns of a drain that stalls: at most one, and it counts nothing. -/
theorem Stalls.turns_executed (h : r.Stalls stack p d) (hb : r.InPlace none) (fuel : Nat) :
    ∀ t ∈ r.turns fuel none stack p, t.progress.executed = p.executed := by
  induction h generalizing fuel with
  | nil q => cases fuel <;> simp
  | halt hm =>
      cases fuel with
      | zero => simp
      | succ fuel => simp [turns_halt (by rw [hb.move]; exact hm)]
  | unpack hm _ ih =>
      cases fuel with
      | zero => simp
      | succ fuel =>
          rw [turns_unpack (by rw [hb.move]; exact hm)]
          exact ih fuel
  | error hm he =>
      cases fuel with
      | zero => simp
      | succ fuel =>
          rw [turns, hb.move, hm]
          dsimp only
          rw [he]
          simp [Progress.fall]

/-- Steps are determined. -/
theorem Fires.unique {ctx' : Context} {stack'' : List Operation} {p'' : Progress}
    (h : r.Fires stack p ctx stack' p') (h' : r.Fires stack p ctx' stack'' p'') :
    ctx = ctx' ∧ stack' = stack'' ∧ p' = p'' := by
  have := h.ends_one.unique h'.ends_one
  simp only [List.cons.injEq, Prod.mk.injEq, and_true, Drained.mk.injEq, true_and] at this
  exact ⟨this.1.1, this.2⟩

theorem Fires.executed (h : r.Fires stack p ctx stack' p') :
    p'.executed = p.executed + 1 := by
  induction h with
  | unpack _ _ ih => exact ih
  | perform _ _ => rfl

theorem Stalls.executed (h : r.Stalls stack p d) : d.progress.executed = p.executed := by
  induction h with
  | nil q => rfl
  | halt _ => rfl
  | unpack _ _ ih => exact ih
  | error _ _ => rfl

/-! ## Whole runs -/

theorem Runs.executed (h : r.Runs n stack p d) : d.progress.executed = p.executed + n := by
  induction h with
  | stall h => exact h.executed
  | fire h _ ih => rw [ih, h.executed]; omega

/-- A drain ends exactly if its chain of steps does. -/
theorem ends_iff_runs (hb : r.InPlace none) :
    (∃ l, r.Ends none stack p l d) ↔ ∃ n, r.Runs n stack p d := by
  constructor
  · rintro ⟨l, fuel, hd, -⟩
    induction fuel using Nat.strongRecOn generalizing stack p with
    | _ fuel ih =>
        rcases r.fires_or_stalls stack p with ⟨ctx, stack', p', h⟩ | ⟨d', h⟩
        · obtain ⟨k, hk⟩ := h.shift hb
          -- A step takes fuel: without any the drain would end where it is.
          have hpos : 0 < k := by
            rcases Nat.eq_zero_or_pos k with rfl | hpos
            · have := congrArg List.length (hk 0).2
              simp at this
            · exact hpos
          rcases Nat.lt_or_ge fuel k with hlt | hle
          · have hmono := (drain_mono (Nat.le_of_lt hlt) hd).1
            have h0 := (hk 0).1
            rw [Nat.zero_add, drain_zero] at h0
            rw [h0] at hmono
            cases hmono
          · have hshift := (hk (fuel - k)).1
            rw [Nat.sub_add_cancel hle, hd] at hshift
            obtain ⟨n, hrun⟩ := ih (fuel - k) (by omega) hshift.symm
            exact ⟨n + 1, .fire h hrun⟩
        · obtain ⟨l', h'⟩ := h.ends hb
          have := (Ends.unique ⟨fuel, hd, rfl⟩ h').2
          exact ⟨0, .stall (this ▸ h)⟩
  · rintro ⟨n, h⟩
    induction h with
    | stall h => exact h.ends hb
    | fire h _ ih =>
        obtain ⟨l, fuel, hd, -⟩ := ih
        obtain ⟨k, hk⟩ := h.shift hb
        exact ⟨_, fuel + k, by rw [(hk fuel).1, hd], rfl⟩

/-! ## After so many operators -/

@[simp] theorem after_zero : r.After 0 stack p stack' p' ↔ stack' = stack ∧ p' = p := by
  unfold After
  simp only [List.getElem?_cons_zero, Option.some.injEq, Prod.mk.injEq, Nat.add_zero,
    exists_const]
  constructor
  · rintro ⟨⟨rfl, rfl⟩, -⟩
    exact ⟨rfl, rfl⟩
  · rintro ⟨rfl, rfl⟩
    exact ⟨⟨rfl, rfl⟩, rfl⟩

/-- Behind the first step one operator fewer is to come. -/
theorem Fires.after_succ {stack'' : List Operation} {p'' : Progress}
    (h : r.Fires stack p ctx stack'' p'') (hb : r.InPlace none) :
    r.After (n + 1) stack p stack' p' ↔ r.After n stack'' p'' stack' p' := by
  obtain ⟨k, hk⟩ := h.shift hb
  have hexec := h.executed
  constructor
  · rintro ⟨fuel, hget, hcount⟩
    refine ⟨fuel, ?_, by omega⟩
    -- The turn is still there with the fuel that the first step takes added.
    have hmore : r.turns fuel none stack p <+: r.turns (fuel + k) none stack p :=
      turns_mono (Nat.le_add_right fuel k)
    rw [List.getElem?_cons_succ] at hget
    have hget' := List.prefix_iff_getElem?.mp (hmore.map fun t => (t.stack, t.progress)) n
      (List.getElem?_eq_some_iff.mp hget).1
    rw [(List.getElem?_eq_some_iff.mp hget).2, (hk fuel).2, List.map_cons] at hget'
    exact hget'
  · rintro ⟨fuel, hget, hcount⟩
    refine ⟨fuel + k, ?_, by omega⟩
    rw [(hk fuel).2, List.map_cons, List.getElem?_cons_succ]
    exact hget

/-- A drain that stalls comes to no further operator. -/
theorem Stalls.not_after (h : r.Stalls stack p d) (hb : r.InPlace none) :
    ¬ r.After (n + 1) stack p stack' p' := by
  rintro ⟨fuel, hget, hcount⟩
  rw [List.getElem?_cons_succ, List.getElem?_map, Option.map_eq_some_iff] at hget
  obtain ⟨t, ht, heq⟩ := hget
  have := h.turns_executed hb fuel t (List.mem_of_getElem? ht)
  rw [Prod.mk.injEq] at heq
  rw [← heq.2] at hcount
  omega

/-- A drain cut in two: what comes after the first part is what the drain of
what was pending there comes to. -/
theorem after_add {m : Nat} {stack'' : List Operation} {p'' : Progress} (hb : r.InPlace none)
    (h : r.After m stack p stack' p') :
    r.After (m + n) stack p stack'' p'' ↔ r.After n stack' p' stack'' p'' := by
  induction m generalizing stack p with
  | zero =>
      obtain ⟨rfl, rfl⟩ := after_zero.mp h
      rw [Nat.zero_add]
  | succ m ih =>
      rcases r.fires_or_stalls stack p with ⟨ctx, stack₁, p₁, hf⟩ | ⟨d, hs⟩
      · rw [Nat.add_right_comm, hf.after_succ hb, ih ((hf.after_succ hb).mp h)]
      · exact absurd h (hs.not_after hb)

/-- What a drain has come to on the way ends as the drain does, and so many
steps earlier. -/
theorem runs_after (hb : r.InPlace none) (h : r.After n stack p stack' p') {m : Nat} :
    r.Runs m stack' p' d ↔ r.Runs (n + m) stack p d := by
  induction n generalizing stack p with
  | zero =>
      obtain ⟨rfl, rfl⟩ := after_zero.mp h
      rw [Nat.zero_add]
  | succ n ih =>
      rcases r.fires_or_stalls stack p with ⟨ctx, stack₁, p₁, hf⟩ | ⟨d', hs⟩
      · rw [ih ((hf.after_succ hb).mp h), Nat.add_right_comm]
        constructor
        · exact .fire hf
        · intro hrun
          cases hrun with
          | fire hf' hrun =>
              obtain ⟨-, rfl, rfl⟩ := hf.unique hf'
              exact hrun
      · exact absurd h (hs.not_after hb)

/-- A drain that ends with some number of steps has no more of them. -/
theorem Runs.le {m : Nat} (h : r.Runs m stack p d) (hb : r.InPlace none)
    (ha : r.After n stack p stack' p') : n ≤ m := by
  induction h generalizing n with
  | stall hs =>
      cases n with
      | zero => exact Nat.le_refl 0
      | succ n => exact absurd ha (hs.not_after hb)
  | fire hf _ ih =>
      cases n with
      | zero => exact Nat.zero_le _
      | succ n => exact Nat.succ_le_succ (ih ((hf.after_succ hb).mp ha))

end DrainSetting

end ScopeFlow
