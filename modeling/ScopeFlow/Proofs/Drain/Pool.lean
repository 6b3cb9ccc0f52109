import Mathlib.Algebra.BigOperators.Group.Multiset.Basic
import Mathlib.Algebra.GroupWithZero.Nat
import ScopeFlow.Proofs.Drain.Upkeep
import ScopeFlow.Proofs.Operator.Tasks

/-!
# Drains as runs of a pool

A drain keeps what is pending on stacks, and while branches are drained on
several. Which context is on which of them makes no difference to what an
execution does. So a drain is also a run of the pool of all pending contexts
(`DrainSetting.Works`): each effort takes a context out of the pool, executes
it, and puts in what it schedules; a context whose execution fails goes back.

* `Course.works` and `DrainSetting.drain_works`: the turns of every drain, whether or not it ends,
  are such a run, and what is pending at its end is the pool at the end;
* `Works.keeps`: what every execution keeps up holds all along a run, and
  `Works.accounts` keeps books on it;
* `DrainSetting.Blames`: an effort that fails is what the outcome names, unless
  it is a cancellation.
-/

namespace ScopeFlow

/-- The contexts pending in some operations, in no particular order. -/
def Operation.pool (ops : List Operation) : Multiset Context := ↑(contextsOfAll ops)

namespace Operation

variable {op : Operation} {ops ops' : List Operation} {c : Context}

theorem mem_pool : c ∈ pool ops ↔ c ∈ contextsOfAll ops := Multiset.mem_coe

theorem pool_append (ops ops' : List Operation) : pool (ops ++ ops') = pool ops + pool ops' := by
  rw [pool, contextsOfAll_append, pool, pool, Multiset.coe_add]

theorem pool_cons (op : Operation) (ops : List Operation) :
    pool (op :: ops) = pool [op] + pool ops :=
  pool_append [op] ops

theorem pool_atomic_cons (ctx : Context) (ops : List Operation) :
    pool (.atomic ctx :: ops) = ctx ::ₘ pool ops := rfl

end Operation

/-- A failure other than by cancellation has happened. -/
def Outcome.Faulty (o : Outcome) : Prop := ∃ e, o = .failed e ∧ e.isCancellation = false

theorem Joined.add_faulty {j : Joined} {b : BranchEnd} (h : j.outcome.Faulty ∨ b.outcome.Faulty) :
    (j.add b).outcome.Faulty := by
  obtain ⟨pending, halt, failure⟩ := j
  obtain ⟨outcome, stack⟩ := b
  rcases h with ⟨e, hj, he⟩ | ⟨e, hb, he⟩
  · cases failure with
    | none => cases hj
    | some e' =>
        obtain rfl : e' = e := Outcome.failed.inj hj
        cases outcome with
        | ended halt' => exact ⟨e', rfl, he⟩
        | failed e'' => exact ⟨_, rfl, by rw [if_neg (by simp [he]), he]⟩
  · cases hb
    cases failure with
    | none => exact ⟨e, rfl, he⟩
    | some e' =>
        refine ⟨_, rfl, ?_⟩
        cases hcancel : e'.isCancellation with
        | true => rw [if_pos rfl, he]
        | false => rw [if_neg Bool.false_ne_true, hcancel]

/-- Branches fail other than by cancellation if one of them does. -/
theorem joinBranches_faulty {ends : List BranchEnd} {b : BranchEnd} (hb : b ∈ ends)
    (h : b.outcome.Faulty) : (joinBranches ends).outcome.Faulty := by
  have hfold : ∀ (ends : List BranchEnd) (j : Joined),
      (j.outcome.Faulty ∨ ∃ b ∈ ends, b.outcome.Faulty) →
        (ends.foldl Joined.add j).outcome.Faulty := by
    intro ends
    induction ends with
    | nil => exact fun j hj => hj.resolve_right nofun
    | cons b ends ih =>
        intro j hj
        apply ih (j.add b)
        rcases hj with hold | ⟨b', hmem, hb'⟩
        · exact .inl (Joined.add_faulty (.inl hold))
        · rcases List.mem_cons.mp hmem with rfl | hmem
          · exact .inl (Joined.add_faulty (.inr hb'))
          · exact .inr ⟨b', hmem, hb'⟩
  exact hfold ends .empty (.inr ⟨b, hb, h⟩)

/-- The heap is good and contexts are fit before the effort and after it, those
that it leaves on its stack included. -/
structure Effort.Keeps (Good : Heap → Prop) (Fits : Heap → Context → Prop) (x : Effort) : Prop where
  before : Good x.before.world.heap
  ctx : Fits x.before.world.heap x.ctx
  after : Good x.progress.world.heap
  pending : ∀ c ∈ Operation.contextsOfAll x.stack, Fits x.progress.world.heap c

namespace DrainSetting

open Operation (contextsOfAll pool)

variable {r : DrainSetting} {M M' M'' N : Multiset Context} {p p' p'' q : Progress}
  {xs ys : List Effort} {ctx : Context} {fuel : Nat} {budget : Option Nat} {op : Operation}
  {ops rest : List Operation} {load : Load} {qs : List Progress} {u : Option Upshot}

/-! ## Bounds -/

/-- Past a bound an execution is refused and nothing is done. -/
theorem execute_refused {pending : Nat}
    (h : r.config.maxStackDepth < pending + 1 ∨ r.config.maxContextDepth < ctx.depth) :
    ∃ reason, ∀ w, r.execute ctx pending w = (.error (.graphCycle ctx.operatorName reason), w) := by
  by_cases hs : pending + 1 > r.config.maxStackDepth
  · exact ⟨_, fun w => execute_stack hs⟩
  · exact ⟨_, fun w => execute_depth hs (h.resolve_left hs)⟩

/-- What is not refused is the execution of the operator. -/
theorem execute_eq_ok {pending : Nat} {next : Option Operation} {w w' : World}
    (h : r.execute ctx pending w = (.ok next, w')) : pending + 1 ≤ r.config.maxStackDepth ∧
      ctx.depth ≤ r.config.maxContextDepth ∧
      ctx.execute ⟨w.token r.control, some r.control⟩ w = (.ok next, w') := by
  by_cases hs : pending + 1 > r.config.maxStackDepth
  · rw [execute_stack hs] at h
    cases h
  · by_cases hc : ctx.depth > r.config.maxContextDepth
    · rw [execute_depth hs hc] at h
      cases h
    · rw [execute_within hs hc] at h
      exact ⟨Nat.not_lt.mp hs, Nat.not_lt.mp hc, h⟩

/-! ## Runs -/

/-- A run of a pool of contexts: which efforts lead from which pool to which.
Between two efforts, some of the pool may be given up and whatever is not on
the heap may change, as it does from one call on an engine to the next. -/
inductive Works (r : DrainSetting) :
    Multiset Context → Progress → List Effort → Multiset Context → Progress → Prop
  | idle {M : Multiset Context} {p : Progress} : Works r M p [] M p
  | done {M M' : Multiset Context} {p p' : Progress} {xs : List Effort} {ctx : Context}
      {rest : List Operation} {next : Option Operation} {w : World} (hrest : pool rest ≤ M)
      (hx : r.execute ctx rest.length p.world = (.ok next, w))
      (later : Works r (pool next.toList + M) (p.advance w) xs M' p') :
      Works r (ctx ::ₘ M) p (⟨⟨ctx, next.toList ++ rest, p.advance w⟩, p⟩ :: xs) M' p'
  | failed {M M' : Multiset Context} {p p' : Progress} {xs : List Effort} {ctx : Context}
      {rest : List Operation} {e : Failure} {w : World} (hrest : pool rest ≤ M)
      (hx : r.execute ctx rest.length p.world = (.error e, w))
      (later : Works r (ctx ::ₘ M) (p.fall e w) xs M' p') :
      Works r (ctx ::ₘ M) p (⟨⟨ctx, .atomic ctx :: rest, p.fall e w⟩, p⟩ :: xs) M' p'
  | between {M M₁ M' : Multiset Context} {p q p' : Progress} {xs : List Effort} (hM : M₁ ≤ M)
      (hheap : q.world.heap = p.world.heap) (later : Works r M₁ q xs M' p') : Works r M p xs M' p'

namespace Works

theorem trans (h : r.Works M p xs M' p') (h' : r.Works M' p' ys M'' p'') :
    r.Works M p (xs ++ ys) M'' p'' := by
  induction h with
  | idle => exact h'
  | done hrest hx _ ih => exact .done hrest hx (ih h')
  | failed hrest hx _ ih => exact .failed hrest hx (ih h')
  | between hM hheap _ ih => exact .between hM hheap (ih h')

/-- What else is in the pool takes no part. -/
theorem frame (h : r.Works M p xs M' p') (N : Multiset Context) :
    r.Works (M + N) p xs (M' + N) p' := by
  induction h with
  | idle => exact .idle
  | done hrest hx _ ih =>
      rw [Multiset.cons_add]
      refine .done (hrest.trans (Multiset.le_add_right _ N)) hx ?_
      rwa [← add_assoc]
  | failed hrest hx _ ih =>
      rw [Multiset.cons_add] at ih ⊢
      exact .failed (hrest.trans (Multiset.le_add_right _ N)) hx ih
  | between hM hheap _ ih => exact .between (by gcongr) hheap ih

end Works

theorem pool_unpack (hm : r.move budget op p = .unpack ops) :
    pool (op :: rest) = pool (ops ++ rest) := by
  rw [pool, pool, contextsOfAll, move_unpack_contexts hm, Operation.contextsOfAll_append]

theorem pool_split (hm : r.move budget op p = .split ops) :
    pool (op :: rest) = pool ops + pool rest := by
  rw [← Operation.pool_append, pool, pool, contextsOfAll, move_split_contexts hm,
    Operation.contextsOfAll_append]

/-- Every effort of a run is an execution. -/
theorem Works.mem (h : r.Works M p xs M' p') {x : Effort} (hx : x ∈ xs) :
    (∃ rest next w, r.Answers x rest next w) ∨ ∃ rest e w, r.Fails x rest e w := by
  induction h with
  | idle => cases hx
  | done _ hexec _ ih =>
      rcases List.mem_cons.mp hx with rfl | hx
      · exact .inl ⟨_, _, _, hexec, rfl⟩
      · exact ih hx
  | failed _ hexec _ ih =>
      rcases List.mem_cons.mp hx with rfl | hx
      · exact .inr ⟨_, _, _, hexec, rfl⟩
      · exact ih hx
  | between _ _ _ ih => exact ih hx

/-- Every execution keeps up what is good of the heap, and which contexts are
fit; and what it answers is fit as well. -/
def KeepsUp (r : DrainSetting) (Good : Heap → Prop) (Fits : Heap → Context → Prop) : Prop :=
  ∀ w ctx pending, Good w.heap → Fits w.heap ctx →
    World.Bears (fun w => Good w.heap) (fun w => Fits w.heap) w (r.execute ctx pending w).2 ∧
      ∀ next, (r.execute ctx pending w).1 = .ok next →
        Operation.AllFit (fun w => Fits w.heap) (r.execute ctx pending w).2 next.toList

section Upkeep

variable {Good : Heap → Prop} {Fits : Heap → Context → Prop} {next : Option Operation}
  {w : World} {e : Failure} {pending : Nat}

/-- The heap is good and the pool is fit. -/
structure InOrder (Good : Heap → Prop) (Fits : Heap → Context → Prop) (h : Heap)
    (M : Multiset Context) : Prop where
  good : Good h
  fits : ∀ c ∈ M, Fits h c

theorem KeepsUp.done (hr : r.KeepsUp Good Fits) (h : InOrder Good Fits p.world.heap (ctx ::ₘ M))
    (hx : r.execute ctx pending p.world = (.ok next, w)) :
    InOrder Good Fits w.heap (pool next.toList + M) := by
  have hctx := h.fits ctx (Multiset.mem_cons_self ctx M)
  obtain ⟨hbears, hnext⟩ := hr p.world ctx pending h.good hctx
  rw [hx] at hbears hnext
  refine ⟨hbears.good, fun c hc => ?_⟩
  rcases Multiset.mem_add.mp hc with hc | hc
  · exact hnext next rfl c (Operation.mem_pool.mp hc)
  · exact hbears.fits c (h.fits c (Multiset.mem_cons_of_mem hc))

theorem KeepsUp.failed (hr : r.KeepsUp Good Fits) (h : InOrder Good Fits p.world.heap (ctx ::ₘ M))
    (hx : r.execute ctx pending p.world = (.error e, w)) :
    InOrder Good Fits w.heap (ctx ::ₘ M) := by
  obtain ⟨hbears, -⟩ := hr p.world ctx pending h.good (h.fits ctx (Multiset.mem_cons_self ctx M))
  rw [hx] at hbears
  exact ⟨hbears.good, fun c hc => hbears.fits c (h.fits c hc)⟩

/-- What every execution keeps up, a run does. -/
theorem Works.keeps (hr : r.KeepsUp Good Fits) (h : r.Works M p xs M' p')
    (hM : InOrder Good Fits p.world.heap M) :
    InOrder Good Fits p'.world.heap M' ∧ ∀ x ∈ xs, x.Keeps Good Fits := by
  induction h with
  | idle => exact ⟨hM, nofun⟩
  | @done M M' p p' xs ctx rest next w hrest hx _ ih =>
      have hafter := hr.done hM hx
      obtain ⟨hend, hlog⟩ := ih hafter
      refine ⟨hend, List.forall_mem_cons.mpr ⟨⟨hM.good, hM.fits ctx ?_, hafter.good, ?_⟩, hlog⟩⟩
      · exact Multiset.mem_cons_self ctx M
      · intro c hc
        rw [← Operation.mem_pool, Operation.pool_append] at hc
        exact hafter.fits c (Multiset.mem_of_le (by gcongr) hc)
  | @failed M M' p p' xs ctx rest e w hrest hx _ ih =>
      have hafter := hr.failed hM hx
      obtain ⟨hend, hlog⟩ := ih hafter
      refine ⟨hend, List.forall_mem_cons.mpr ⟨⟨hM.good, hM.fits ctx ?_, hafter.good, ?_⟩, hlog⟩⟩
      · exact Multiset.mem_cons_self ctx M
      · intro c hc
        rw [← Operation.mem_pool, Operation.pool_atomic_cons] at hc
        exact hafter.fits c (Multiset.mem_of_le (Multiset.cons_le_cons ctx hrest) hc)
  -- Between two calls contexts may only leave the pool, and the heap stays.
  | between hle hheap _ ih =>
      rw [← hheap] at hM
      exact ih ⟨hM.good, fun c hc => hM.fits c (Multiset.mem_of_le hle hc)⟩

/-- Where an effort of a run stands: it takes its context out of a pool that is
in order, and leaves part of the rest on its stack. -/
theorem Works.stands (hr : r.KeepsUp Good Fits) (h : r.Works M p xs M' p')
    (hM : InOrder Good Fits p.world.heap M) {x : Effort} (hx : x ∈ xs) :
    ∃ M rest, pool rest ≤ M ∧ InOrder Good Fits x.before.world.heap (x.ctx ::ₘ M) ∧
      ((∃ next w, r.Answers x rest next w) ∨ ∃ e w, r.Fails x rest e w) := by
  induction h with
  | idle => cases hx
  | done hrest hexec _ ih =>
      rcases List.mem_cons.mp hx with rfl | hx
      · exact ⟨_, _, hrest, hM, .inl ⟨_, _, hexec, rfl⟩⟩
      · exact ih (hr.done hM hexec) hx
  | failed hrest hexec _ ih =>
      rcases List.mem_cons.mp hx with rfl | hx
      · exact ⟨_, _, hrest, hM, .inr ⟨_, _, hexec, rfl⟩⟩
      · exact ih (hr.failed hM hexec) hx
  | between hle hheap _ ih =>
      rw [← hheap] at hM
      exact ih ⟨hM.good, fun c hc => hM.fits c (Multiset.mem_of_le hle hc)⟩ hx

open scoped Classical in
/-- A potential of heap and pool that pays for some efforts and is raised by
others pays for a whole run. -/
theorem Works.accounts (potential : Heap → Multiset Context → Nat) (spent : Effort → Prop)
    (gain : Effort → Nat) (hr : r.KeepsUp Good Fits)
    (hdone : ∀ {x rest next w M}, r.Answers x rest next w → pool rest ≤ M →
      InOrder Good Fits x.before.world.heap (x.ctx ::ₘ M) →
      (if spent x then 1 else 0) + potential w.heap (pool next.toList + M) ≤
        potential x.before.world.heap (x.ctx ::ₘ M) + gain x)
    (hfailed : ∀ {x rest e w M}, r.Fails x rest e w → pool rest ≤ M →
      InOrder Good Fits x.before.world.heap (x.ctx ::ₘ M) →
      (if spent x then 1 else 0) + potential w.heap (x.ctx ::ₘ M) ≤
        potential x.before.world.heap (x.ctx ::ₘ M) + gain x)
    (hless : ∀ {h M M'}, M' ≤ M → potential h M' ≤ potential h M)
    (h : r.Works M p xs M' p') (hM : InOrder Good Fits p.world.heap M) :
    Effort.count spent xs + potential p'.world.heap M' ≤
      potential p.world.heap M + (xs.map gain).sum := by
  induction h with
  | idle => simp
  | @done M M' p p' xs ctx rest next w hrest hx _ ih =>
      have hstep := hdone (x := ⟨⟨ctx, next.toList ++ rest, p.advance w⟩, p⟩) ⟨hx, rfl⟩ hrest hM
      have hlater := ih (hr.done hM hx)
      have hheap : (p.advance w).world = w := rfl
      rw [hheap] at hlater
      dsimp only at hstep
      rw [Effort.count_cons, List.map_cons, List.sum_cons]
      omega
  | @failed M M' p p' xs ctx rest e w hrest hx _ ih =>
      have hstep := hfailed (x := ⟨⟨ctx, .atomic ctx :: rest, p.fall e w⟩, p⟩) ⟨hx, rfl⟩ hrest hM
      have hlater := ih (hr.failed hM hx)
      have hheap : (p.fall e w).world = w := rfl
      rw [hheap] at hlater
      dsimp only at hstep
      rw [Effort.count_cons, List.map_cons, List.sum_cons]
      omega
  | @between M M₁ M' p q p' xs hle hheap _ ih =>
      rw [← hheap] at hM
      have hlater := ih ⟨hM.good, fun c hc => hM.fits c (Multiset.mem_of_le hle hc)⟩
      have hdrop := hless (h := p.world.heap) hle
      rw [hheap] at hlater
      omega

end Upkeep

/-- An effort fails other than by cancellation. -/
def Faults (r : DrainSetting) (x : Effort) : Prop :=
  ∃ rest e w, r.Fails x rest e w ∧ e.isCancellation = false

theorem Answers.not_faults {x : Effort} {rest : List Operation} {next : Option Operation}
    {w : World} (hx : r.Answers x rest next w) : ¬ r.Faults x :=
  fun ⟨_, _, _, hfails, _⟩ => hx.not_fails hfails

theorem Fails.isCancellation_of_faults {x : Effort} {rest : List Operation} {e : Failure}
    {w : World} (hx : r.Fails x rest e w) (hfaults : r.Faults x) : e.isCancellation = false := by
  obtain ⟨rest', e', w', hfails, he'⟩ := hfaults
  rwa [hx.unique hfails]

/-- How some drains ended is what their efforts say: where one failed, an effort
did so, and where an effort failed other than by cancellation, one did. -/
structure Blames (r : DrainSetting) (xs : List Effort) (outcomes : List Outcome) : Prop where
  failed : ∀ e, .failed e ∈ outcomes → ∃ x ∈ xs, ∃ rest w, r.Fails x rest e w
  faults : ∀ x ∈ xs, r.Faults x → ∃ o ∈ outcomes, o.Faulty

namespace Blames

variable {os os' : List Outcome} {ends : List BranchEnd} {x : Effort}

theorem nil (halt : Option Halt) : r.Blames [] [.ended halt] where
  failed e he := by simp at he
  faults := nofun

theorem single {rest : List Operation} {e : Failure} {w : World} (hx : r.Fails x rest e w) :
    r.Blames [x] [.failed e] where
  failed e' he' := by
    cases List.mem_singleton.mp he'
    exact ⟨x, List.mem_singleton_self x, rest, w, hx⟩
  faults y hy hfaults := by
    cases List.mem_singleton.mp hy
    exact ⟨_, List.mem_singleton_self _, e, rfl, hx.isCancellation_of_faults hfaults⟩

theorem cons (h : r.Blames xs os) (hx : ¬ r.Faults x) : r.Blames (x :: xs) os where
  failed e he := by
    obtain ⟨y, hy, hfails⟩ := h.failed e he
    exact ⟨y, List.mem_cons_of_mem x hy, hfails⟩
  faults y hy hfaults := by
    rcases List.mem_cons.mp hy with rfl | hy
    · exact absurd hfaults hx
    · exact h.faults y hy hfaults

theorem append (h : r.Blames xs os) (h' : r.Blames ys os') : r.Blames (xs ++ ys) (os ++ os') where
  failed e he := by
    rcases List.mem_append.mp he with he | he
    · obtain ⟨x, hx, hfails⟩ := h.failed e he
      exact ⟨x, List.mem_append_left ys hx, hfails⟩
    · obtain ⟨x, hx, hfails⟩ := h'.failed e he
      exact ⟨x, List.mem_append_right xs hx, hfails⟩
  faults x hx hfaults := by
    rcases List.mem_append.mp hx with hx | hx
    · obtain ⟨o, ho, hfaulty⟩ := h.faults x hx hfaults
      exact ⟨o, List.mem_append_left os' ho, hfaulty⟩
    · obtain ⟨o, ho, hfaulty⟩ := h'.faults x hx hfaults
      exact ⟨o, List.mem_append_right os ho, hfaulty⟩

/-- Drains that have ended without failure are not to blame. -/
theorem of_ended {halt : Option Halt} (h : r.Blames xs (.ended halt :: os)) : r.Blames xs os where
  failed e he := h.failed e (List.mem_cons_of_mem _ he)
  faults x hx hfaults := by
    obtain ⟨o, ho, hfaulty⟩ := h.faults x hx hfaults
    rcases List.mem_cons.mp ho with rfl | ho
    · obtain ⟨e, he, -⟩ := hfaulty
      cases he
    · exact ⟨o, ho, hfaulty⟩

/-- Branches are blamed together. -/
theorem join (h : r.Blames xs (ends.map BranchEnd.outcome)) :
    r.Blames xs [(joinBranches ends).outcome] where
  failed e he := by
    obtain ⟨b, hb, hbe⟩ := exists_of_joinBranches (List.mem_singleton.mp he).symm nofun
    exact h.failed e (List.mem_map.mpr ⟨b, hb, hbe⟩)
  faults x hx hfaults := by
    obtain ⟨o, ho, hfaulty⟩ := h.faults x hx hfaults
    obtain ⟨b, hb, rfl⟩ := List.mem_map.mp ho
    exact ⟨_, List.mem_singleton_self _, joinBranches_faulty hb hfaulty⟩

end Blames

/-- The efforts of a course are a run of the pool, and what they come to is the
pool at the end. -/
theorem Course.works (h : r.Course fuel load p xs qs u) :
    ∃ M, r.Works (pool load.ops) p xs M (Turn.reach p (xs.map Effort.toTurn)) ∧
      ∀ v, u = some v → M = v.contexts ∧ r.Blames xs (v.ends.map BranchEnd.outcome) := by
  induction h with
  | out => exact ⟨_, .idle, nofun⟩
  | dry | halt =>
      refine ⟨_, .idle, ?_⟩
      rintro v ⟨⟩
      rw [Upshot.contexts_upshot]
      exact ⟨rfl, .nil _⟩
  | unpack hm _ ih =>
      rw [Load.ops, pool_unpack hm]
      exact ih
  | stuck hm _ ih =>
      obtain ⟨M, hrun, -⟩ := ih
      rw [Load.ops, pool_split hm]
      exact ⟨_, hrun.frame _, nofun⟩
  | joined hm _ _ ih =>
      obtain ⟨M, hrun, hend⟩ := ih
      obtain ⟨rfl, hblames⟩ := hend _ rfl
      rw [Load.ops, pool_split hm]
      refine ⟨_, hrun.frame _, ?_⟩
      rintro v ⟨⟩
      rw [Upshot.contexts_upshot, Operation.contexts_stackOn, ← Multiset.coe_add]
      exact ⟨rfl, hblames.join⟩
  -- Branches that have run dry have emptied their part of the pool.
  | @through _ _ _ _ rest _ _ _ _ _ v _ hm branches hdry _ ihb ih =>
      obtain ⟨M, hrun, hend⟩ := ihb
      obtain ⟨rfl, hblames⟩ := hend v rfl
      obtain ⟨M', hlater, hend'⟩ := ih
      have hframe := hrun.frame (pool rest)
      rw [branches.reach v rfl, Upshot.contexts_of_dry hdry, Multiset.coe_nil, zero_add] at hframe
      rw [Load.ops, pool_split hm, List.map_append, Turn.reach_append, branches.reach v rfl]
      refine ⟨M', hframe.trans hlater, fun v' hv' => ?_⟩
      obtain ⟨hM, hblames'⟩ := hend' v' hv'
      have hjoined := hblames.join
      rw [(joinBranches_outcome_none _).mpr fun b hb => (hdry b hb).1] at hjoined
      exact ⟨hM, (hjoined.append hblames').of_ended⟩
  | @fail _ _ ctx rest p e w _ hx =>
      have hrun : r.Works (ctx ::ₘ pool rest) p [⟨⟨ctx, .atomic ctx :: rest, p.fall e w⟩, p⟩]
          (ctx ::ₘ pool rest) (p.fall e w) := .failed (le_refl _) hx .idle
      refine ⟨_, hrun, ?_⟩
      rintro v ⟨⟩
      rw [Upshot.contexts_upshot]
      exact ⟨rfl, .single ⟨hx, rfl⟩⟩
  | @last _ _ ctx rest p next w _ hx _ =>
      have hanswers : r.Answers ⟨⟨ctx, next.toList ++ rest, p.advance w⟩, p⟩ rest next w :=
        ⟨hx, rfl⟩
      have hrun : r.Works (ctx ::ₘ pool rest) p [⟨⟨ctx, next.toList ++ rest, p.advance w⟩, p⟩]
          (pool next.toList + pool rest) (p.advance w) := .done (le_refl _) hx .idle
      refine ⟨_, hrun, ?_⟩
      rintro v ⟨⟩
      rw [Upshot.contexts_upshot, ← Operation.pool_append]
      exact ⟨rfl, (Blames.nil _).cons hanswers.not_faults⟩
  | @perform _ _ _ ctx rest p next w _ _ _ _ hx _ _ ih =>
      have hanswers : r.Answers ⟨⟨ctx, next.toList ++ rest, p.advance w⟩, p⟩ rest next w :=
        ⟨hx, rfl⟩
      obtain ⟨M, hlater, hend⟩ := ih
      rw [Load.ops, Operation.pool_append] at hlater
      have hrun : r.Works (ctx ::ₘ pool rest) p _ M _ := .done (le_refl _) hx hlater
      refine ⟨M, hrun, fun v hv => ?_⟩
      obtain ⟨hM, hblames⟩ := hend v hv
      exact ⟨hM, hblames.cons hanswers.not_faults⟩
  | empty =>
      refine ⟨_, .idle, ?_⟩
      rintro v ⟨⟩
      exact ⟨rfl, (Blames.nil none).of_ended⟩
  | first _ ih =>
      obtain ⟨M, hrun, -⟩ := ih
      rw [Load.ops, Operation.pool_cons]
      exact ⟨_, hrun.frame _, nofun⟩
  | @next _ _ ops _ _ _ _ _ d _ branch _ ihb ih =>
      obtain ⟨M, hrun, hend⟩ := ihb
      obtain ⟨rfl, hblames⟩ := hend d.upshot rfl
      obtain ⟨M', hlater, hend'⟩ := ih
      -- While the others are drained, the pool holds what the branch has left.
      have hfirst := hrun.frame (pool ops)
      have hothers := hlater.frame (pool d.stack)
      have hreach := branch.reach d.upshot rfl
      rw [Upshot.progress_upshot] at hreach
      rw [hreach, Upshot.contexts_upshot] at hfirst
      rw [add_comm (pool _)] at hothers
      rw [Load.ops, Operation.pool_cons, List.map_append, Turn.reach_append, hreach]
      refine ⟨_, hfirst.trans hothers, fun v hv => ?_⟩
      obtain ⟨v', hv', rfl⟩ := Option.map_eq_some_iff.mp hv
      obtain ⟨rfl, hblames'⟩ := hend' v' hv'
      rw [Upshot.contexts_after, add_comm, ← Multiset.coe_add]
      exact ⟨rfl, hblames.append hblames'⟩

/-- Some turns are a run of the pool, and if the drain that they are of ends so,
then with the pool and the progress at the end of the run, and as the efforts
say. -/
def Mirrors (r : DrainSetting) (stack : List Operation) (p : Progress) (ts : List Turn)
    (result : Option Drained) : Prop :=
  ∃ M, r.Works (pool stack) p (Turn.efforts p ts) M (Turn.reach p ts) ∧
    ∀ d, result = some d → M = pool d.stack ∧ Turn.reach p ts = d.progress ∧
      r.Blames (Turn.efforts p ts) [d.outcome]

/-- The turns of a drain are a run of the pool of what is pending. -/
theorem drain_works (r : DrainSetting) (fuel : Nat) (budget : Option Nat)
    (stack : List Operation) (p : Progress) :
    r.Mirrors stack p (r.turns fuel budget stack p) (r.drain fuel budget stack p) := by
  obtain ⟨M, hrun, hend⟩ := (r.drain_course fuel budget stack p).works
  rw [Turn.map_toTurn_efforts] at hrun
  refine ⟨M, hrun, fun d hd => ?_⟩
  rw [hd] at hend
  obtain ⟨hM, hblames⟩ := hend d.upshot rfl
  rw [Upshot.contexts_upshot] at hM
  exact ⟨hM, reach_turns hd, hblames⟩

end DrainSetting

end ScopeFlow
