import ScopeFlow.Proofs.Drain.Steps
import ScopeFlow.Proofs.Operator.Answers

/-!
# Runs of the built-in operators

Built-in operators work on the heap and make no requests, so a drain of them
has the same tokens and controls all along; and all that they schedule is of
the graph they were scheduled in, so that this holds of what follows too.
-/

namespace ScopeFlow

/-- Are all operators of the graph built in? -/
def SharedGraph.BuiltIn (g : SharedGraph) : Prop :=
  ∀ op ∈ g.graph.operators, op.kind.isBuiltIn = true

instance (g : SharedGraph) : Decidable g.BuiltIn :=
  inferInstanceAs (Decidable (∀ op ∈ g.graph.operators, op.kind.isBuiltIn = true))

/-- Does the program make no requests? -/
def Leaf.Silent : Leaf → Prop
  | done | fail _ | cancelled => True
  | value _ next => ∀ v, (next v).Silent
  | optional _ next => ∀ v, (next v).Silent
  | bool _ next => ∀ b, (next b).Silent
  | int _ next => ∀ i, (next i).Silent
  | double _ next => ∀ x, (next x).Silent
  | operator _ next => ∀ id, (next id).Silent
  | set _ _ next => next.Silent
  | remove _ next => next.Silent
  | random _ _ next => ∀ answers, (next answers).Silent
  | request _ _ => False
  | isCancelled next => ∀ c, (next c).Silent

/-- Is the operator built in, or a program that makes no requests? -/
def OperatorKind.Silent : OperatorKind → Prop
  | leaf program => program.Silent
  | _ => True

/-- Does no operator of the graph make requests? -/
def SharedGraph.Silent (g : SharedGraph) : Prop := ∀ op ∈ g.graph.operators, op.kind.Silent

theorem OperatorKind.silent_of_builtIn {kind : OperatorKind} (h : kind.isBuiltIn = true) :
    kind.Silent := by
  cases kind with
  | leaf program => cases h
  | _ => exact trivial

theorem SharedGraph.BuiltIn.silent {g : SharedGraph} (hg : g.BuiltIn) : g.Silent :=
  fun op hop => OperatorKind.silent_of_builtIn (hg op hop)

/-- Two worlds with the same tokens and controls. -/
structure World.SameRequests (w w' : World) : Prop where
  tokens : w'.tokens = w.tokens
  controls : w'.controls = w.controls

namespace World.SameRequests

variable {w w' w'' : World}

theorem refl : w.SameRequests w := ⟨rfl, rfl⟩

theorem trans (h : w.SameRequests w') (h' : w'.SameRequests w'') : w.SameRequests w'' :=
  ⟨h'.tokens.trans h.tokens, h'.controls.trans h.controls⟩

theorem control (h : w.SameRequests w') (c : ControlId) : w'.control c = w.control c := by
  rw [World.control, World.control, h.controls]

theorem halt? (h : w.SameRequests w') (c : ControlId) : w'.halt? c = w.halt? c := by
  unfold World.halt? World.isCancelled
  rw [h.control, h.tokens]

end World.SameRequests

/-- An execution of a built-in operator is its work on the heap. -/
theorem Operator.execute_builtIn {op : Operator} (h : op.kind.isBuiltIn = true) (setting : Setting)
    (ctx : Context) (w : World) :
    op.execute setting ctx w = World.onHeap (op.work (w.isCancelled setting.token) ctx) w := by
  have hleaf : op.runLeaf setting ctx = pure () := by
    unfold runLeaf
    cases hk : op.kind with
    | leaf program => rw [hk] at h; cases h
    | _ => rfl
  unfold execute
  rw [hleaf]
  rfl

/-- A built-in leaf without a successor does its work, and nothing is to go on
with. -/
theorem Context.execute_last {ctx : Context} {op : Operator} {act : Act Heap Unit}
    {setting : Setting} {w : World} (hop : ctx.operator = .ok op)
    (hbuiltIn : op.kind.isBuiltIn = true) (hlast : op.successor = none)
    (hwork : op.work (w.isCancelled setting.token) ctx = act >>= fun _ => ctx.successor) :
    ctx.execute setting w =
      ((act w.heap).1.map fun _ => none, { w with heap := (act w.heap).2 }) := by
  have hnothing : ∀ h, ctx.successor h = (.ok none, h) := by
    intro h
    unfold successor
    rw [Act.bind_apply, Act.ofExcept_apply, hop]
    dsimp only
    rw [hlast]
    rfl
  unfold execute
  rw [Act.bind_apply, Act.ofExcept_apply, hop]
  dsimp only
  rw [op.execute_builtIn hbuiltIn, World.onHeap_apply, hwork, Act.bind_apply]
  rcases act w.heap with ⟨e | ⟨⟩, h⟩
  · rfl
  · dsimp only
    rw [hnothing]
    rfl

theorem World.onHeap_bind {α β : Type} {x : Act Heap α} {f : α → Act Heap β}
    {g : α → Act World β} {w : World}
    (hfg : ∀ a h, g a { w with heap := h } = World.onHeap (f a) { w with heap := h }) :
    (World.onHeap x >>= g) w = World.onHeap (x >>= f) w := by
  rw [Act.bind_apply, World.onHeap_apply, World.onHeap_apply, Act.bind_apply]
  rcases x w.heap with ⟨e | a, h⟩
  · rfl
  · exact hfg a h

/-- What a program does to the heap, where it sees whether its token is
cancelled and its requests are left out. -/
def Leaf.effect (name : String) (cancelled : Bool) (ctx : Context) : Leaf → Act Heap Unit
  | done => pure ()
  | fail message => Act.fail (.operatorFailed name message)
  | Leaf.cancelled => Act.fail .cancelled
  | value p next => do
    let v ← ctx.value p
    (next v).effect name cancelled ctx
  | optional p next => do
    let i ← ctx.getOptional p
    let v ← Act.see fun h => i.map h.value
    (next v).effect name cancelled ctx
  | bool p next => do
    let b ← ctx.getBool p
    (next b).effect name cancelled ctx
  | int p next => do
    let i ← ctx.getInt p
    (next i).effect name cancelled ctx
  | double p next => do
    let x ← ctx.getDouble p
    (next x).effect name cancelled ctx
  | operator p next => do
    let id ← ctx.getOperator p
    (next id).effect name cancelled ctx
  | set p v next => do
    ctx.set p v
    next.effect name cancelled ctx
  | remove p next => do
    let _ ← ctx.remove p
    next.effect name cancelled ctx
  | random p calls next => do
    let answers ← ctx.withRandom p fun r => r.serve calls
    (next answers).effect name cancelled ctx
  | request _ next => next.effect name cancelled ctx
  | isCancelled next => (next cancelled).effect name cancelled ctx

/-- A run of a program that makes no requests is its effect on the heap. -/
theorem Leaf.run_silent {name : String} {setting : Setting} {ctx : Context} (program : Leaf)
    (hp : program.Silent) (w : World) :
    program.run name setting ctx w =
      World.onHeap (program.effect name (w.isCancelled setting.token) ctx) w := by
  induction program generalizing w with
  | done => rfl
  | fail message => rfl
  | cancelled => rfl
  | value p next ih => exact World.onHeap_bind fun v h => ih v (hp v) _
  | optional p next ih => exact World.onHeap_bind fun i h => ih (i.map h.value) (hp _) _
  | bool p next ih => exact World.onHeap_bind fun b h => ih b (hp b) _
  | int p next ih => exact World.onHeap_bind fun i h => ih i (hp i) _
  | double p next ih => exact World.onHeap_bind fun x h => ih x (hp x) _
  | operator p next ih => exact World.onHeap_bind fun id h => ih id (hp id) _
  | set p v next ih => exact World.onHeap_bind fun _ h => ih hp _
  | remove p next ih => exact World.onHeap_bind fun _ h => ih hp _
  | random p calls next ih => exact World.onHeap_bind fun answers h => ih answers (hp answers) _
  | request r next ih => exact hp.elim
  | isCancelled next ih => exact ih _ (hp _) w

/-- What an operator does to the heap before its work. -/
def Operator.leafEffect (op : Operator) (cancelled : Bool) (ctx : Context) : Act Heap Unit :=
  match op.kind with
  | .leaf program => program.effect op.name cancelled ctx
  | _ => pure ()

/-- What an operator does to the heap. -/
def Operator.effect (op : Operator) (cancelled : Bool) (ctx : Context) :
    Act Heap (Option Operation) := do
  op.leafEffect cancelled ctx
  op.work cancelled ctx

/-- An execution of an operator that makes no requests is its effect on the
heap. -/
theorem Operator.execute_silent {op : Operator} (h : op.kind.Silent) (setting : Setting)
    (ctx : Context) (w : World) :
    op.execute setting ctx w = World.onHeap (op.effect (w.isCancelled setting.token) ctx) w := by
  have hleaf : op.runLeaf setting ctx w =
      World.onHeap (op.leafEffect (w.isCancelled setting.token) ctx) w := by
    unfold runLeaf leafEffect
    cases hk : op.kind with
    | leaf program =>
        rw [hk] at h
        exact program.run_silent h w
    | _ => rfl
  unfold execute
  rw [Act.bind_apply, hleaf, ← Act.bind_apply]
  exact World.onHeap_bind fun _ _ => rfl

/-- An operator that a graph has under some identity is one of its operators. -/
theorem Graph.mem_of_get {g : Graph} {id : OperatorId} {op : Operator} (h : g.get id = .ok op) :
    op ∈ g.operators := by
  unfold Graph.get at h
  cases hget : g.get? id with
  | none => rw [hget] at h; cases h
  | some op' =>
      rw [hget] at h
      cases h
      exact Array.mem_of_getElem? hget

/-- The operator that a context binds is one of its graph. -/
theorem Context.operator_mem (ctx : Context) {op : Operator} {g : SharedGraph}
    (h : ctx.operator = .ok op) (hg : ctx.graph = g) : op ∈ g.graph.operators := by
  unfold operator at h
  rw [hg] at h
  cases hid : ctx.operatorId? with
  | none => rw [hid] at h; cases h
  | some id =>
      rw [hid] at h
      exact Graph.mem_of_get h

namespace DrainSetting

variable {r : DrainSetting} {g : SharedGraph} {ctx : Context} {w w' : World} {pending : Nat}
  {next : Option Operation} {e : Failure}

theorem execute_stack (h : pending + 1 > r.config.maxStackDepth) :
    r.execute ctx pending w = (.error (.graphCycle ctx.operatorName ("continuation exceeds " ++
      toString r.config.maxStackDepth ++ " operations")), w) :=
  congrFun (if_pos h) w

theorem execute_depth (h : ¬ pending + 1 > r.config.maxStackDepth)
    (hdepth : ctx.depth > r.config.maxContextDepth) :
    r.execute ctx pending w = (.error (.graphCycle ctx.operatorName
      ("execution contexts nested deeper than " ++ toString r.config.maxContextDepth)), w) :=
  congrFun ((if_neg h).trans (if_pos hdepth)) w

theorem execute_within (h : ¬ pending + 1 > r.config.maxStackDepth)
    (hdepth : ¬ ctx.depth > r.config.maxContextDepth) :
    r.execute ctx pending w = ctx.execute ⟨w.token r.control, some r.control⟩ w :=
  congrFun ((if_neg h).trans (if_neg hdepth)) w

/-- A bound refuses an execution whatever the world, or has no part in it. -/
theorem execute_cases (r : DrainSetting) (ctx : Context) (pending : Nat) :
    (∃ e, e.isCancellation = false ∧ ∀ w, r.execute ctx pending w = (.error e, w)) ∨
      ∀ w, r.execute ctx pending w = ctx.execute ⟨w.token r.control, some r.control⟩ w := by
  by_cases hs : pending + 1 > r.config.maxStackDepth
  · exact .inl ⟨_, rfl, fun w => execute_stack hs⟩
  · by_cases hc : ctx.depth > r.config.maxContextDepth
    · exact .inl ⟨_, rfl, fun w => execute_depth hs hc⟩
    · exact .inr fun w => execute_within hs hc

theorem execute_builtIn (r : DrainSetting) (hg : g.BuiltIn) (hctx : ctx.graph = g) (pending : Nat) (w : World) :
    w.SameRequests (r.execute ctx pending w).2 := by
  rcases r.execute_cases ctx pending with ⟨e, -, h⟩ | h
  · rw [h]
    exact .refl
  · rw [h, Context.execute, Act.bind_apply, Act.ofExcept_apply]
    cases hop : ctx.operator with
    | error e => exact .refl
    | ok op =>
        dsimp only
        rw [Operator.execute_builtIn (hg op (ctx.operator_mem hop hctx)), World.onHeap_apply]
        exact ⟨rfl, rfl⟩

/-- What an execution answers runs in the graph of its context. -/
theorem execute_answers (h : r.execute ctx pending w = (.ok next, w')) :
    Operation.AllRunIn next.toList ctx.graph := by
  rcases r.execute_cases ctx pending with ⟨e, -, h'⟩ | h'
  · rw [h'] at h
    cases h
  · rw [h', Context.execute, Act.bind_apply, Act.ofExcept_apply] at h
    cases hop : ctx.operator with
    | error e => rw [hop] at h; cases h
    | ok op =>
        rw [hop] at h
        dsimp only [Operator.execute] at h
        rw [Act.bind_apply] at h
        rcases hl : op.runLeaf ⟨w.token r.control, some r.control⟩ ctx w with ⟨e | u, w₁⟩
        · rw [hl] at h; cases h
        · rw [hl] at h
          dsimp only at h
          rw [Act.bind_apply, Act.see_apply] at h
          have hwork := (Act.Meets.onHeap (op.work_meets
            (w₁.isCancelled (w.token r.control)) ctx) w₁).1 next
          dsimp only at h
          rw [h] at hwork
          exact hwork rfl

variable {stack stack' : List Operation} {p p' : Progress} {d : Drained} {n : Nat}

section Moves

variable {budget : Option Nat} {op : Operation} {ops : List Operation}

theorem move_unpack_contexts (hm : r.move budget op p = .unpack ops) :
    op.contexts = Operation.contextsOfAll ops := by
  obtain ⟨-, rfl | ⟨rfl, -⟩⟩ := move_eq_unpack.mp hm
  · rfl
  · rfl

theorem move_split_contexts (hm : r.move budget op p = .split ops) :
    op.contexts = Operation.contextsOfAll ops := by
  obtain ⟨-, rfl, -⟩ := move_eq_split.mp hm
  rfl

end Moves

/-- One step leaves the requests as they are, and goes on in the same graph. -/
theorem Fires.builtIn (hg : g.BuiltIn) (h : r.Fires stack p ctx stack' p')
    (hs : Operation.AllRunIn stack g) : Operation.AllRunIn stack' g ∧
      p.world.SameRequests p'.world ∧ p'.fault = p.fault := by
  induction h with
  | unpack hm _ ih =>
      refine ih ?_
      rw [Operation.allRunIn_cons] at hs
      rw [Operation.allRunIn_append]
      refine ⟨fun c hc => hs.1 c ?_, hs.2⟩
      rw [move_unpack_contexts hm]
      exact hc
  | @perform op rest q c answer w' hm he =>
      obtain ⟨-, rfl⟩ := move_eq_perform.mp hm
      rw [Operation.allRunIn_cons, Operation.runsIn_atomic] at hs
      have hw : q.world.SameRequests w' := by
        have := r.execute_builtIn hg hs.1 rest.length q.world
        rwa [he] at this
      refine ⟨Operation.allRunIn_append.mpr ⟨?_, hs.2⟩, hw, rfl⟩
      rw [← hs.1]
      exact execute_answers he

/-- So do any number of steps. -/
theorem After.builtIn (hg : g.BuiltIn) (hb : r.InPlace none) (h : r.After n stack p stack' p')
    (hs : Operation.AllRunIn stack g) : Operation.AllRunIn stack' g ∧
      p.world.SameRequests p'.world ∧ p'.fault = p.fault := by
  induction n generalizing stack p with
  | zero =>
      obtain ⟨rfl, rfl⟩ := after_zero.mp h
      exact ⟨hs, .refl, rfl⟩
  | succ n ih =>
      rcases r.fires_or_stalls stack p with ⟨ctx, stack₁, p₁, hf⟩ | ⟨d, hst⟩
      · obtain ⟨hs₁, hw₁, hp₁⟩ := hf.builtIn hg hs
        obtain ⟨hs', hw', hp'⟩ := ih ((hf.after_succ hb).mp h) hs₁
        exact ⟨hs', hw₁.trans hw', hp'.trans hp₁⟩
      · exact absurd h (hst.not_after hb)

end DrainSetting

end ScopeFlow
