import ScopeFlow.Operator.Execute
import ScopeFlow.Proofs.Operator.Meets

/-!
# What operators answer

Two facts about the operations that an execution answers and the failures that
it ends in, both read off the definitions of the operators:

* whatever is scheduled runs in the graph of the context that scheduled it;
* nothing but a cancelled token makes a built-in operator fail as cancelled.
-/

namespace ScopeFlow

open Act

/-- All contexts in an operation are of one graph. -/
def Operation.RunsIn (op : Operation) (g : SharedGraph) : Prop := ∀ c ∈ op.contexts, c.graph = g

/-- All contexts in several operations are of one graph. -/
def Operation.AllRunIn (ops : List Operation) (g : SharedGraph) : Prop :=
  ∀ c ∈ Operation.contextsOfAll ops, c.graph = g

namespace Operation

variable {op : Operation} {ops ops' : List Operation} {g : SharedGraph}

theorem contextsOfAll_append (xs ys : List Operation) :
    contextsOfAll (xs ++ ys) = contextsOfAll xs ++ contextsOfAll ys := by
  induction xs with
  | nil => rfl
  | cons op xs ih => rw [List.cons_append, contextsOfAll, contextsOfAll, ih, List.append_assoc]

@[simp] theorem allRunIn_nil : AllRunIn [] g := nofun

@[simp] theorem allRunIn_cons : AllRunIn (op :: ops) g ↔ op.RunsIn g ∧ AllRunIn ops g := by
  simp only [AllRunIn, RunsIn, contextsOfAll, List.mem_append, or_imp, forall_and]

@[simp] theorem allRunIn_append : AllRunIn (ops ++ ops') g ↔ AllRunIn ops g ∧ AllRunIn ops' g := by
  simp only [AllRunIn, contextsOfAll_append, List.mem_append, or_imp, forall_and]

@[simp] theorem runsIn_atomic {ctx : Context} : (atomic ctx).RunsIn g ↔ ctx.graph = g := by
  simp [RunsIn, contexts]

/-- Packing operations keeps their contexts. -/
theorem contexts_inSequence (ops : List Operation) :
    contextsOfAll (inSequence ops).toList = contextsOfAll ops := by
  match ops with
  | [] => rfl
  | [op] => rfl
  | op :: op' :: ops => simp only [inSequence, Option.toList, contextsOfAll, contexts,
      List.append_nil]

theorem contexts_inParallel (ops : List Operation) :
    contextsOfAll (inParallel ops).toList = contextsOfAll ops := by
  match ops with
  | [] => rfl
  | op :: ops => simp only [inParallel, Option.toList, contextsOfAll, contexts, List.append_nil]

theorem AllRunIn.inSequence (h : AllRunIn ops g) : AllRunIn (inSequence ops).toList g := by
  rw [AllRunIn, contexts_inSequence]
  exact h

theorem AllRunIn.inParallel (h : AllRunIn ops g) : AllRunIn (inParallel ops).toList g := by
  rw [AllRunIn, contexts_inParallel]
  exact h

end Operation

/-! ## Failures without cancellation -/

theorem Graph.get_error {g : Graph} {id : OperatorId} {e : Failure} (h : g.get id = .error e) :
    e.isCancellation = false := by
  unfold Graph.get at h
  cases hg : g.get? id with
  | some op => rw [hg] at h; cases h
  | none => rw [hg] at h; cases h; rfl

theorem Graph.need_error {g : Graph} {id : OperatorId} {e : Failure} (h : g.need id = .error e) :
    e.isCancellation = false := by
  unfold Graph.need at h
  cases hg : g.get id with
  | ok op => rw [hg] at h; cases h
  | error e' => rw [hg] at h; cases h; exact get_error hg

theorem Heap.checkType_error {h : Heap} {parameter : String} {type : ValueType} {i : ItemId}
    {e : Failure} (he : h.checkType parameter type i = .error e) : e.isCancellation = false := by
  unfold Heap.checkType at he
  by_cases ha : type.accepts (h.value i).type = true
  · rw [if_pos ha] at he; cases he
  · rw [if_neg ha] at he; cases he; rfl

theorem Heap.addChild_error {h : Heap} {s child : ScopeId} {e : Failure}
    (he : h.addChild s child = .error e) : e.isCancellation = false := by
  unfold Heap.addChild Heap.insertChild at he
  split at he
  · cases he; rfl
  · split at he
    · cases he; rfl
    · dsimp only at he
      split at he <;> cases he
      rfl

namespace Context

variable {ctx : Context} {e : Failure} {parameter : String} {type : ValueType} {α : Type}

theorem operator_error (h : ctx.operator = .error e) : e.isCancellation = false := by
  unfold operator at h
  cases hop : ctx.operatorId? with
  | some op => rw [hop] at h; exact Graph.get_error h
  | none => rw [hop] at h; cases h; rfl

theorem follow_error {g : Graph} {w : Passage} (h : ctx.follow g parameter type w = .error e) :
    e.isCancellation = false := by
  induction ctx generalizing w with
  | root i g' s =>
      unfold follow at h
      cases hf : followFrame g.parameters w.left [] w with
      | fixed value => rw [hf] at h; cases h
      | circle names => rw [hf] at h; cases h; rfl
      | above w' => rw [hf] at h; cases h
  | frame i op s t p ih =>
      unfold follow at h
      cases hg : g.get op with
      | error e' => rw [hg] at h; cases h; exact Graph.get_error hg
      | ok operator =>
          rw [hg] at h
          dsimp only at h
          cases hf : followFrame operator.parameters w.left [] w with
          | fixed value => rw [hf] at h; cases h
          | circle names => rw [hf] at h; cases h; rfl
          | above w' => rw [hf] at h; exact ih h

theorem parameters_error (h : ctx.parameters = .error e) : e.isCancellation = false := by
  unfold parameters at h
  cases hop : ctx.operatorId? with
  | none => rw [hop] at h; cases h
  | some op =>
      rw [hop] at h
      dsimp only at h
      cases hg : ctx.graph.graph.get op with
      | ok operator => rw [hg] at h; cases h
      | error e' => rw [hg] at h; cases h; exact Graph.get_error hg

theorem resolve_error (h : ctx.resolve parameter = .error e) : e.isCancellation = false := by
  unfold resolve at h
  cases hp : ctx.parameters with
  | error e' => rw [hp] at h; cases h; exact parameters_error hp
  | ok ps =>
      rw [hp] at h
      dsimp only at h
      cases hg : ps.get? parameter with
      | none => rw [hg] at h; cases h; rfl
      | some p => rw [hg] at h; exact follow_error h

/-! ## Access -/

theorem detached_uncancelled (i : ItemId) : (detached parameter type i).Uncancelled :=
  .bind (.look fun _ _ => Heap.checkType_error) fun _ => .change _

theorem get_uncancelled : (ctx.get parameter).Uncancelled := by
  unfold get
  refine .bind (.ofExcept fun _ => resolve_error) fun res => ?_
  rcases res with ⟨value, type⟩ | ⟨name, default, type⟩
  · exact detached_uncancelled value
  · refine .bind (.see _) fun found => ?_
    cases found with
    | some found =>
        exact .bind (.look fun _ _ => Heap.checkType_error) fun _ => .pure _
    | none =>
        cases default with
        | some value => exact detached_uncancelled value
        | none => exact .fail rfl

theorem getOptional_uncancelled : (ctx.getOptional parameter).Uncancelled := by
  intro s
  unfold getOptional
  rw [bind_apply, Act.attempt]
  have hget : ∀ e, (ctx.get parameter s).1 = .error e → e.isCancellation = false :=
    (get_uncancelled s).2
  rcases hs : ctx.get parameter s with ⟨e | i, s'⟩
  · refine ⟨fun _ _ => trivial, fun e' he' => ?_⟩
    have he := hget e (by rw [hs])
    cases e <;> first | (cases he'; exact he) | cases he'
  · exact ⟨fun _ _ => trivial, nofun⟩

theorem getVariable_uncancelled : (ctx.getVariable parameter).Uncancelled := by
  unfold getVariable
  refine .bind (.ofExcept fun _ => resolve_error) fun res => ?_
  rcases res with ⟨value, type⟩ | ⟨name, default, type⟩
  · exact .pure _
  · refine .bind (.see _) fun found => ?_
    cases found with
    | some found => exact .bind (.look fun _ _ => Heap.checkType_error) fun _ => .pure _
    | none => exact .pure _

theorem value_uncancelled : (ctx.value parameter).Uncancelled :=
  .bind get_uncancelled fun _ => .see _

theorem typed_uncancelled {as? : Value → Option α} :
    (ctx.typed parameter type as?).Uncancelled := by
  refine .bind value_uncancelled fun v => ?_
  cases as? v with
  | some a => exact .pure a
  | none => exact .fail rfl

theorem setItem_uncancelled (i : ItemId) : (ctx.setItem parameter i).Uncancelled := by
  unfold setItem
  refine .bind (.ofExcept fun _ => resolve_error) fun res => ?_
  rcases res with ⟨value, type⟩ | ⟨name, default, type⟩
  · exact .fail rfl
  · exact .bind (.look fun _ _ => Heap.checkType_error) fun _ => .modify _

theorem set_uncancelled (v : Value) : (ctx.set parameter v).Uncancelled :=
  .bind (.change _) fun i => setItem_uncancelled i

theorem remove_uncancelled : (ctx.remove parameter).Uncancelled := by
  unfold remove
  refine .bind (.ofExcept fun _ => resolve_error) fun res => ?_
  rcases res with ⟨value, type⟩ | ⟨name, default, type⟩
  · exact .fail rfl
  · exact .change _

theorem randomItem_uncancelled : (ctx.randomItem parameter).Uncancelled := by
  unfold randomItem
  refine .bind getVariable_uncancelled fun found => ?_
  cases found with
  | some i => exact .pure i
  | none =>
      refine .bind get_uncancelled fun i => ?_
      refine Meets.bind (P := fun r => ∀ e, r = .error e → e.isCancellation = false)
        (.attempt fun s => (setItem_uncancelled i s).2) fun r hr => ?_
      rcases r with e | _
      · have he := hr e rfl
        cases e <;> first | exact Uncancelled.fail he | exact Uncancelled.pure i
      · exact Uncancelled.pure i

theorem withRandom_uncancelled {f : Random.Source → α × Random.Source} :
    (ctx.withRandom parameter f).Uncancelled := by
  unfold withRandom
  refine .bind randomItem_uncancelled fun i => .bind (.see _) fun v => ?_
  cases v <;> first
    | exact .bind (.modify _) fun _ => .pure _
    | exact .fail rfl

/-! ## Leaves -/

theorem assign_uncancelled : ctx.assign.Uncancelled :=
  .bind get_uncancelled fun _ => .bind (.change _) fun i => setItem_uncancelled i

theorem count_uncancelled : ctx.count.Uncancelled := by
  unfold count
  refine .bind typed_uncancelled fun increment => .bind getVariable_uncancelled fun found => ?_
  cases found with
  | some i => exact .modify _
  | none => exact .bind getOptional_uncancelled fun _ => .bind (.see _) fun _ => set_uncancelled _

theorem compare_uncancelled {name : String} {relation : Comparison} :
    (ctx.compare name relation).Uncancelled := by
  unfold compare
  refine .bind value_uncancelled fun left => .bind value_uncancelled fun right => ?_
  cases left.compare? right with
  | some o => exact set_uncancelled _
  | none => exact .fail rfl

theorem createVariables_uncancelled (ps : List Parameter) :
    (ctx.createVariables ps).Uncancelled := by
  induction ps with
  | nil => exact .pure ()
  | cons p rest ih =>
      rw [createVariables]
      refine .bind (.ofExcept fun _ => resolve_error) fun res => ?_
      rcases res with ⟨value, type⟩ | ⟨name, _ | initial, type⟩
      · exact ih
      · exact ih
      · exact .bind (.modify _) fun _ => ih

theorem removeSubScope_uncancelled {name : String} : (ctx.removeSubScope name).Uncancelled := by
  unfold removeSubScope
  refine .bind typed_uncancelled fun index => ?_
  dsimp only
  split
  · refine .bind (.pure none) fun removed => ?_
    cases removed with
    | some s => exact .pure ()
    | none => exact .bind (.see _) fun _ => .fail rfl
  · refine .bind (.change _) fun removed => ?_
    cases removed with
    | some s => exact .pure ()
    | none => exact .bind (.see _) fun _ => .fail rfl

end Context

/-- An act that fails as cancelled only under a condition. -/
def Act.CancelledIf {σ α : Type} (x : Act σ α) (c : Prop) : Prop :=
  x.Meets (fun _ => True) fun e => e.isCancellation = true → c

namespace Act

variable {σ α β : Type} {x : Act σ α} {P : α → Prop} {Q : β → Prop} {c : Prop}

theorem Uncancelled.cancelledIf (h : x.Uncancelled) : x.CancelledIf c :=
  h.mono (fun _ _ => trivial) fun e he hc => by rw [he] at hc; cases hc

theorem CancelledIf.bind {f : α → Act σ β} (hx : x.CancelledIf c) (hf : ∀ a, (f a).CancelledIf c) :
    (x >>= f).CancelledIf c :=
  Meets.bind hx fun a _ => hf a

/-- Answers, and when it may be cancelled, after an act that may be cancelled
under the same condition. -/
theorem CancelledIf.meets_bind {f : α → Act σ β} (hx : x.CancelledIf c)
    (hf : ∀ a, (f a).Meets Q fun e => e.isCancellation = true → c) :
    (x >>= f).Meets Q fun e => e.isCancellation = true → c :=
  Meets.bind hx fun a _ => hf a

end Act

theorem checkCancelled_cancelledIf (cancelled : Bool) :
    (checkCancelled cancelled).CancelledIf (cancelled = true) := by
  cases cancelled with
  | true => exact Meets.fail fun _ => rfl
  | false => exact (Uncancelled.pure ()).cancelledIf

namespace Context

variable {ctx : Context} {g : SharedGraph} {ops : List Operation} {cancelled : Bool} {c : Prop}

theorem createSubScopes_cancelledIf {name : String} :
    (ctx.createSubScopes name cancelled).CancelledIf (cancelled = true) := by
  unfold createSubScopes
  refine .bind typed_uncancelled.cancelledIf fun n => ?_
  by_cases hn : n < 0
  · rw [if_pos hn]
    exact (Uncancelled.fail rfl).cancelledIf
  · rw [if_neg hn]
    refine .bind ((checkCancelled_cancelledIf _).mono (fun _ _ => trivial) fun e he hc => ?_)
      fun _ => (Uncancelled.modify _).cancelledIf
    exact (Bool.and_eq_true_iff.mp (he hc)).1

theorem duplicateSubScope_cancelledIf {name : String} :
    (ctx.duplicateSubScope name cancelled).CancelledIf (cancelled = true) := by
  unfold duplicateSubScope
  refine .bind (Uncancelled.see _).cancelledIf fun children =>
    .bind typed_uncancelled.cancelledIf fun index => ?_
  cases pickSubScope children index.toInt with
  | none => exact (Uncancelled.fail rfl).cancelledIf
  | some source =>
      refine .bind (checkCancelled_cancelledIf _) fun _ =>
        .bind (Uncancelled.change _).cancelledIf fun copy =>
          .bind (Uncancelled.modify _).cancelledIf fun _ => ?_
      have hadd : (Act.commit fun h : Heap => h.addChild ctx.scope copy).Uncancelled :=
        .commit trivial fun _ _ => Heap.addChild_error
      exact hadd.cancelledIf

/-! ## Schedules -/

theorem sibling_graph (op : OperatorId) (trail : List OperatorId) (id : ContextId) :
    (ctx.sibling op trail id).graph = ctx.graph := by
  cases ctx <;> rfl

@[simp] theorem sibling_parent? (op : OperatorId) (trail : List OperatorId) (id : ContextId) :
    (ctx.sibling op trail id).parent? = ctx.parent? := by
  cases ctx <;> rfl

@[simp] theorem sibling_scope (op : OperatorId) (trail : List OperatorId) (id : ContextId) :
    (ctx.sibling op trail id).scope = ctx.scope := by
  cases ctx <;> rfl

@[simp] theorem sibling_depth (op : OperatorId) (trail : List OperatorId) (id : ContextId) :
    (ctx.sibling op trail id).depth = ctx.depth := by
  cases ctx <;> rfl

theorem sibling_trail (hown : ctx.operatorId? ≠ none) (op : OperatorId) (trail : List OperatorId)
    (id : ContextId) : (ctx.sibling op trail id).trail = trail := by
  cases ctx with
  | root id g s => exact absurd rfl hown
  | frame id own s trail parent => rfl

theorem sibling_operatorId? (hown : ctx.operatorId? ≠ none) (op : OperatorId)
    (trail : List OperatorId) (id : ContextId) :
    (ctx.sibling op trail id).operatorId? = some op := by
  cases ctx with
  | root id g s => exact absurd rfl hown
  | frame id own s trail parent => rfl

theorem childrenOn_meets (places : List (OperatorId × ScopeId)) :
    (ctx.childrenOn places).Meets (fun ops => Operation.AllRunIn ops ctx.graph)
      fun e => e.isCancellation = true → c := by
  induction places with
  | nil => exact .pure (by simp)
  | cons place rest ih =>
      unfold childrenOn
      refine Meets.bind (P := fun op => op.RunsIn ctx.graph) ?_ fun first hfirst =>
        .bind ih fun others hothers => .pure (by simp [hfirst, hothers])
      exact Meets.bind (P := fun ctx' => ctx'.graph = ctx.graph) (.change fun h => rfl)
        fun ctx' h => .pure (by simpa using h)

theorem successor_meets :
    ctx.successor.Meets (fun op => Operation.AllRunIn op.toList ctx.graph)
      fun e => e.isCancellation = true → c := by
  unfold successor
  refine CancelledIf.meets_bind
    (Uncancelled.ofExcept fun e h => operator_error h).cancelledIf fun op => ?_
  cases op.successor with
  | none => exact .pure (by simp)
  | some next =>
      dsimp only
      by_cases hm : next ∈ ctx.trail
      · rw [if_pos hm]
        exact .bind (Uncancelled.ofExcept fun e h => Graph.get_error h).cancelledIf
          fun again _ => .fail nofun
      · rw [if_neg hm]
        exact CancelledIf.meets_bind (Uncancelled.change _).cancelledIf
          fun id => .pure (by simp [sibling_graph])

theorem reenter_meets :
    ctx.reenter.Meets (fun op => op.RunsIn ctx.graph) fun e => e.isCancellation = true → c := by
  unfold reenter
  cases ctx.operatorId? with
  | some op =>
      exact CancelledIf.meets_bind (Uncancelled.change _).cancelledIf
        fun id => .pure (by simp [sibling_graph])
  | none => exact .fail nofun

theorem thenSuccessor_meets (h : Operation.AllRunIn ops ctx.graph) :
    (ctx.thenSuccessor ops).Meets (fun op => Operation.AllRunIn op.toList ctx.graph)
      fun e => e.isCancellation = true → c :=
  .bind successor_meets fun _ hnext => .pure
    (Operation.AllRunIn.inSequence (Operation.allRunIn_append.mpr ⟨h, hnext⟩))

theorem branches_meets (h : Operation.AllRunIn ops ctx.graph) :
    (ctx.branches ops).Meets (fun op => Operation.AllRunIn op.toList ctx.graph)
      fun e => e.isCancellation = true → c := by
  refine CancelledIf.meets_bind typed_uncancelled.cancelledIf fun parallel =>
    thenSuccessor_meets ?_
  cases parallel with
  | true => exact h.inParallel
  | false => exact h.inSequence

theorem runInOrder_meets (ids : List OperatorId) :
    (ctx.runInOrder ids).Meets (fun op => Operation.AllRunIn op.toList ctx.graph)
      fun e => e.isCancellation = true → c :=
  .bind (childrenOn_meets _) fun _ h => thenSuccessor_meets h

end Context

/-- What an operator schedules runs in the graph of its context, and it fails
as cancelled only if it is. -/
theorem Operator.work_meets (op : Operator) (cancelled : Bool) (ctx : Context) :
    (op.work cancelled ctx).Meets (fun answer => Operation.AllRunIn answer.toList ctx.graph)
      fun e => e.isCancellation = true → cancelled = true := by
  unfold work
  cases op.kind with
  | empty => exact Context.successor_meets
  | leaf program => exact Context.successor_meets
  | assigner =>
      exact CancelledIf.meets_bind Context.assign_uncancelled.cancelledIf
        fun _ => Context.successor_meets
  | counter =>
      exact CancelledIf.meets_bind Context.count_uncancelled.cancelledIf
        fun _ => Context.successor_meets
  | comparator relation =>
      exact CancelledIf.meets_bind Context.compare_uncancelled.cancelledIf
        fun _ => Context.successor_meets
  | variableCreator =>
      exact CancelledIf.meets_bind (Context.createVariables_uncancelled _).cancelledIf
        fun _ => Context.successor_meets
  | subScopesCreator =>
      exact Context.createSubScopes_cancelledIf.meets_bind fun _ => Context.successor_meets
  | subScopesRemover all =>
      cases all with
      | true =>
          exact CancelledIf.meets_bind (Uncancelled.modify _).cancelledIf
            fun _ => Context.successor_meets
      | false =>
          exact CancelledIf.meets_bind Context.removeSubScope_uncancelled.cancelledIf
            fun _ => Context.successor_meets
  | subScopeDuplicator =>
      exact Context.duplicateSubScope_cancelledIf.meets_bind fun _ => Context.successor_meets
  | sequential ids => exact Context.runInOrder_meets ids
  | subScopes ids =>
      refine CancelledIf.meets_bind (Uncancelled.see _).cancelledIf fun subs => ?_
      by_cases hlt : subs.length < ids.length
      · rw [if_pos hlt]
        exact .fail nofun
      · rw [if_neg hlt]
        exact .bind (Context.childrenOn_meets _) fun _ h => Context.branches_meets h
  -- The children run in the graph of the context, whichever scopes they are on.
  | uniformSubScopes body depth =>
      exact CancelledIf.meets_bind (Uncancelled.see _).cancelledIf fun places =>
        .bind (Context.childrenOn_meets _) fun _ h => Context.branches_meets h
  | conditional onTrue onFalse =>
      exact CancelledIf.meets_bind Context.typed_uncancelled.cancelledIf
        fun condition => Context.runInOrder_meets _
  | loop body terminator =>
      refine CancelledIf.meets_bind Context.typed_uncancelled.cancelledIf fun finished => ?_
      cases finished with
      | true => exact Context.successor_meets
      | false =>
          refine .bind (Context.childrenOn_meets _) fun round hround =>
            .bind Context.reenter_meets fun again hagain => .pure ?_
          exact Operation.AllRunIn.inSequence (by simp [hround, hagain])
  | placeholder =>
      exact CancelledIf.meets_bind Context.typed_uncancelled.cancelledIf fun target =>
        CancelledIf.meets_bind (Uncancelled.ofExcept fun e h => Graph.need_error h).cancelledIf
          fun _ => Context.runInOrder_meets _

end ScopeFlow
