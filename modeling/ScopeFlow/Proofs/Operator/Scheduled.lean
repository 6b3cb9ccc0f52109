import ScopeFlow.Proofs.Likeness.Regions

/-!
# Where operators are scheduled

What an execution answers runs beside its context, on the same scope, or below
it, on a scope of its own subtree (`Context.execute_schedules`). So it searches
no scope that its context does not search, apart from scopes of that subtree.
-/

namespace ScopeFlow

open Act

variable {ctx c : Context} {h : Heap} {s : ScopeId}

/-- The contexts that an execution may schedule. -/
inductive Context.Schedules (ctx : Context) (h : Heap) : Context → Prop
  /-- The operator again, or its successor. -/
  | beside (op : OperatorId) (trail : List OperatorId) (id : ContextId) :
      ctx.Schedules h (ctx.sibling op trail id)
  | below {s : ScopeId} (hs : h.Below ctx.scope s) (id : ContextId) (op : OperatorId) :
      ctx.Schedules h (.frame id op s [op] ctx)

/-- All contexts in some operations may be scheduled. -/
def Context.SchedulesAll (ctx : Context) (h : Heap) (ops : List Operation) : Prop :=
  ∀ c ∈ Operation.contextsOfAll ops, ctx.Schedules h c

/-- What is scheduled searches the scopes that its scheduler searches, and at
most one more, of the subtree. -/
theorem Context.Schedules.mem_scopeChain (hc : ctx.Schedules h c) {t : ScopeId}
    (ht : t ∈ c.scopeChain) : t ∈ ctx.scopeChain ∨ h.Below ctx.scope t := by
  cases hc with
  | beside op trail id =>
      cases ctx with
      | root i g s => exact .inl ht
      | frame i op' s trail' p => exact .inl ht
  | @below s hs id op =>
      rw [scopeChain] at ht
      split at ht
      · exact .inl ht
      · rcases List.mem_cons.mp ht with rfl | ht
        · exact .inr hs
        · exact .inl ht

namespace Act

variable {σ α β : Type} {x : Act σ α} {f : α → Act σ β} {Q : β → Prop}

/-- Whatever an act answers, what follows is as said. -/
theorem Meets.after (hf : ∀ a, (f a).Meets Q fun _ => True) :
    (x >>= f).Meets Q fun _ => True :=
  Meets.bind (P := fun _ => True) (fun _ => ⟨fun _ _ => trivial, fun _ _ => trivial⟩)
    fun a _ => hf a

end Act

namespace Context

variable {ops : List Operation}

theorem SchedulesAll.append {ops' : List Operation} (h₁ : ctx.SchedulesAll h ops)
    (h₂ : ctx.SchedulesAll h ops') : ctx.SchedulesAll h (ops ++ ops') := by
  intro c hc
  rw [Operation.contextsOfAll_append, List.mem_append] at hc
  exact hc.elim (h₁ c) (h₂ c)

theorem SchedulesAll.atomic (hc : ctx.Schedules h c) : ctx.SchedulesAll h [.atomic c] := by
  intro d hd
  rw [Operation.contextsOfAll, Operation.contexts, Operation.contextsOfAll, List.append_nil,
    List.mem_singleton] at hd
  rw [hd]
  exact hc

theorem SchedulesAll.inSequence (hops : ctx.SchedulesAll h ops) :
    ctx.SchedulesAll h (Operation.inSequence ops).toList := by
  rw [SchedulesAll, Operation.contexts_inSequence]
  exact hops

theorem SchedulesAll.inParallel (hops : ctx.SchedulesAll h ops) :
    ctx.SchedulesAll h (Operation.inParallel ops).toList := by
  rw [SchedulesAll, Operation.contexts_inParallel]
  exact hops

theorem childrenOn_schedules (places : List (OperatorId × ScopeId))
    (hplaces : ∀ place ∈ places, h.Below ctx.scope place.2) :
    (ctx.childrenOn places).Meets (ctx.SchedulesAll h) fun _ => True := by
  induction places with
  | nil => exact .pure nofun
  | cons place rest ih =>
      obtain ⟨op, s⟩ := place
      have hs : h.Below ctx.scope s := hplaces (op, s) List.mem_cons_self
      refine Meets.bind (P := fun first => ctx.SchedulesAll h [first]) ?_ fun first hfirst => ?_
      · refine Meets.bind (P := ctx.Schedules h) (.change fun k => .below hs _ op) ?_
        exact fun c hc => .pure (SchedulesAll.atomic hc)
      · refine .bind (ih fun place hp => hplaces place (List.mem_cons_of_mem _ hp)) ?_
        exact fun others hothers => .pure (hfirst.append hothers)

theorem childrenHere_schedules (ids : List OperatorId) :
    (ctx.childrenHere ids).Meets (ctx.SchedulesAll h) fun _ => True := by
  apply childrenOn_schedules
  intro place hplace
  obtain ⟨op, -, rfl⟩ := List.mem_map.mp hplace
  exact .self

theorem successor_schedules :
    ctx.successor.Meets (fun next => ctx.SchedulesAll h next.toList) fun _ => True := by
  refine .after fun op => ?_
  cases op.successor with
  | none => exact .pure nofun
  | some next =>
      dsimp only
      split
      · exact .after fun _ => .fail trivial
      · exact .after fun id => .pure (SchedulesAll.atomic (.beside ..))

theorem reenter_schedules :
    ctx.reenter.Meets (fun op => ctx.SchedulesAll h [op]) fun _ => True := by
  unfold reenter
  cases ctx.operatorId? with
  | none => exact .fail trivial
  | some op => exact .after fun id => .pure (SchedulesAll.atomic (.beside ..))

theorem thenSuccessor_schedules (hops : ctx.SchedulesAll h ops) :
    (ctx.thenSuccessor ops).Meets (fun next => ctx.SchedulesAll h next.toList) fun _ => True :=
  .bind successor_schedules fun _ hnext => .pure (hops.append hnext).inSequence

theorem branches_schedules (hops : ctx.SchedulesAll h ops) :
    (ctx.branches ops).Meets (fun next => ctx.SchedulesAll h next.toList) fun _ => True := by
  refine .after fun parallel => thenSuccessor_schedules ?_
  cases parallel with
  | true => exact hops.inParallel
  | false => exact hops.inSequence

theorem runInOrder_schedules (ids : List OperatorId) :
    (ctx.runInOrder ids).Meets (fun next => ctx.SchedulesAll h next.toList) fun _ => True :=
  .bind (childrenHere_schedules ids) fun _ hops => thenSuccessor_schedules hops

theorem runLoop_schedules (body terminator : Option OperatorId) :
    (ctx.runLoop body terminator).Meets (fun next => ctx.SchedulesAll h next.toList)
      fun _ => True := by
  refine .after fun finished => ?_
  cases finished with
  | true => exact successor_schedules
  | false =>
      refine .bind (childrenHere_schedules (h := h) _) fun round hround => ?_
      refine .bind (reenter_schedules (h := h)) fun again hagain => .pure ?_
      exact (hround.append hagain).inSequence

/-- The scopes some levels down belong to the subtree. -/
theorem below_of_mem_scopesAtDepth (depth : Nat) :
    ∀ {s t : ScopeId}, t ∈ h.scopesAtDepth depth s → h.Below s t := by
  induction depth with
  | zero =>
      intro s t ht
      rw [Heap.scopesAtDepth, List.mem_singleton] at ht
      rw [ht]
      exact .self
  | succ depth ih =>
      intro s t ht
      rw [Heap.scopesAtDepth, List.mem_flatMap] at ht
      obtain ⟨c, hc, ht⟩ := ht
      have hct := ih ht
      clear ht
      induction hct with
      | self => exact .child .self hc
      | child _ hd ih => exact ih.child hd

end Context

/-- What an operator answers when it is worked off on a heap. -/
theorem Operator.work_schedules (op : Operator) (cancelled : Bool) (ctx : Context) (h : Heap) :
    ∀ next, (op.work cancelled ctx h).1 = .ok next → ctx.SchedulesAll h next.toList := by
  suffices hmeets : (∃ act : Act Heap (Option Operation), op.work cancelled ctx h = act h ∧
      act.Meets (fun next => ctx.SchedulesAll h next.toList) fun _ => True) by
    obtain ⟨act, heq, hact⟩ := hmeets
    intro next hnext
    rw [heq] at hnext
    exact (hact h).1 next hnext
  unfold work
  cases op.kind with
  | empty => exact ⟨_, rfl, Context.successor_schedules⟩
  | leaf program => exact ⟨_, rfl, Context.successor_schedules⟩
  | assigner => exact ⟨_, rfl, .after fun _ => Context.successor_schedules⟩
  | counter => exact ⟨_, rfl, .after fun _ => Context.successor_schedules⟩
  | comparator relation => exact ⟨_, rfl, .after fun _ => Context.successor_schedules⟩
  | variableCreator => exact ⟨_, rfl, .after fun _ => Context.successor_schedules⟩
  | subScopesCreator => exact ⟨_, rfl, .after fun _ => Context.successor_schedules⟩
  | subScopesRemover all =>
      cases all with
      | true => exact ⟨_, rfl, .after fun _ => Context.successor_schedules⟩
      | false => exact ⟨_, rfl, .after fun _ => Context.successor_schedules⟩
  | subScopeDuplicator => exact ⟨_, rfl, .after fun _ => Context.successor_schedules⟩
  | sequential ids => exact ⟨_, rfl, Context.runInOrder_schedules ids⟩
  | conditional onTrue onFalse =>
      exact ⟨_, rfl, .after fun condition => Context.runInOrder_schedules _⟩
  | loop body terminator => exact ⟨_, rfl, Context.runLoop_schedules body terminator⟩
  | placeholder =>
      exact ⟨_, rfl, .after fun target => .after fun _ => Context.runInOrder_schedules _⟩
  | subScopes ids =>
      -- The sub-scopes are those of the heap that the work starts from.
      refine ⟨(if (h.scope ctx.scope).children.length < ids.length then
          Act.fail (.operatorFailed op.name (toString ids.length ++ " operators but only " ++
            toString (h.scope ctx.scope).children.length ++ " sub-scopes"))
        else ctx.childrenOn (ids.zip (h.scope ctx.scope).children) >>= ctx.branches), rfl, ?_⟩
      split
      · exact .fail trivial
      · refine .bind (Context.childrenOn_schedules _ fun place hplace => ?_)
          fun _ hops => Context.branches_schedules hops
        exact .child .self (List.of_mem_zip hplace).2
  | uniformSubScopes body depth =>
      refine ⟨ctx.childrenOn (body.toList.flatMap fun id =>
        (h.scopesAtDepth depth ctx.scope).map fun s => (id, s)) >>= ctx.branches, ?_, ?_⟩
      · cases body with
        | none => rfl
        | some id =>
            show _ = (ctx.childrenOn _ >>= ctx.branches) h
            rw [Option.toList_some, List.flatMap_singleton]
            rfl
      · refine .bind (Context.childrenOn_schedules _ fun place hplace => ?_)
          fun _ hops => Context.branches_schedules hops
        obtain ⟨id, -, hplace⟩ := List.mem_flatMap.mp hplace
        obtain ⟨s, hs, rfl⟩ := List.mem_map.mp hplace
        exact Context.below_of_mem_scopesAtDepth depth hs

/-- What an execution answers. A leaf program changes the heap before, but
then nothing but its successor is scheduled. -/
theorem Context.execute_schedules (ctx : Context) (setting : Setting) (w : World) :
    ∀ next, (ctx.execute setting w).1 = .ok next → ctx.SchedulesAll w.heap next.toList := by
  intro next hnext
  rw [execute, Act.bind_apply, Act.ofExcept_apply] at hnext
  cases hop : ctx.operator with
  | error e =>
      rw [hop] at hnext
      cases hnext
  | ok op =>
      rw [hop] at hnext
      dsimp only [Operator.execute] at hnext
      rw [Act.bind_apply] at hnext
      cases hkind : op.kind with
      | leaf program =>
          have hwork : ∀ cancelled k, op.work cancelled ctx k = ctx.successor k := by
            intro cancelled k
            unfold Operator.work
            rw [hkind]
          generalize op.runLeaf setting ctx w = r at hnext
          obtain ⟨e | u, w'⟩ := r
          · cases hnext
          · dsimp only at hnext
            rw [Act.bind_apply, Act.see_apply] at hnext
            dsimp only at hnext
            rw [World.onHeap_apply, hwork] at hnext
            exact (successor_schedules w'.heap).1 next hnext
      | _ =>
          have hleaf : op.runLeaf setting ctx w = (.ok (), w) := by
            unfold Operator.runLeaf
            rw [hkind]
            rfl
          rw [hleaf] at hnext
          exact op.work_schedules _ ctx w.heap next hnext

end ScopeFlow
