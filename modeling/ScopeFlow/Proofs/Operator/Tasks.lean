import ScopeFlow.Proofs.Operator.Edits
import ScopeFlow.Proofs.Operator.Answers
import ScopeFlow.Proofs.Scope.Holding

/-!
# Tasks

An operator's work ends in a task: children to run under its context, and
whether its successor comes after them or the operator itself once more. What
the context then goes on to is decided in one place for all kinds of
operators.

* `Operator.work_eq`: the work of every kind is its task and then
  `Context.goOn`;
* `Context.Begets` lists the contexts that an execution can answer with:
  children, the successor as a sibling, a loop again;
* `Context.execute_issues` says in which order and under which numbers they
  come.
-/

namespace ScopeFlow

namespace Act

variable {σ α β : Type} {x : Act σ α} {f : α → Act σ β} {s s' : σ} {b : β}

/-- Where an act and what follows it succeed, both do. -/
theorem bind_eq_ok (h : (x >>= f) s = (.ok b, s')) :
    ∃ a s₁, x s = (.ok a, s₁) ∧ f a s₁ = (.ok b, s') := by
  rw [bind_apply] at h
  rcases hx : x s with ⟨e | a, s₁⟩
  · rw [hx] at h
    cases h
  · rw [hx] at h
    exact ⟨a, s₁, rfl, h⟩

theorem pure_eq_ok {a a' : α} (h : (pure a : Act σ α) s = (.ok a', s')) : a = a' ∧ s = s' := by
  cases h
  exact ⟨rfl, rfl⟩

end Act

/-- What an operator leaves to be run. -/
inductive Task where
  /-- These, and then its successor. -/
  | before (ops : List Operation)
  /-- These, and then the operator again. -/
  | round (ops : List Operation)

/-- What is to be run before the context goes on. -/
def Task.ops : Task → List Operation
  | before ops => ops
  | round ops => ops

namespace Context

/-- Branches as a task, side by side if `Parallel` says so. -/
def batch (ctx : Context) (ops : List Operation) : Act Heap Task := do
  let parallel ← ctx.getBool "Parallel"
  let batch := if parallel then Operation.inParallel ops else Operation.inSequence ops
  pure (.before batch.toList)

/-- What a context goes on with after a task. -/
def goOn (ctx : Context) : Task → Act Heap (Option Operation)
  | .before ops => ctx.thenSuccessor ops
  | .round ops => do
    let again ← ctx.reenter
    pure (Operation.inSequence (ops ++ [again]))

end Context

/-- The work of an operator, up to what it goes on with. -/
def Operator.task (op : Operator) (cancelled : Bool) (ctx : Context) : Act Heap Task :=
  match op.kind with
  | .empty | .leaf _ => pure (.before [])
  | .assigner => do
    ctx.assign
    pure (.before [])
  | .counter => do
    ctx.count
    pure (.before [])
  | .comparator relation => do
    ctx.compare op.name relation
    pure (.before [])
  | .variableCreator => do
    ctx.createVariables op.parameters.list
    pure (.before [])
  | .subScopesCreator => do
    ctx.createSubScopes op.name cancelled
    pure (.before [])
  | .subScopesRemover true => do
    ctx.removeAllSubScopes
    pure (.before [])
  | .subScopesRemover false => do
    ctx.removeSubScope op.name
    pure (.before [])
  | .subScopeDuplicator => do
    ctx.duplicateSubScope op.name cancelled
    pure (.before [])
  | .sequential ids => Task.before <$> ctx.childrenHere ids
  | .subScopes ids => do
    let subs ← Act.see fun h => (h.scope ctx.scope).children
    if subs.length < ids.length then
      Act.fail (.operatorFailed op.name (toString ids.length ++ " operators but only " ++
        toString subs.length ++ " sub-scopes"))
    else
      let children ← ctx.childrenOn (ids.zip subs)
      ctx.batch children
  | .uniformSubScopes body depth => do
    let places ← Act.see fun h => match body with
      | none => []
      | some id => (h.scopesAtDepth depth ctx.scope).map fun s => (id, s)
    let children ← ctx.childrenOn places
    ctx.batch children
  | .conditional onTrue onFalse => do
    let condition ← ctx.getBool "Condition"
    Task.before <$> ctx.childrenHere (if condition then onTrue else onFalse).toList
  | .loop body terminator => do
    let finished ← ctx.getBool "Terminate"
    if finished then pure (.before [])
    else Task.round <$> ctx.childrenHere (body.toList ++ terminator.toList)
  | .placeholder => do
    let target ← ctx.getOperator "Operator"
    Act.ofExcept (ctx.graph.graph.need target)
    Task.before <$> ctx.childrenHere [target]

namespace Context

variable {ctx : Context}

theorem thenSuccessor_nil : ctx.thenSuccessor [] = ctx.successor := by
  have hpack : ∀ next : Option Operation, Operation.inSequence ([] ++ next.toList) = next := by
    intro next
    cases next <;> rfl
  unfold thenSuccessor
  simp only [hpack, bind_pure]

theorem branches_eq (ops : List Operation) : ctx.branches ops = ctx.batch ops >>= ctx.goOn := by
  unfold branches batch
  rw [bind_assoc]
  rfl

theorem runInOrder_eq (ids : List OperatorId) :
    ctx.runInOrder ids = Task.before <$> ctx.childrenHere ids >>= ctx.goOn := by
  rw [map_eq_pure_bind, bind_assoc]
  rfl

end Context

/-- Work is a task and what it goes on with. -/
theorem Operator.work_eq (op : Operator) (cancelled : Bool) (ctx : Context) :
    op.work cancelled ctx = op.task cancelled ctx >>= ctx.goOn := by
  -- Work that only acts on the heap has no children before its successor.
  have hleaf : ∀ x : Act Heap Unit,
      (x >>= fun _ => ctx.successor) = (x >>= fun _ => pure (.before [])) >>= ctx.goOn := by
    intro x
    rw [bind_assoc, ← Context.thenSuccessor_nil]
    rfl
  have hdone : ctx.successor = (pure (.before []) : Act Heap Task) >>= ctx.goOn := by
    rw [← Context.thenSuccessor_nil]
    rfl
  unfold work task
  cases op.kind with
  | empty => exact hdone
  | leaf program => exact hdone
  | subScopesRemover all => cases all <;> exact hleaf _
  | sequential ids => exact Context.runInOrder_eq ids
  | subScopes ids =>
      unfold Context.runOnSubScopes
      simp only [bind_assoc, Context.branches_eq]
      congr 1
      funext subs
      split
      · rfl
      · simp only [bind_assoc]
  | uniformSubScopes body depth =>
      have hplaces : ∀ places, (ctx.childrenOn places >>= ctx.branches) =
          (ctx.childrenOn places >>= ctx.batch) >>= ctx.goOn := by
        intro places
        rw [bind_assoc]
        exact congrArg (_ >>= ·) (funext Context.branches_eq)
      unfold Context.runBelow
      rw [bind_assoc]
      exact congrArg (Act.see _ >>= ·) (funext hplaces)
  | conditional onTrue onFalse =>
      unfold Context.runBranch
      simp only [bind_assoc, Context.runInOrder_eq]
  | loop body terminator =>
      unfold Context.runLoop
      simp only [bind_assoc]
      congr 1
      funext finished
      cases finished with
      | true => exact hdone
      | false =>
          rw [if_neg Bool.false_ne_true, if_neg Bool.false_ne_true, map_eq_pure_bind, bind_assoc]
          rfl
  | placeholder =>
      unfold Context.runChosen
      simp only [bind_assoc, Context.runInOrder_eq]
  | _ => exact hleaf _

/-! ## Children -/

/-- The operators that an operator can schedule under its context. -/
def Operator.Calls (op : Operator) (g : Graph) (id : OperatorId) : Prop :=
  id ∈ op.kind.children ∨ op.kind = .placeholder ∧ g.has id = true

namespace Context

variable {ctx c : Context} {op : Operator} {h h' : Heap} {n n' : Nat}
  {places : List (OperatorId × ScopeId)}

/-- The contexts of operators as children, numbered from `n` on. -/
def childrenFrom (ctx : Context) (n : Nat) : List (OperatorId × ScopeId) → List Context
  | [] => []
  | (id, s) :: rest => .frame ⟨n⟩ id s [id] ctx :: ctx.childrenFrom (n + 1) rest

theorem mem_childrenFrom (hc : c ∈ ctx.childrenFrom n places) :
    ∃ k id s, (id, s) ∈ places ∧ n ≤ k ∧ k < n + places.length ∧ c = .frame ⟨k⟩ id s [id] ctx := by
  induction places generalizing n with
  | nil => cases hc
  | cons place rest ih =>
      obtain ⟨id, s⟩ := place
      rcases List.mem_cons.mp hc with rfl | hc
      · exact ⟨n, id, s, List.mem_cons_self, Nat.le_refl n, by simp, rfl⟩
      · obtain ⟨k, id', s', hmem, hle, hlt, rfl⟩ := ih hc
        refine ⟨k, id', s', List.mem_cons_of_mem _ hmem, by omega, ?_, rfl⟩
        rw [List.length_cons]
        omega

theorem ids_childrenFrom (ctx : Context) (n : Nat) (places : List (OperatorId × ScopeId)) :
    (ctx.childrenFrom n places).map (fun c => c.id.index) = List.range' n places.length := by
  induction places generalizing n with
  | nil => rfl
  | cons place rest ih =>
      obtain ⟨id, s⟩ := place
      show n :: (ctx.childrenFrom (n + 1) rest).map _ = _
      rw [ih, List.length_cons, List.range'_succ]

theorem contextsOfAll_atomic (cs : List Context) :
    Operation.contextsOfAll (cs.map .atomic) = cs := by
  induction cs with
  | nil => rfl
  | cons c cs ih => simp [Operation.contextsOfAll, Operation.contexts, ih]

/-- Scheduling children takes the next free numbers and nothing else. -/
theorem childrenOn_apply (ctx : Context) (places : List (OperatorId × ScopeId)) (h : Heap) :
    ctx.childrenOn places h = (.ok ((ctx.childrenFrom h.contexts places).map .atomic),
      { h with contexts := h.contexts + places.length }) := by
  induction places generalizing h with
  | nil => rfl
  | cons place rest ih =>
      obtain ⟨id, s⟩ := place
      show (ctx.childrenOn rest >>= fun others => pure (.atomic (.frame ⟨h.contexts⟩ id s [id] ctx) ::
        others) : Act Heap (List Operation)) { h with contexts := h.contexts + 1 } = _
      rw [Act.bind_apply, ih, List.length_cons]
      simp only [Act.pure_apply, childrenFrom, List.map_cons]
      congr 2
      omega

theorem contexts_detachAll (h : Heap) (cs : List ScopeId) :
    (h.detachAll cs).contexts = h.contexts := by
  induction cs generalizing h with
  | nil => rfl
  | cons c cs ih => exact ih (h.setParent c none)

theorem contexts_addChild {s child : ScopeId} (hadd : h.addChild s child = .ok h') :
    h'.contexts = h.contexts := by
  unfold Heap.addChild Heap.insertChild at hadd
  split at hadd
  · cases hadd
  · split at hadd
    · cases hadd
    · dsimp only at hadd
      split at hadd <;> cases hadd
      rfl

/-- No edit takes back a number that has been given to a context. -/
theorem Edit.contexts_le (he : ctx.Edit h h') : h.contexts ≤ h'.contexts := by
  have hcopy : ∀ source name, ((h.copyAlone (ScopeId.copy source)).2.rename
      (h.copyAlone source.copy).1 name).contexts = h.contexts :=
    fun source name => h.contexts_copyAlone source
  cases he with
  | context => exact Nat.le_succ _
  | remove place =>
      unfold Heap.removeChild
      split <;> exact Nat.le_refl _
  | clear =>
      show h.contexts ≤ (Heap.detachAll _ _).contexts
      rw [contexts_detachAll]
      exact Nat.le_refl _
  | duplicate hsource name => exact Nat.le_of_eq (hcopy _ name).symm
  | graft hsource name hadd =>
      rw [← hcopy _ name]
      exact Nat.le_of_eq (contexts_addChild hadd).symm
  | _ => exact Nat.le_refl _

theorem contexts_le (hrow : Relation.ReflTransGen ctx.Edit h h') : h.contexts ≤ h'.contexts := by
  induction hrow with
  | refl => exact Nat.le_refl _
  | tail _ he ih => exact Nat.le_trans ih he.contexts_le

theorem typed_le {α : Type} {type : ValueType} {as? : Value → Option α} {parameter : String} {a : α}
    (hread : ctx.typed parameter type as? h = (.ok a, h')) : h.contexts ≤ h'.contexts := by
  have halong : (ctx.typed parameter type as?).Along ctx.Edit := (typed_along type as?).edit
  have hle := contexts_le (halong h)
  rwa [hread] at hle

/-- A task is planned: children numbered as they come, of operators that the
operator can schedule; and only a loop has a round. -/
inductive Plans (ctx : Context) (op : Operator) (n n' : Nat) (t : Task) : Prop
  | mk (m : Nat) (places : List (OperatorId × ScopeId)) (hm : n ≤ m)
      (hm' : m + places.length ≤ n')
      (hcalls : ∀ place ∈ places, op.Calls ctx.graph.graph place.1)
      (hcontexts : Operation.contextsOfAll t.ops = ctx.childrenFrom m places)
      (hround : ∀ ops, t = .round ops → ∃ body terminator, op.kind = .loop body terminator)

/-- A task without children. -/
theorem plans_alone {x : Act Heap Unit} {t : Task} (hx : x.Along ctx.Edit)
    (ht : (x >>= fun _ => pure (.before [])) h = (.ok t, h')) : ctx.Plans op h.contexts h'.contexts t := by
  obtain ⟨_, h₁, hfirst, ht⟩ := Act.bind_eq_ok ht
  obtain ⟨rfl, rfl⟩ := Act.pure_eq_ok ht
  have hle := contexts_le (hx h)
  rw [hfirst] at hle
  exact ⟨h.contexts, [], Nat.le_refl _, hle, nofun, rfl, nofun⟩

/-- Children scheduled after something has been read. -/
theorem plans_children {t : Task} {h₁ : Heap} {f : List Operation → Task}
    (hle : h.contexts ≤ h₁.contexts) (hcalls : ∀ place ∈ places, op.Calls ctx.graph.graph place.1)
    (hf : f = .before ∨ f = .round ∧ ∃ body terminator, op.kind = .loop body terminator)
    (ht : (f <$> ctx.childrenOn places) h₁ = (.ok t, h')) : ctx.Plans op h.contexts h'.contexts t := by
  rw [map_eq_pure_bind, Act.bind_apply, childrenOn_apply] at ht
  obtain ⟨rfl, rfl⟩ := Act.pure_eq_ok ht
  refine ⟨h₁.contexts, places, hle, Nat.le_refl _, hcalls, ?_, ?_⟩
  · rcases hf with rfl | ⟨rfl, -⟩ <;> exact contextsOfAll_atomic _
  · rintro ops hround
    rcases hf with rfl | ⟨rfl, hloop⟩
    · cases hround
    · exact hloop

/-- Children as branches. -/
theorem plans_batch {t : Task} (hcalls : ∀ place ∈ places, op.Calls ctx.graph.graph place.1)
    (ht : (ctx.childrenOn places >>= ctx.batch) h = (.ok t, h')) : ctx.Plans op h.contexts h'.contexts t := by
  rw [Act.bind_apply, childrenOn_apply] at ht
  obtain ⟨parallel, h₁, hread, ht⟩ := Act.bind_eq_ok ht
  obtain ⟨rfl, rfl⟩ := Act.pure_eq_ok ht
  refine ⟨h.contexts, places, Nat.le_refl _, typed_le hread, hcalls, ?_, nofun⟩
  cases parallel with
  | true => exact (Operation.contexts_inParallel _).trans (contextsOfAll_atomic _)
  | false => exact (Operation.contexts_inSequence _).trans (contextsOfAll_atomic _)

end Context

/-- What the task of an operator is. -/
theorem Operator.task_plans {op : Operator} {cancelled : Bool} {ctx : Context} {h h' : Heap}
    {t : Task} (ht : op.task cancelled ctx h = (.ok t, h')) : ctx.Plans op h.contexts h'.contexts t := by
  -- Children that run on the scope of their parent.
  have hhere : ∀ {ids : List OperatorId}, (∀ id ∈ ids, op.Calls ctx.graph.graph id) →
      ∀ place ∈ ids.map fun id => (id, ctx.scope), op.Calls ctx.graph.graph place.1 := by
    intro ids hids place hplace
    obtain ⟨id, hid, rfl⟩ := List.mem_map.mp hplace
    exact hids id hid
  unfold task at ht
  cases hkind : op.kind with
  | empty =>
      rw [hkind] at ht
      exact Context.plans_alone (x := pure ()) (.still fun _ => rfl) ht
  | leaf program =>
      rw [hkind] at ht
      exact Context.plans_alone (x := pure ()) (.still fun _ => rfl) ht
  | assigner =>
      rw [hkind] at ht
      exact Context.plans_alone Context.assign_along ht
  | counter =>
      rw [hkind] at ht
      exact Context.plans_alone Context.count_along ht
  | comparator relation =>
      rw [hkind] at ht
      exact Context.plans_alone (Context.compare_along _) ht
  | variableCreator =>
      rw [hkind] at ht
      exact Context.plans_alone (Context.createVariables_along _) ht
  | subScopesCreator =>
      rw [hkind] at ht
      exact Context.plans_alone (Context.createSubScopes_along _) ht
  | subScopesRemover all =>
      rw [hkind] at ht
      cases all with
      | true => exact Context.plans_alone Context.removeAllSubScopes_along ht
      | false => exact Context.plans_alone Context.removeSubScope_along ht
  | subScopeDuplicator =>
      rw [hkind] at ht
      exact Context.plans_alone (Context.duplicateSubScope_along _) ht
  | sequential ids =>
      rw [hkind] at ht
      refine Context.plans_children (Nat.le_refl _) (hhere fun id hid => .inl ?_) (.inl rfl) ht
      rw [hkind]
      exact hid
  -- Each of the operators on a sub-scope of its own.
  | subScopes ids =>
      rw [hkind] at ht
      obtain ⟨subs, h₁, hsee, ht⟩ := Act.bind_eq_ok ht
      obtain ⟨rfl, rfl⟩ := Act.pure_eq_ok hsee
      dsimp only at ht
      split at ht
      · cases ht
      · refine Context.plans_batch (fun place hplace => .inl ?_) ht
        rw [hkind]
        exact (List.of_mem_zip hplace).1
  | uniformSubScopes body depth =>
      rw [hkind] at ht
      obtain ⟨places, h₁, hsee, ht⟩ := Act.bind_eq_ok ht
      obtain ⟨rfl, rfl⟩ := Act.pure_eq_ok hsee
      refine Context.plans_batch (fun place hplace => .inl ?_) ht
      cases body with
      | none => cases hplace
      | some id =>
          obtain ⟨s, -, rfl⟩ := List.mem_map.mp hplace
          rw [hkind]
          exact List.mem_singleton_self id
  | conditional onTrue onFalse =>
      rw [hkind] at ht
      obtain ⟨condition, h₁, hread, ht⟩ := Act.bind_eq_ok ht
      refine Context.plans_children (Context.typed_le hread) (hhere fun id hid => .inl ?_)
        (.inl rfl) ht
      rw [hkind]
      cases condition with
      | true => exact List.mem_append_left _ hid
      | false => exact List.mem_append_right _ hid
  | loop body terminator =>
      rw [hkind] at ht
      obtain ⟨finished, h₁, hread, ht⟩ := Act.bind_eq_ok ht
      cases finished with
      | true =>
          obtain ⟨rfl, rfl⟩ := Act.pure_eq_ok ht
          exact ⟨h.contexts, [], Nat.le_refl _, Context.typed_le hread, nofun, rfl, nofun⟩
      | false =>
          refine Context.plans_children (Context.typed_le hread) (hhere fun id hid => .inl ?_)
            (.inr ⟨rfl, body, terminator, hkind⟩) ht
          rw [hkind]
          exact hid
  -- The one kind whose child is not among its own operators but chosen by a variable.
  | placeholder =>
      rw [hkind] at ht
      obtain ⟨target, h₁, hread, ht⟩ := Act.bind_eq_ok ht
      obtain ⟨_, h₂, hneed, ht⟩ := Act.bind_eq_ok ht
      obtain ⟨hfound, rfl⟩ := Prod.mk.inj hneed
      refine Context.plans_children (Context.typed_le hread) (hhere fun id hid => ?_) (.inl rfl) ht
      obtain rfl := List.mem_singleton.mp hid
      exact .inr ⟨hkind, Graph.need_eq_ok_iff.mp hfound⟩

/-! ## Going on -/

namespace Context

variable {ctx c : Context} {op : Operator} {h h' : Heap} {n n' : Nat} {t : Task}
  {next : Option Operation}

/-- A successor that is on the trail is refused. -/
theorem successor_revisit {again : OperatorId} (hop : ctx.operator = .ok op)
    (hnext : op.successor = some again) (hseen : again ∈ ctx.trail) (h : Heap) :
    ctx.successor h = ((ctx.graph.graph.get again).bind fun revisited =>
      .error (.graphCycle revisited.name "successor chain revisits this operator"), h) := by
  unfold successor
  rw [Act.bind_apply, Act.ofExcept_apply, hop]
  dsimp only
  rw [hnext]
  dsimp only
  rw [if_pos hseen, Act.bind_apply, Act.ofExcept_apply]
  cases ctx.graph.graph.get again <;> rfl

/-- How a context goes on, beside its children; `n` is the next free number. -/
inductive Onward (ctx : Context) (op : Operator) (n : Nat) : List Context → Prop
  | last (hlast : op.successor = none) : ctx.Onward op n []
  /-- A hop to the successor, under the same parent. -/
  | hop {next : OperatorId} (hnext : op.successor = some next) (hnew : next ∉ ctx.trail) :
      ctx.Onward op n [ctx.sibling next (ctx.trail ++ [next]) ⟨n⟩]
  /-- A loop again, on a new trail. -/
  | again {body terminator : Option OperatorId} {own : OperatorId}
      (hloop : op.kind = .loop body terminator) (hown : ctx.operatorId? = some own) :
      ctx.Onward op n [ctx.sibling own [own] ⟨n⟩]

theorem successor_onward (hop : ctx.operator = .ok op)
    (hnext : ctx.successor h = (.ok next, h')) :
    ctx.Onward op h.contexts (Operation.contextsOfAll next.toList) ∧
      h'.contexts = h.contexts + (Operation.contextsOfAll next.toList).length := by
  unfold successor at hnext
  rw [Act.bind_apply, Act.ofExcept_apply, hop] at hnext
  dsimp only at hnext
  cases hsucc : op.successor with
  | none =>
      rw [hsucc] at hnext
      obtain ⟨rfl, rfl⟩ := Act.pure_eq_ok hnext
      exact ⟨.last hsucc, rfl⟩
  | some o =>
      rw [hsucc] at hnext
      dsimp only at hnext
      split at hnext
      · obtain ⟨_, _, _, hfail⟩ := Act.bind_eq_ok hnext
        cases hfail
      · next hnew =>
        obtain ⟨rfl, rfl⟩ := Act.pure_eq_ok hnext
        exact ⟨.hop hsucc hnew, rfl⟩

/-- What a context goes on with: the children of the task, then the context
that follows. -/
theorem goOn_onward (hop : ctx.operator = .ok op)
    (hround : ∀ ops, t = .round ops → ∃ body terminator, op.kind = .loop body terminator)
    (hnext : ctx.goOn t h = (.ok next, h')) :
    ∃ onward, ctx.Onward op h.contexts onward ∧ h'.contexts = h.contexts + onward.length ∧
      Operation.contextsOfAll next.toList = Operation.contextsOfAll t.ops ++ onward := by
  cases t with
  | before ops =>
      obtain ⟨successor, h₁, hsucc, hnext⟩ := Act.bind_eq_ok hnext
      obtain ⟨rfl, rfl⟩ := Act.pure_eq_ok hnext
      obtain ⟨honward, hcount⟩ := successor_onward hop hsucc
      refine ⟨_, honward, hcount, ?_⟩
      rw [Operation.contexts_inSequence, Operation.contextsOfAll_append]
      rfl
  | round ops =>
      obtain ⟨body, terminator, hloop⟩ := hround ops rfl
      obtain ⟨again, h₁, hagain, hnext⟩ := Act.bind_eq_ok hnext
      obtain ⟨rfl, rfl⟩ := Act.pure_eq_ok hnext
      unfold reenter at hagain
      cases hown : ctx.operatorId? with
      | none =>
          rw [hown] at hagain
          cases hagain
      | some own =>
          rw [hown] at hagain
          obtain ⟨rfl, rfl⟩ := Act.pure_eq_ok hagain
          refine ⟨_, .again hloop hown, rfl, ?_⟩
          rw [Operation.contexts_inSequence, Operation.contextsOfAll_append]
          rfl

/-! ## Executions -/

end Context

/-- An execution up to its task. -/
def Operator.undertake (op : Operator) (setting : Setting) (ctx : Context) : Act World Task := do
  op.runLeaf setting ctx
  let cancelled ← Act.see fun w => w.isCancelled setting.token
  World.onHeap (op.task cancelled ctx)

theorem World.onHeap_eq_ok {α : Type} {x : Act Heap α} {a : α} {w w' : World}
    (h : World.onHeap x w = (.ok a, w')) : x w.heap = (.ok a, w'.heap) := by
  obtain ⟨ha, rfl⟩ := Prod.mk.inj h
  exact Prod.ext ha rfl

theorem World.onHeap_seq {α β : Type} (x : Act Heap α) (f : α → Act Heap β) :
    World.onHeap (x >>= f) = World.onHeap x >>= fun a => World.onHeap (f a) := by
  funext w
  rw [World.onHeap_apply, Act.bind_apply, Act.bind_apply, World.onHeap_apply]
  rcases x w.heap with ⟨e | a, h⟩ <;> rfl

/-- An execution is a task and what the context goes on with. -/
theorem Operator.execute_eq (op : Operator) (setting : Setting) (ctx : Context) :
    op.execute setting ctx = op.undertake setting ctx >>= fun t => World.onHeap (ctx.goOn t) := by
  unfold execute undertake
  simp only [Operator.work_eq, World.onHeap_seq, bind_assoc]

theorem Operator.undertake_plans {op : Operator} {setting : Setting} {ctx : Context} {t : Task}
    {w w' : World} (ht : op.undertake setting ctx w = (.ok t, w')) :
    ctx.Plans op w.heap.contexts w'.heap.contexts t := by
  have hrun : (op.runLeaf setting ctx).Along ctx.Reworks := by
    unfold runLeaf
    split
    · exact Leaf.run_along _ _ _ _
    · exact .still fun _ => rfl
  obtain ⟨_, w₁, hleaf, ht⟩ := Act.bind_eq_ok ht
  obtain ⟨cancelled, w₂, hsee, ht⟩ := Act.bind_eq_ok ht
  obtain ⟨-, rfl⟩ := Act.pure_eq_ok hsee
  have hle : w.heap.contexts ≤ w₁.heap.contexts := by
    have hrow := hrun w
    rw [hleaf] at hrow
    exact Context.contexts_le (hrow.lift' World.heap fun _ _ hstep => hstep)
  obtain ⟨m, places, hm, hm', hcalls, hcontexts, hround⟩ := op.task_plans (World.onHeap_eq_ok ht)
  exact ⟨m, places, Nat.le_trans hle hm, hm', hcalls, hcontexts, hround⟩

namespace Context

variable {ctx c : Context} {op : Operator} {n n' : Nat} {next : Option Operation}

/-- The contexts that an execution schedules: children, and then at most one
beside the context that it goes on to, numbered as they come. -/
inductive Issues (ctx : Context) (op : Operator) (n n' : Nat) : List Context → Prop
  | mk {m m' : Nat} {places : List (OperatorId × ScopeId)} {onward : List Context} (hm : n ≤ m)
      (hm' : m + places.length ≤ m') (hn' : m' + onward.length = n')
      (hcalls : ∀ place ∈ places, op.Calls ctx.graph.graph place.1)
      (honward : ctx.Onward op m' onward) :
      ctx.Issues op n n' (ctx.childrenFrom m places ++ onward)

/-- What an execution that succeeds schedules. -/
theorem execute_issues {setting : Setting} {w w' : World}
    (hx : ctx.execute setting w = (.ok next, w')) : ∃ op, ctx.operator = .ok op ∧
      ctx.Issues op w.heap.contexts w'.heap.contexts (Operation.contextsOfAll next.toList) := by
  obtain ⟨op, w₁, hfound, hx⟩ := Act.bind_eq_ok hx
  obtain ⟨hop, rfl⟩ := Prod.mk.inj hfound
  rw [op.execute_eq] at hx
  obtain ⟨t, w₂, htask, hx⟩ := Act.bind_eq_ok hx
  obtain ⟨m, places, hm, hm', hcalls, hcontexts, hround⟩ := op.undertake_plans htask
  obtain ⟨onward, honward, hcount, hall⟩ := goOn_onward hop hround (World.onHeap_eq_ok hx)
  refine ⟨op, hop, ?_⟩
  rw [hall, hcontexts]
  exact ⟨hm, hm', hcount.symm, hcalls, honward⟩

/-- An operator that is executed is one of the graph. -/
theorem get?_of_operator {own : OperatorId} (hown : ctx.operatorId? = some own)
    (hop : ctx.operator = .ok op) : ctx.graph.graph.get? own = some op := by
  unfold operator at hop
  rw [hown] at hop
  unfold Graph.get at hop
  dsimp only at hop
  cases hget : ctx.graph.graph.get? own with
  | none =>
      rw [hget] at hop
      cases hop
  | some op' =>
      rw [hget] at hop
      cases hop
      rfl

theorem ne_root_of_operator (hop : ctx.operator = .ok op) :
    ∃ id own s trail parent, ctx = .frame id own s trail parent := by
  cases ctx with
  | root id g s => cases hop
  | frame id own s trail parent => exact ⟨id, own, s, trail, parent, rfl⟩

/-- A context that an execution can schedule. -/
inductive Begets (ctx : Context) (op : Operator) : Context → Prop
  | child {id : OperatorId} (hcalls : op.Calls ctx.graph.graph id) (n : ContextId) (s : ScopeId) :
      ctx.Begets op (.frame n id s [id] ctx)
  | hop {next : OperatorId} (hnext : op.successor = some next) (hnew : next ∉ ctx.trail)
      (n : ContextId) : ctx.Begets op (ctx.sibling next (ctx.trail ++ [next]) n)
  | again {body terminator : Option OperatorId} {own : OperatorId}
      (hloop : op.kind = .loop body terminator) (hown : ctx.operatorId? = some own)
      (n : ContextId) : ctx.Begets op (ctx.sibling own [own] n)

theorem Begets.graph (hc : ctx.Begets op c) : c.graph = ctx.graph := by
  cases hc with
  | child hcalls n s => rfl
  | hop hnext hnew n => exact sibling_graph ..
  | again hloop hown n => exact sibling_graph ..

theorem Issues.begets {cs : List Context} (hi : ctx.Issues op n n' cs) (hc : c ∈ cs) :
    ctx.Begets op c := by
  obtain ⟨hm, hm', hn', hcalls, honward⟩ := hi
  rcases List.mem_append.mp hc with hc | hc
  · obtain ⟨k, id, s, hplace, -, -, rfl⟩ := mem_childrenFrom hc
    exact .child (hcalls _ hplace) _ s
  · cases honward with
    | last hlast => cases hc
    | hop hnext hnew =>
        obtain rfl := List.mem_singleton.mp hc
        exact .hop hnext hnew _
    | again hloop hown =>
        obtain rfl := List.mem_singleton.mp hc
        exact .again hloop hown _

end Context

end ScopeFlow
