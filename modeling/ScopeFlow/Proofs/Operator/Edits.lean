import Mathlib.Logic.Relation
import ScopeFlow.Operator.Execute
import ScopeFlow.Proofs.Heap.Updates

/-!
# What executions do to the heap

An execution changes the heap by edits (`Context.Edit`): it binds fresh items
in the scopes that its context searches, writes to items bound there, and
otherwise works on its own scope alone. In particular it never binds an item
that was there before. `Context.execute_along` says that every execution, of
built-in operators and of leaf programs, whether it fails or not, is a row of
edits.
-/

namespace ScopeFlow

open Relation (ReflTransGen)

/-! ## Acts that go along steps -/

namespace Act

variable {σ α β : Type} {R : σ → σ → Prop} {x : Act σ α} {f : α → Act σ β}

/-- Whatever becomes of the act, it leads from state to state by steps of `R`. -/
def Along (R : σ → σ → Prop) (x : Act σ α) : Prop := ∀ s, ReflTransGen R s (x s).2

namespace Along

/-- Acts that only look. -/
theorem still (h : ∀ s, (x s).2 = s) : x.Along R := by
  intro s
  rw [h]

theorem modify {g : σ → σ} (h : ∀ s, ReflTransGen R s (g s)) :
    (Act.modify g).Along R := h

theorem change {g : σ → α × σ} (h : ∀ s, ReflTransGen R s (g s).2) :
    (Act.change g).Along R := h

theorem attempt (h : x.Along R) : x.attempt.Along R := h

theorem mono {S : σ → σ → Prop} (h : x.Along R) (hRS : ∀ s s', R s s' → S s s') : x.Along S :=
  fun s => (h s).lift id hRS

/-- What follows may depend on the state that it starts from. -/
theorem bind_of (hx : x.Along R)
    (hf : ∀ s a, (x s).1 = .ok a → ReflTransGen R (x s).2 (f a (x s).2).2) :
    (x >>= f).Along R := by
  intro s
  have hfirst := hx s
  have hrest := hf s
  rw [bind_apply]
  rcases hs : x s with ⟨e | a, s'⟩
  · rw [hs] at hfirst
    exact hfirst
  · rw [hs] at hfirst hrest
    exact hfirst.trans (hrest a rfl)

theorem bind (hx : x.Along R) (hf : ∀ a, (f a).Along R) : (x >>= f).Along R :=
  hx.bind_of fun s a _ => hf a (x s).2

end Along

end Act

/-! ## Edits -/

/-- What comes of looking at a heap: an item that is bound nowhere, such as the
copy of a default, or the identity of a context. -/
inductive Heap.Look (h : Heap) : Heap → Prop
  | item (v : Value) : h.Look (h.newItem v).2
  | context : h.Look h.newContext.2

/-- One change of the heap by the work of an operator in a context. -/
inductive Context.Edit (ctx : Context) (h : Heap) : Heap → Prop
  /-- An item that is bound nowhere, such as the copy of a default. -/
  | item (v : Value) : ctx.Edit h (h.newItem v).2
  /-- A name bound to a fresh item. -/
  | bind {s : ScopeId} (hs : s ∈ ctx.scopeChain) (name : String) (v : Value) :
      ctx.Edit h ((h.newItem v).2.bindVariable s name ⟨h.items.size⟩)
  /-- Another value for the item of a variable. -/
  | write {s : ScopeId} {name : String} {i : ItemId} (hs : s ∈ ctx.scopeChain)
      (hi : h.binding? s name = some i) (v : Value) : ctx.Edit h (h.setValue i v)
  | unbind (name : String) : ctx.Edit h (h.unbindVariable ctx.scope name)
  | context : ctx.Edit h h.newContext.2
  | append (count : Nat) : ctx.Edit h (h.appendFresh ctx.scope count)
  | remove (place : Nat) : ctx.Edit h (h.removeChild ctx.scope place).2
  | clear : ctx.Edit h (h.clearChildren ctx.scope).2
  /-- A copy of a sub-scope that is attached nowhere. -/
  | duplicate {source : ScopeId} (hsource : source ∈ (h.scope ctx.scope).children)
      (name : String) :
      ctx.Edit h ((h.copyAlone source.copy).2.rename (h.copyAlone source.copy).1 name)
  /-- A copy of a sub-scope as a further one. -/
  | graft {source : ScopeId} {h' : Heap} (hsource : source ∈ (h.scope ctx.scope).children)
      (name : String)
      (hadd : ((h.copyAlone source.copy).2.rename (h.copyAlone source.copy).1 name).addChild
        ctx.scope (h.copyAlone source.copy).1 = .ok h') : ctx.Edit h h'

theorem Heap.Look.edit {ctx : Context} {h h' : Heap} (hlook : h.Look h') : ctx.Edit h h' := by
  cases hlook with
  | item v => exact .item v
  | «context» => exact .context

/-- Looking is an edit, for any context. -/
theorem Act.Along.edit {α : Type} {ctx : Context} {x : Act Heap α} (hx : x.Along Heap.Look) :
    x.Along ctx.Edit :=
  hx.mono fun _ _ => Heap.Look.edit

/-- The bound scope is searched. -/
theorem Context.scope_mem_scopeChain (ctx : Context) : ctx.scope ∈ ctx.scopeChain := by
  induction ctx with
  | root id g s => exact List.mem_singleton_self s
  | frame id op s trail p ih =>
      rw [scopeChain]
      split
      · rename_i heq
        rw [heq] at ih
        exact ih
      · exact List.mem_cons_self

namespace Context

variable {ctx : Context} {h : Heap} {parameter name : String} {α : Type}

/-! ## Access -/

/-- What is found is bound in one of the scopes searched. -/
theorem binding_of_findIn {scopes : List ScopeId} {s : ScopeId} {i : ItemId}
    (hfind : h.findIn name scopes = some (s, i)) : s ∈ scopes ∧ h.binding? s name = some i := by
  induction scopes with
  | nil => cases hfind
  | cons t rest ih =>
      rw [Heap.findIn] at hfind
      cases ht : h.binding? t name with
      | some j =>
          rw [ht] at hfind
          obtain ⟨rfl, rfl⟩ := Prod.mk.inj (Option.some.inj hfind)
          exact ⟨List.mem_cons_self, ht⟩
      | none =>
          rw [ht] at hfind
          exact (ih hfind).imp_left (List.mem_cons_of_mem t)

/-- An item bound in one of the scopes that a context searches. -/
def Sees (ctx : Context) (h : Heap) (i : ItemId) : Prop :=
  ∃ s name, s ∈ ctx.scopeChain ∧ h.binding? s name = some i

theorem Sees.write {i : ItemId} (hi : ctx.Sees h i) (v : Value) :
    ReflTransGen ctx.Edit h (h.setValue i v) := by
  obtain ⟨s, name, hs, hbound⟩ := hi
  exact .single (.write hs hbound v)

/-- The ways in which an item that is a fresh copy can be asked for. -/
inductive Made (h : Heap) : Except Failure ItemId × Heap → Prop
  | failed (e : Failure) : Made h (.error e, h)
  | made (v : Value) : Made h (.ok ⟨h.items.size⟩, (h.newItem v).2)

theorem Made.along {r : Except Failure ItemId × Heap} (hr : Made h r) :
    ReflTransGen Heap.Look h r.2 := by
  cases hr with
  | failed e => exact .refl
  | made v => exact .single (.item v)

theorem detached_made (type : ValueType) (i : ItemId) : Made h (detached parameter type i h) := by
  unfold detached
  rw [Act.bind_apply, Act.look_apply]
  cases h.checkType parameter type i with
  | error e => exact .failed e
  | ok _ => exact .made (h.value i)

/-- A parameter stands for a variable that is seen, or is refused as one, or
it stands for no variable and an item is made for whoever asks. -/
theorem access_cases (ctx : Context) (parameter : String) (h : Heap) :
    (∃ i, ctx.Sees h i ∧ ctx.getVariable parameter h = (.ok (some i), h) ∧
        ctx.get parameter h = (.ok i, h)) ∨
      (∃ e, ctx.getVariable parameter h = (.error e, h) ∧ ctx.get parameter h = (.error e, h)) ∨
      (ctx.getVariable parameter h = (.ok none, h) ∧ Made h (ctx.get parameter h)) := by
  unfold getVariable get
  simp only [Act.bind_apply, Act.ofExcept_apply]
  cases ctx.resolve parameter with
  | error e => exact .inr (.inl ⟨e, rfl, rfl⟩)
  | ok resolution =>
      cases resolution with
      | fixed value type => exact .inr (.inr ⟨rfl, detached_made type value⟩)
      | «variable» name default type =>
          dsimp only
          simp only [Act.bind_apply, Act.see_apply]
          cases hfind : ctx.find? h name with
          | none =>
              refine .inr (.inr ⟨rfl, ?_⟩)
              cases default with
              | none => exact .failed _
              | some value => exact detached_made type value
          | some found =>
              obtain ⟨s, i⟩ := found
              dsimp only
              simp only [Act.bind_apply, Act.look_apply]
              cases h.checkType parameter type i with
              | error e => exact .inr (.inl ⟨e, rfl, rfl⟩)
              | ok _ => exact .inl ⟨i, ⟨s, name, binding_of_findIn hfind⟩, rfl, rfl⟩

theorem get_along : (ctx.get parameter).Along Heap.Look := by
  intro h
  rcases ctx.access_cases parameter h with ⟨i, -, -, hget⟩ | ⟨e, -, hget⟩ | ⟨-, hmade⟩
  · rw [hget]
  · rw [hget]
  · exact hmade.along

theorem getOptional_along : (ctx.getOptional parameter).Along Heap.Look := by
  apply get_along.attempt.bind
  intro r
  split <;> exact .still fun _ => rfl

/-- A look-up of a variable changes nothing, and finds one that is seen. -/
theorem getVariable_spec (ctx : Context) (parameter : String) (h : Heap) :
    (ctx.getVariable parameter h).2 = h ∧
      ∀ i, (ctx.getVariable parameter h).1 = .ok (some i) → ctx.Sees h i := by
  rcases ctx.access_cases parameter h with ⟨i, hi, hget, -⟩ | ⟨e, hget, -⟩ | ⟨hget, -⟩
  · rw [hget]
    refine ⟨rfl, fun j hj => ?_⟩
    obtain rfl : i = j := Option.some.inj (Except.ok.inj hj)
    exact hi
  · rw [hget]
    exact ⟨rfl, nofun⟩
  · rw [hget]
    exact ⟨rfl, nofun⟩

theorem value_along : (ctx.value parameter).Along Heap.Look :=
  get_along.bind fun _ => .still fun _ => rfl

theorem typed_along (type : ValueType) (as? : Value → Option α) :
    (ctx.typed parameter type as?).Along Heap.Look := by
  apply value_along.bind
  intro v
  split <;> exact .still fun _ => rfl

/-! ## Binding -/

/-- Binding an item through a parameter binds it where it can be seen, or
changes nothing. -/
theorem setItem_spec (ctx : Context) (parameter : String) (i : ItemId) (h : Heap) :
    (ctx.setItem parameter i h).2 = h ∨
      ∃ s name, s ∈ ctx.scopeChain ∧ (ctx.setItem parameter i h).2 = h.bindVariable s name i := by
  unfold setItem
  rw [Act.bind_apply, Act.ofExcept_apply]
  cases ctx.resolve parameter with
  | error e => exact .inl rfl
  | ok resolution =>
      cases resolution with
      | fixed value type => exact .inl rfl
      | «variable» name default type =>
          dsimp only
          rw [Act.bind_apply, Act.look_apply]
          cases h.checkType parameter type i with
          | error e => exact .inl rfl
          | ok _ =>
              dsimp only
              rw [Act.modify_apply]
              cases hfind : ctx.find? h name with
              | none => exact .inr ⟨ctx.scope, name, ctx.scope_mem_scopeChain, rfl⟩
              | some found => exact .inr ⟨found.1, name, (binding_of_findIn hfind).1, rfl⟩

/-- An item made for the purpose. -/
theorem setFresh_along (v : Heap → Value) :
    (Act.change (fun h => h.newItem (v h)) >>= ctx.setItem parameter).Along ctx.Edit := by
  intro h
  rcases ctx.setItem_spec parameter ⟨h.items.size⟩ (h.newItem (v h)).2 with
    heq | ⟨s, name, hs, heq⟩
  · show ReflTransGen ctx.Edit h (ctx.setItem parameter _ (h.newItem (v h)).2).2
    rw [heq]
    exact .single (.item (v h))
  · show ReflTransGen ctx.Edit h (ctx.setItem parameter _ (h.newItem (v h)).2).2
    rw [heq]
    exact .single (.bind hs name (v h))

theorem set_along (v : Value) : (ctx.set parameter v).Along ctx.Edit :=
  setFresh_along fun _ => v

theorem remove_along : (ctx.remove parameter).Along ctx.Edit := by
  apply Act.Along.bind (.still fun _ => rfl)
  intro resolution
  cases resolution with
  | fixed value type => exact .still fun _ => rfl
  | «variable» name default type => exact .change fun h => .single (.unbind name)

/-! ## Random sources -/

/-- The ways in which an item to draw from can be asked for. -/
inductive Drawn (ctx : Context) (h : Heap) : Except Failure ItemId × Heap → Prop
  | failed {h' : Heap} (e : Failure) (hh : ReflTransGen ctx.Edit h h') : ctx.Drawn h (.error e, h')
  | found {i : ItemId} (hi : ctx.Sees h i) : ctx.Drawn h (.ok i, h)
  | made (v : Value) : ctx.Drawn h (.ok ⟨h.items.size⟩, (h.newItem v).2)
  | bound {s : ScopeId} (hs : s ∈ ctx.scopeChain) (name : String) (v : Value) :
      ctx.Drawn h (.ok ⟨h.items.size⟩, (h.newItem v).2.bindVariable s name ⟨h.items.size⟩)

theorem randomItem_drawn : ctx.Drawn h (ctx.randomItem parameter h) := by
  unfold randomItem
  rw [Act.bind_apply]
  rcases ctx.access_cases parameter h with ⟨i, hi, hget, -⟩ | ⟨e, hget, -⟩ | ⟨hget, hmade⟩
  · rw [hget]
    exact .found hi
  · rw [hget]
    exact .failed e .refl
  · rw [hget]
    dsimp only
    rw [Act.bind_apply]
    generalize ctx.get parameter h = r at hmade ⊢
    cases hmade with
    | failed e => exact .failed e .refl
    | made v =>
        dsimp only
        rw [Act.bind_apply, Act.attempt]
        have hset := ctx.setItem_spec parameter ⟨h.items.size⟩ (h.newItem v).2
        generalize ctx.setItem parameter ⟨h.items.size⟩ (h.newItem v).2 = r at hset ⊢
        obtain ⟨outcome, h'⟩ := r
        -- The item is bound where it can be seen, or the parameter is fixed.
        rcases hset with heq | ⟨s, name, hs, heq⟩
        · obtain rfl : h' = (h.newItem v).2 := heq
          dsimp only
          split
          · exact .made v
          · exact .made v
          · exact .failed _ (.single (.item v))
        · obtain rfl : h' = (h.newItem v).2.bindVariable s name ⟨h.items.size⟩ := heq
          dsimp only
          split
          · exact .bound hs name v
          · exact .bound hs name v
          · exact .failed _ (.single (.bind hs name v))

theorem setValue_newItem (v w : Value) :
    (h.newItem v).2.setValue ⟨h.items.size⟩ w = (h.newItem w).2 := by
  simp [Heap.newItem, Heap.setValue, Array.setIfInBounds, Array.set_push]

/-- Drawing from a source changes the item of a variable, or one made for it. -/
theorem withRandom_along (f : Random.Source → α × Random.Source) :
    (ctx.withRandom parameter f).Along ctx.Edit := by
  intro h
  have hdrawn : ctx.Drawn h (ctx.randomItem parameter h) := randomItem_drawn
  unfold withRandom
  rw [Act.bind_apply]
  generalize ctx.randomItem parameter h = r at hdrawn ⊢
  cases hdrawn with
  | failed e hh => exact hh
  | @found i hi =>
      dsimp only
      rw [Act.bind_apply, Act.see_apply]
      dsimp only
      cases h.value i with
      | random source => exact hi.write _
      | _ => exact .refl
  | made v =>
      dsimp only
      rw [Act.bind_apply, Act.see_apply]
      dsimp only
      cases (h.newItem v).2.value ⟨h.items.size⟩ with
      | random source =>
          show ReflTransGen ctx.Edit h ((h.newItem v).2.setValue ⟨h.items.size⟩ _)
          rw [setValue_newItem]
          exact .single (.item _)
      | _ => exact .single (.item v)
  | @bound s hs name v =>
      dsimp only
      rw [Act.bind_apply, Act.see_apply]
      dsimp only
      cases ((h.newItem v).2.bindVariable s name ⟨h.items.size⟩).value ⟨h.items.size⟩ with
      | random source =>
          show ReflTransGen ctx.Edit h
            (((h.newItem v).2.setValue ⟨h.items.size⟩ _).bindVariable s name ⟨h.items.size⟩)
          rw [setValue_newItem]
          exact .single (.bind hs name _)
      | _ => exact .single (.bind hs name v)

/-! ## Leaves -/

theorem assign_along : ctx.assign.Along ctx.Edit :=
  get_along.edit.bind fun right => setFresh_along fun h => h.value right

theorem count_along : ctx.count.Along ctx.Edit := by
  apply (typed_along _ _).edit.bind
  intro increment
  refine Act.Along.bind_of (.still fun h => (ctx.getVariable_spec "Value" h).1) fun h i? hi? => ?_
  obtain ⟨hsame, hseen⟩ := ctx.getVariable_spec "Value" h
  rw [hsame]
  cases i? with
  | some i => exact (hseen i hi?).write _
  | none =>
      apply getOptional_along.edit.bind
      intro default
      apply Act.Along.bind (.still fun _ => rfl)
      exact fun start => set_along _

theorem compare_along (relation : Comparison) : (ctx.compare name relation).Along ctx.Edit := by
  apply value_along.edit.bind
  intro left
  apply value_along.edit.bind
  intro right
  cases left.compare? right with
  | none => exact .still fun _ => rfl
  | some o => exact set_along _

theorem createVariables_along (ps : List Parameter) :
    (ctx.createVariables ps).Along ctx.Edit := by
  induction ps with
  | nil => exact .still fun _ => rfl
  | cons p rest ih =>
      apply Act.Along.bind (.still fun _ => rfl)
      intro resolution
      cases resolution with
      | fixed value type => exact ih
      | «variable» name default type =>
          cases default with
          | none => exact ih
          | some initial =>
              refine Act.Along.bind (.modify fun h => ?_) fun _ => ih
              split
              · exact .refl
              · exact .single (.bind ctx.scope_mem_scopeChain name (h.value initial))

theorem checkCancelled_along {R : Heap → Heap → Prop} (cancelled : Bool) :
    (checkCancelled cancelled).Along R := by
  unfold checkCancelled
  split <;> exact .still fun _ => rfl

theorem createSubScopes_along (cancelled : Bool) :
    (ctx.createSubScopes name cancelled).Along ctx.Edit := by
  apply (typed_along _ _).edit.bind
  intro n
  split
  · exact .still fun _ => rfl
  · apply (checkCancelled_along _).bind
    exact fun _ => .modify fun h => .single (.append _)

theorem removeAllSubScopes_along : ctx.removeAllSubScopes.Along ctx.Edit :=
  .modify fun _ => .single .clear

theorem removeSubScope_along : (ctx.removeSubScope name).Along ctx.Edit := by
  apply (typed_along _ _).edit.bind
  intro index
  dsimp only
  split
  · refine Act.Along.bind (.still fun _ => rfl) fun removed => ?_
    cases removed <;> exact .still fun _ => rfl
  · refine Act.Along.bind (.change fun h => .single (.remove _)) fun removed => ?_
    cases removed <;> exact .still fun _ => rfl

theorem pickSubScope_mem {children : List ScopeId} {index : Int} {source : ScopeId}
    (hpick : pickSubScope children index = some source) : source ∈ children := by
  unfold pickSubScope at hpick
  simp only [Option.ite_none_left_eq_some] at hpick
  exact List.mem_of_getElem? hpick.2

/-- Reading leaves all scopes alone. -/
theorem get_scopes : (ctx.get parameter h).2.scopes = h.scopes := by
  rcases ctx.access_cases parameter h with ⟨i, -, -, hget⟩ | ⟨e, -, hget⟩ | ⟨-, hmade⟩
  · rw [hget]
  · rw [hget]
  · generalize ctx.get parameter h = r at hmade ⊢
    cases hmade with
    | failed e => rfl
    | made v => rfl

theorem typed_scopes (type : ValueType) (as? : Value → Option α) :
    (ctx.typed parameter type as? h).2.scopes = h.scopes := by
  have hget : (ctx.get parameter h).2.scopes = h.scopes := get_scopes
  unfold typed value
  rw [Act.bind_apply, Act.bind_apply]
  generalize ctx.get parameter h = r at hget ⊢
  obtain ⟨e | i, h'⟩ := r
  · exact hget
  · dsimp only
    rw [Act.see_apply]
    dsimp only
    cases as? (h'.value i) with
    | none => exact hget
    | some a => exact hget

/-- Copying a sub-scope and attaching the copy, or leaving it unattached where
that is refused. -/
theorem graft_along {source : ScopeId} (hsource : source ∈ (h.scope ctx.scope).children) :
    ReflTransGen ctx.Edit h ((do
      let copy ← Act.change fun h => h.copyAlone source.copy
      Act.modify fun h => h.rename copy name
      Act.commit fun h => h.addChild ctx.scope copy : Act Heap Unit) h).2 := by
  rw [Act.bind_apply, Act.change_apply]
  dsimp only
  rw [Act.bind_apply, Act.modify_apply]
  dsimp only [Act.commit]
  cases hadd : ((h.copyAlone source.copy).2.rename (h.copyAlone source.copy).1 name).addChild
      ctx.scope (h.copyAlone source.copy).1 with
  | error e => exact .single (.duplicate hsource name)
  | ok h' => exact .single (.graft hsource name hadd)

theorem duplicateSubScope_along (cancelled : Bool) :
    (ctx.duplicateSubScope name cancelled).Along ctx.Edit := by
  refine Act.Along.bind_of (.still fun _ => rfl) ?_
  rintro h children hchildren
  obtain rfl : (h.scope ctx.scope).children = children := Except.ok.inj hchildren
  -- Reading the place may make an item, but it leaves the sub-scopes alone.
  have hread : ReflTransGen ctx.Edit h (ctx.typed "SubScopeIndex" .int Value.int? h).2 :=
    (typed_along .int Value.int?).edit h
  have hscopes : (ctx.typed "SubScopeIndex" .int Value.int? h).2.scopes = h.scopes :=
    typed_scopes .int Value.int?
  rw [Act.see_apply, Act.bind_apply, getInt]
  generalize ctx.typed "SubScopeIndex" .int Value.int? h = r at hread hscopes ⊢
  obtain ⟨e | index, h'⟩ := r
  · exact hread
  · refine hread.trans ?_
    dsimp only
    cases hpick : pickSubScope (h.scope ctx.scope).children index.toInt with
    | none => exact .refl
    | some source =>
        have hsource : source ∈ (h'.scope ctx.scope).children := by
          rw [Heap.scope, hscopes]
          exact pickSubScope_mem hpick
        unfold checkCancelled
        split
        · exact .refl
        · exact graft_along hsource

/-! ## Composites -/

theorem childrenOn_along (places : List (OperatorId × ScopeId)) :
    (ctx.childrenOn places).Along Heap.Look := by
  induction places with
  | nil => exact .still fun _ => rfl
  | cons place rest ih =>
      obtain ⟨op, s⟩ := place
      apply Act.Along.bind
      · apply Act.Along.bind (.change fun h => .single .context)
        exact fun _ => .still fun _ => rfl
      · exact fun _ => ih.bind fun _ => .still fun _ => rfl

theorem successor_along : ctx.successor.Along Heap.Look := by
  apply Act.Along.bind (.still fun _ => rfl)
  intro op
  split
  · exact .still fun _ => rfl
  · split
    · exact .bind (.still fun _ => rfl) fun _ => .still fun _ => rfl
    · exact .bind (.change fun h => .single .context) fun _ => .still fun _ => rfl

theorem reenter_along : ctx.reenter.Along Heap.Look := by
  unfold reenter
  split
  · exact .bind (.change fun h => .single .context) fun _ => .still fun _ => rfl
  · exact .still fun _ => rfl

theorem thenSuccessor_along (ops : List Operation) : (ctx.thenSuccessor ops).Along Heap.Look :=
  successor_along.bind fun _ => .still fun _ => rfl

theorem branches_along (ops : List Operation) : (ctx.branches ops).Along Heap.Look :=
  (typed_along _ _).bind fun _ => thenSuccessor_along _

theorem runInOrder_along (ops : List OperatorId) : (ctx.runInOrder ops).Along Heap.Look :=
  (childrenOn_along _).bind fun _ => thenSuccessor_along _

theorem runOnSubScopes_along (ops : List OperatorId) :
    (ctx.runOnSubScopes name ops).Along Heap.Look := by
  apply Act.Along.bind (.still fun _ => rfl)
  intro subs
  split
  · exact .still fun _ => rfl
  · exact (childrenOn_along _).bind fun _ => branches_along _

theorem runBelow_along (body : Option OperatorId) (depth : Nat) :
    (ctx.runBelow body depth).Along Heap.Look := by
  apply Act.Along.bind (.still fun _ => rfl)
  exact fun _ => (childrenOn_along _).bind fun _ => branches_along _

theorem runBranch_along (onTrue onFalse : Option OperatorId) :
    (ctx.runBranch onTrue onFalse).Along Heap.Look :=
  (typed_along _ _).bind fun _ => runInOrder_along _

theorem runLoop_along (body terminator : Option OperatorId) :
    (ctx.runLoop body terminator).Along Heap.Look := by
  apply (typed_along _ _).bind
  intro finished
  split
  · exact successor_along
  · apply (childrenOn_along _).bind
    exact fun _ => reenter_along.bind fun _ => .still fun _ => rfl

theorem runChosen_along : ctx.runChosen.Along Heap.Look := by
  apply (typed_along _ _).bind
  exact fun _ => .bind (.still fun _ => rfl) fun _ => runInOrder_along _

end Context

theorem Operator.work_along (op : Operator) (cancelled : Bool) (ctx : Context) :
    (op.work cancelled ctx).Along ctx.Edit := by
  have hthen : ∀ {x : Act Heap Unit}, x.Along ctx.Edit →
      (x >>= fun _ => ctx.successor).Along ctx.Edit :=
    fun hx => hx.bind fun _ => Context.successor_along.edit
  unfold work
  split
  · exact Context.successor_along.edit
  · exact Context.successor_along.edit
  · exact hthen Context.assign_along
  · exact hthen Context.count_along
  · exact hthen (Context.compare_along _)
  · exact hthen (Context.createVariables_along _)
  · exact hthen (Context.createSubScopes_along _)
  · exact hthen Context.removeAllSubScopes_along
  · exact hthen Context.removeSubScope_along
  · exact hthen (Context.duplicateSubScope_along _)
  · exact (Context.runInOrder_along _).edit
  · exact (Context.runOnSubScopes_along _).edit
  · exact (Context.runBelow_along _ _).edit
  · exact (Context.runBranch_along _ _).edit
  · exact (Context.runLoop_along _ _).edit
  · exact Context.runChosen_along.edit

/-! ## Whole executions -/

/-- The heap of the one world is that of the other after edits. -/
def Context.Reworks (ctx : Context) (w w' : World) : Prop := ReflTransGen ctx.Edit w.heap w'.heap

theorem Act.Along.onHeap {ctx : Context} {α : Type} {x : Act Heap α} (hx : x.Along ctx.Edit) :
    (World.onHeap x).Along ctx.Reworks :=
  fun w => .single (hx w.heap)

theorem World.request_heap (w : World) (setting : Setting) (r : Request) :
    (w.request setting r).heap = w.heap := by
  unfold request
  split
  · split <;> rfl
  · split <;> rfl
  · split <;> rfl
  · rfl

theorem Leaf.run_along (name : String) (setting : Setting) (ctx : Context) (program : Leaf) :
    (program.run name setting ctx).Along ctx.Reworks := by
  induction program with
  | done => exact .still fun _ => rfl
  | fail message => exact .still fun _ => rfl
  | cancelled => exact .still fun _ => rfl
  | value p next ih => exact Context.value_along.edit.onHeap.bind ih
  | «optional» p next ih =>
      apply Context.getOptional_along.edit.onHeap.bind
      exact fun _ => .bind (.still fun _ => rfl) ih
  | bool p next ih => exact (Context.typed_along _ _).edit.onHeap.bind ih
  | int p next ih => exact (Context.typed_along _ _).edit.onHeap.bind ih
  | double p next ih => exact (Context.typed_along _ _).edit.onHeap.bind ih
  | operator p next ih => exact (Context.typed_along _ _).edit.onHeap.bind ih
  | set p v next ih => exact (Context.set_along v).onHeap.bind fun _ => ih
  | remove p next ih => exact Context.remove_along.onHeap.bind fun _ => ih
  | random p calls next ih => exact (Context.withRandom_along _).onHeap.bind ih
  | request r next ih =>
      refine .bind (.modify fun w => .single ?_) fun _ => ih
      show ReflTransGen ctx.Edit w.heap (w.request setting r).heap
      rw [World.request_heap]
  | isCancelled next ih => exact .bind (.still fun _ => rfl) ih

/-- An execution is a row of edits, whether it fails or not. -/
theorem Context.execute_along (ctx : Context) (setting : Setting) (w : World) :
    ReflTransGen ctx.Edit w.heap (ctx.execute setting w).2.heap := by
  have hrun : (ctx.execute setting).Along ctx.Reworks := by
    apply Act.Along.bind (.still fun _ => rfl)
    intro op
    apply Act.Along.bind
    · unfold Operator.runLeaf
      split
      · exact Leaf.run_along _ _ _ _
      · exact .still fun _ => rfl
    · exact fun _ => .bind (.still fun _ => rfl) fun _ => (op.work_along _ ctx).onHeap
  exact (hrun w).lift' World.heap fun _ _ hstep => hstep

end ScopeFlow
