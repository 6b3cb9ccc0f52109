import ScopeFlow.Proofs.Likeness.Duplicate
import ScopeFlow.Proofs.Likeness.Schedule

/-!
# Built-in operators on both sides

The work of a built-in operator in corresponding contexts mirrors itself: one
lemma for each kind of operator, put together in `Operator.work_mirrors`. The
programs of users that make no requests do so as well.
-/

namespace ScopeFlow

open Act

theorem checkCancelled_mirrors {ρ : Renaming} (cancelled : Bool) :
    Mirrors ρ (fun _ => Eq) (checkCancelled cancelled) (checkCancelled cancelled) := by
  cases cancelled with
  | true => exact .fail
  | false => exact .pure rfl

/-- The scopes some levels below correspond. -/
theorem Agree.scopesAtDepth_alike {ρ : Renaming} {h k : Heap} (ha : Agree ρ h k) (depth : Nat) :
    ∀ {s t : ScopeId}, ρ.scopes s t →
      List.Forall₂ ρ.scopes (h.scopesAtDepth depth s) (k.scopesAtDepth depth t) := by
  induction depth with
  | zero =>
      intro s t hst
      exact .cons hst .nil
  | succ depth ih =>
      intro s t hst
      rw [Heap.scopesAtDepth, Heap.scopesAtDepth]
      have hchildren := (ha.scope hst).2.2.children
      generalize (h.scope s).children = ss at hchildren ⊢
      generalize (k.scope t).children = ts at hchildren ⊢
      induction hchildren with
      | nil => exact .nil
      | cons hcd _ ihrest =>
          rw [List.flatMap_cons, List.flatMap_cons]
          exact List.rel_append (ih hcd) ihrest

namespace Context

variable {ρ : Renaming} {c d : Context} (hcd : ρ.contexts c d)
include hcd

/-! ## Leaves -/

theorem assign_mirrors : Mirrors ρ (fun _ => Eq) c.assign d.assign := by
  unfold assign
  refine .bind (get_mirrors hcd "Right") fun ρ' hw i j hij => ?_
  refine .bind (.change fun h k ha => ha.copyItem hij) fun ρ'' hw' i' j' hij' => ?_
  exact setItem_mirrors ((hw.trans hw').contexts hcd) hij' "Left"

theorem count_mirrors : Mirrors ρ (fun _ => Eq) c.count d.count := by
  unfold count
  refine .bind (typed_mirrors hcd "Increment" .int Value.int?) fun ρ' hw n m hnm => ?_
  subst hnm
  refine .bind (getVariable_mirrors (hw.contexts hcd) "Value") fun ρ'' hw' x y hxy => ?_
  cases hxy with
  | some hij =>
      refine .modify fun h k ha => ?_
      rw [ha.value_eq hij]
      exact ⟨_, ha.setValue hij _⟩
  | none =>
      have hcd' := (hw.trans hw').contexts hcd
      refine .bind (getOptional_mirrors hcd' "Value") fun ρ₃ hw'' x y hxy => ?_
      refine .bind (R := fun _ => Eq) (.see fun h k ha => ?_) fun ρ₄ hw₃ a b hab => ?_
      · cases hxy with
        | none => rfl
        | some hij =>
            rw [Option.bind_some, Option.bind_some, ha.value_eq hij]
      · subst hab
        exact set_mirrors ((hw''.trans hw₃).contexts hcd') "Value" _

theorem compare_mirrors (name : String) (relation : Comparison) :
    Mirrors ρ (fun _ => Eq) (c.compare name relation) (d.compare name relation) := by
  unfold compare
  refine .bind (value_mirrors hcd "Left") fun ρ' hw left left' hleft => ?_
  subst hleft
  refine .bind (value_mirrors (hw.contexts hcd) "Right") fun ρ'' hw' right right' hright => ?_
  subst hright
  split
  · exact set_mirrors ((hw.trans hw').contexts hcd) "Result" _
  · exact .fail

/-- Creating one variable, unless there is one of that name. -/
theorem createVariable_mirrors {i j : ItemId} (hij : ρ.items i j) (name : String) :
    Mirrors ρ (fun _ => Eq)
      (Act.modify fun h =>
        if (h.scope c.scope).bindings.contains name then h
        else
          let (i', h') := h.copyItem i
          h'.bindVariable c.scope name i')
      (Act.modify fun k =>
        if (k.scope d.scope).bindings.contains name then k
        else
          let (j', k') := k.copyItem j
          k'.bindVariable d.scope name j') := by
  refine .modify fun h k ha => ?_
  have hst := ha.context_scope hcd
  have hbound : (h.scope c.scope).bindings.contains name =
      (k.scope d.scope).bindings.contains name := by
    have hrel := ha.binding?_alike hst name
    unfold Bindings.contains
    unfold Heap.binding? at hrel
    generalize (h.scope c.scope).bindings.find? name = x at hrel ⊢
    generalize (k.scope d.scope).bindings.find? name = y at hrel ⊢
    cases hrel <;> rfl
  rw [hbound]
  split
  · exact ⟨ρ, ha, .refl⟩
  · obtain ⟨ρ', hconf, ha', hij'⟩ := ha.copyItem hij
    obtain ⟨ha'', hconf'⟩ := ha'.bindVariable (hconf.within.scopes hst) hij' name
    exact ⟨ρ', ha'', hconf.trans hconf'⟩

omit hcd in
theorem createVariables_mirrors (ps : List Parameter) :
    ∀ {ρ : Renaming} {qs : List Parameter}, ρ.contexts c d →
      List.Forall₂ (fun p q => p.name = q.name) ps qs →
      Mirrors ρ (fun _ => Eq) (c.createVariables ps) (d.createVariables qs) := by
  induction ps with
  | nil =>
      intro ρ qs _ h
      cases h
      exact .pure rfl
  | cons p ps ih =>
      intro ρ qs hcd h
      cases h with
      | @cons _ q _ qs hname h =>
          rw [createVariables, createVariables, hname]
          refine .bind (resolve_mirrors hcd q.name) fun ρ' hw r r' hr => ?_
          have hcd' := hw.contexts hcd
          cases hr with
          | toValue type _ => exact ih hcd' h
          | toName name type hdefault =>
              cases hdefault with
              | none => exact ih hcd' h
              | some hij =>
                  exact .bind (createVariable_mirrors hcd' hij name) fun _ hw' _ _ _ =>
                    ih (hw'.contexts hcd') h

theorem createSubScopes_mirrors (name : String) (cancelled : Bool) :
    Mirrors ρ (fun _ => Eq) (c.createSubScopes name cancelled)
      (d.createSubScopes name cancelled) := by
  unfold createSubScopes
  refine .bind (typed_mirrors hcd "NumberOfSubScopes" .int Value.int?) fun ρ' hw n m hnm => ?_
  subst hnm
  split
  · exact .fail
  · refine .bind (checkCancelled_mirrors _) fun ρ'' hw' _ _ _ => .modify fun h k ha => ?_
    exact ⟨_, ha.appendFresh (ha.context_scope ((hw.trans hw').contexts hcd)) _⟩

theorem removeAllSubScopes_mirrors :
    Mirrors ρ (fun _ => Eq) c.removeAllSubScopes d.removeAllSubScopes :=
  .modify fun _ _ ha => ⟨_, ha.clearChildren (ha.context_scope hcd)⟩

/-- The sub-scopes of the bound scopes. -/
theorem children_mirrors :
    Mirrors ρ (fun σ => List.Forall₂ σ.scopes) (Act.see fun h => (h.scope c.scope).children)
      (Act.see fun k => (k.scope d.scope).children) :=
  .see fun _ _ ha => (ha.scope (ha.context_scope hcd)).2.2.children

theorem removeSubScope_mirrors (name : String) :
    Mirrors ρ (fun _ => Eq) (c.removeSubScope name) (d.removeSubScope name) := by
  unfold removeSubScope
  refine .bind (typed_mirrors hcd "SubScopeIndex" .int Value.int?) fun ρ' hw n m hnm => ?_
  subst hnm
  have hcd' := hw.contexts hcd
  have hnone : ∀ {σ : Renaming}, ρ'.Within σ → Mirrors σ (fun _ => Eq)
      (do
        let count ← Act.see fun h => (h.scope c.scope).children.length
        Act.fail (noSubScope name n count) : Act Heap Unit)
      (do
        let count ← Act.see fun k => (k.scope d.scope).children.length
        Act.fail (noSubScope name n count)) := by
    intro σ hσ
    refine .bind (R := fun _ => Eq) (.see fun h k ha => ?_) fun _ _ n m hnm => ?_
    · exact (ha.scope (ha.context_scope (hσ.contexts hcd'))).2.2.children.length_eq
    · subst hnm
      exact .fail
  split
  · exact hnone .refl
  · refine .bind (R := fun σ => Option.Rel σ.scopes)
      (.change fun h k ha => ⟨_, ha.removeChild (ha.context_scope hcd') _⟩) ?_
    intro ρ'' hw' x y hxy
    cases hxy with
    | some _ => exact .pure rfl
    | none => exact hnone hw'

omit hcd in
theorem pickSubScope_alike {ss ts : List ScopeId} (h : List.Forall₂ ρ.scopes ss ts) (n : Int) :
    Option.Rel ρ.scopes (pickSubScope ss n) (pickSubScope ts n) := by
  unfold pickSubScope
  rw [h.length_eq]
  generalize (if n < 0 then (ts.length : Int) + n else n) = place
  dsimp only
  split
  · exact .none
  · exact forall₂_getElem? h _

theorem duplicateSubScope_mirrors (name : String) (cancelled : Bool) :
    Mirrors ρ (fun _ => Eq) (c.duplicateSubScope name cancelled)
      (d.duplicateSubScope name cancelled) := by
  unfold duplicateSubScope
  refine .bind (children_mirrors hcd) fun ρ' hw ss ts hst => ?_
  refine .bind (typed_mirrors (hw.contexts hcd) "SubScopeIndex" .int Value.int?) ?_
  intro ρ'' hw' n m hnm
  subst hnm
  have hst' := hst.imp fun _ _ => hw'.scopes
  have hpick := pickSubScope_alike hst' n.toInt
  have hlen := hst.length_eq
  generalize pickSubScope ss n.toInt = x at hpick ⊢
  generalize pickSubScope ts n.toInt = y at hpick ⊢
  cases hpick with
  | none =>
      dsimp only
      rw [hlen]
      exact .fail
  | some huv =>
      refine .bind (checkCancelled_mirrors cancelled) fun ρ₃ hw'' _ _ _ => ?_
      have hw₃ := hw.trans (hw'.trans hw'')
      refine .given fun h k ha => ?_
      rw [hlen]
      exact duplicate_mirrors (ha.context_scope (hw₃.contexts hcd)) (hw''.scopes huv) _

/-! ## Composites -/

theorem branches_mirrors {ops ops' : List Operation} (hops : Operation.AllAlike ρ ops ops') :
    Mirrors ρ (fun σ => Option.Rel (Operation.Alike σ)) (c.branches ops) (d.branches ops') := by
  unfold branches
  refine .bind (typed_mirrors hcd "Parallel" .bool Value.bool?) fun ρ' hw b b' hb => ?_
  subst hb
  have hops' := Operation.AllAlike.mono hw hops
  refine thenSuccessor_mirrors (hw.contexts hcd) (Operation.toList_alike ?_)
  split
  · exact Operation.inParallel_alike hops'
  · exact Operation.inSequence_alike hops'

theorem runInOrder_mirrors (ops : List OperatorId) :
    Mirrors ρ (fun σ => Option.Rel (Operation.Alike σ)) (c.runInOrder ops)
      (d.runInOrder ops) := by
  unfold runInOrder
  refine .bind (childrenHere_mirrors hcd ops) fun ρ' hw children children' h => ?_
  exact thenSuccessor_mirrors (hw.contexts hcd) h

omit hcd in
theorem zip_alike (ops : List OperatorId) :
    ∀ {ss ts : List ScopeId}, List.Forall₂ ρ.scopes ss ts →
      List.Forall₂ (fun x y => x.1 = y.1 ∧ ρ.scopes x.2 y.2) (ops.zip ss) (ops.zip ts) := by
  induction ops with
  | nil =>
      intro ss ts _
      exact .nil
  | cons op ops ih =>
      intro ss ts h
      cases h with
      | nil => exact .nil
      | cons hst h => exact .cons ⟨rfl, hst⟩ (ih h)

theorem runOnSubScopes_mirrors (name : String) (ops : List OperatorId) :
    Mirrors ρ (fun σ => Option.Rel (Operation.Alike σ)) (c.runOnSubScopes name ops)
      (d.runOnSubScopes name ops) := by
  unfold runOnSubScopes
  refine .bind (children_mirrors hcd) fun ρ' hw ss ts hst => ?_
  rw [hst.length_eq]
  split
  · exact .fail
  · refine .bind (childrenOn_mirrors _ (hw.contexts hcd) (zip_alike ops hst)) ?_
    exact fun ρ'' hw' children children' h =>
      branches_mirrors ((hw.trans hw').contexts hcd) h

theorem runBelow_mirrors (body : Option OperatorId) (depth : Nat) :
    Mirrors ρ (fun σ => Option.Rel (Operation.Alike σ)) (c.runBelow body depth)
      (d.runBelow body depth) := by
  unfold runBelow
  refine .bind (R := fun σ => List.Forall₂ fun x y => x.1 = y.1 ∧ σ.scopes x.2 y.2)
    (.see fun h k ha => ?_) fun ρ' hw places places' h => ?_
  · cases body with
    | none => exact .nil
    | some op =>
        dsimp only
        rw [List.forall₂_map_left_iff, List.forall₂_map_right_iff]
        exact (ha.scopesAtDepth_alike depth (ha.context_scope hcd)).imp fun _ _ hst => ⟨rfl, hst⟩
  · refine .bind (childrenOn_mirrors _ (hw.contexts hcd) h) fun ρ'' hw' ops ops' hops => ?_
    exact branches_mirrors ((hw.trans hw').contexts hcd) hops

theorem runBranch_mirrors (onTrue onFalse : Option OperatorId) :
    Mirrors ρ (fun σ => Option.Rel (Operation.Alike σ)) (c.runBranch onTrue onFalse)
      (d.runBranch onTrue onFalse) := by
  unfold runBranch
  refine .bind (typed_mirrors hcd "Condition" .bool Value.bool?) fun ρ' hw b b' hb => ?_
  subst hb
  exact runInOrder_mirrors (hw.contexts hcd) _

theorem runLoop_mirrors (body terminator : Option OperatorId) :
    Mirrors ρ (fun σ => Option.Rel (Operation.Alike σ)) (c.runLoop body terminator)
      (d.runLoop body terminator) := by
  unfold runLoop
  refine .bind (typed_mirrors hcd "Terminate" .bool Value.bool?) fun ρ' hw b b' hb => ?_
  subst hb
  have hcd' := hw.contexts hcd
  split
  · exact successor_mirrors hcd'
  · refine .bind (childrenHere_mirrors hcd' _) fun ρ'' hw' round round' hround => ?_
    refine .bind (reenter_mirrors (hw'.contexts hcd')) fun ρ₃ hw'' again again' hagain => ?_
    exact .pure (Operation.inSequence_alike
      (List.rel_append (Operation.AllAlike.mono hw'' hround) (.cons hagain .nil)))

theorem runChosen_mirrors :
    Mirrors ρ (fun σ => Option.Rel (Operation.Alike σ)) c.runChosen d.runChosen := by
  unfold runChosen
  refine .bind (typed_mirrors hcd "Operator" .operator Value.operator?) fun ρ' hw op op' hop => ?_
  subst hop
  have hcd' := hw.contexts hcd
  refine .bind (R := fun _ => Eq)
    (.ofExcept fun h k ha => (ha.graph_alike hcd').need op) fun ρ'' hw' _ _ _ => ?_
  exact runInOrder_mirrors (hw'.contexts hcd') [op]

end Context

/-- The effect of a program in corresponding contexts mirrors itself. -/
theorem Leaf.effect_mirrors {c d : Context} (name : String) (cancelled : Bool) (program : Leaf) :
    ∀ {ρ : Renaming}, ρ.contexts c d →
      Mirrors ρ (fun _ => Eq) (program.effect name cancelled c)
        (program.effect name cancelled d) := by
  induction program with
  | done => exact fun _ => .pure rfl
  | fail message => exact fun _ => .fail
  | cancelled => exact fun _ => .fail
  | value p next ih =>
      intro ρ hcd
      refine .bind (Context.value_mirrors hcd p) fun _ hw v v' hv => ?_
      subst hv
      exact ih v (hw.contexts hcd)
  -- The item is found first and its value is read after that, in heaps that agree still.
  | optional p next ih =>
      intro ρ hcd
      refine .bind (Context.getOptional_mirrors hcd p) fun ρ' hw x y hxy => ?_
      refine .bind (R := fun _ => Eq) (.see fun h k ha => ?_) fun ρ'' hw' v v' hv => ?_
      · cases hxy with
        | none => rfl
        | some hij => exact congrArg some (ha.value_eq hij)
      · subst hv
        exact ih v ((hw.trans hw').contexts hcd)
  | bool p next ih =>
      intro ρ hcd
      refine .bind (Context.typed_mirrors hcd p .bool Value.bool?) fun _ hw b b' hb => ?_
      subst hb
      exact ih b (hw.contexts hcd)
  | int p next ih =>
      intro ρ hcd
      refine .bind (Context.typed_mirrors hcd p .int Value.int?) fun _ hw i i' hi => ?_
      subst hi
      exact ih i (hw.contexts hcd)
  | double p next ih =>
      intro ρ hcd
      refine .bind (Context.typed_mirrors hcd p .double Value.double?) fun _ hw x x' hx => ?_
      subst hx
      exact ih x (hw.contexts hcd)
  | operator p next ih =>
      intro ρ hcd
      refine .bind (Context.typed_mirrors hcd p .operator Value.operator?) fun _ hw o o' ho => ?_
      subst ho
      exact ih o (hw.contexts hcd)
  | set p v next ih =>
      intro ρ hcd
      exact .bind (Context.set_mirrors hcd p v) fun _ hw _ _ _ => ih (hw.contexts hcd)
  | remove p next ih =>
      intro ρ hcd
      exact .bind (Context.remove_mirrors hcd p) fun _ hw _ _ _ => ih (hw.contexts hcd)
  | random p calls next ih =>
      intro ρ hcd
      refine .bind (Context.withRandom_mirrors hcd p _) fun _ hw answers answers' h => ?_
      subst h
      exact ih answers (hw.contexts hcd)
  | request r next ih => exact ih
  | isCancelled next ih => exact ih cancelled

/-- The work of an operator in corresponding contexts mirrors itself. -/
theorem Operator.work_mirrors {ρ : Renaming} {c d : Context} (hcd : ρ.contexts c d)
    {op op' : Operator} (hop : op.Alike ρ op') (cancelled : Bool) :
    Mirrors ρ (fun σ => Option.Rel (Operation.Alike σ)) (op.work cancelled c)
      (op'.work cancelled d) := by
  have hnext : ∀ {x y : Act Heap Unit}, Mirrors ρ (fun _ => Eq) x y →
      Mirrors ρ (fun σ => Option.Rel (Operation.Alike σ))
        (do
          x
          c.successor)
        (do
          y
          d.successor) :=
    fun h => h.bind fun _ hw _ _ _ => Context.successor_mirrors (hw.contexts hcd)
  unfold Operator.work
  rw [← hop.kind, ← hop.name]
  cases op.kind with
  | empty => exact Context.successor_mirrors hcd
  | leaf program => exact Context.successor_mirrors hcd
  | assigner => exact hnext (Context.assign_mirrors hcd)
  | counter => exact hnext (Context.count_mirrors hcd)
  | comparator relation => exact hnext (Context.compare_mirrors hcd op.name relation)
  | variableCreator =>
      refine hnext (Context.createVariables_mirrors _ hcd ?_)
      exact hop.parameters.imp fun _ _ h => h.name
  | subScopesCreator => exact hnext (Context.createSubScopes_mirrors hcd op.name cancelled)
  | subScopesRemover all =>
      cases all with
      | true => exact hnext (Context.removeAllSubScopes_mirrors hcd)
      | false => exact hnext (Context.removeSubScope_mirrors hcd op.name)
  | subScopeDuplicator => exact hnext (Context.duplicateSubScope_mirrors hcd op.name cancelled)
  | sequential ops => exact Context.runInOrder_mirrors hcd ops
  | subScopes ops => exact Context.runOnSubScopes_mirrors hcd op.name ops
  | uniformSubScopes body depth => exact Context.runBelow_mirrors hcd body depth
  | conditional onTrue onFalse => exact Context.runBranch_mirrors hcd onTrue onFalse
  | loop body terminator => exact Context.runLoop_mirrors hcd body terminator
  | placeholder => exact Context.runChosen_mirrors hcd

/-- And so does all that it does to the heap. -/
theorem Operator.effect_mirrors {ρ : Renaming} {c d : Context} (hcd : ρ.contexts c d)
    {op op' : Operator} (hop : op.Alike ρ op') (cancelled : Bool) :
    Mirrors ρ (fun σ => Option.Rel (Operation.Alike σ)) (op.effect cancelled c)
      (op'.effect cancelled d) := by
  unfold Operator.effect
  refine .bind (R := fun _ => Eq) ?_ fun ρ' hw _ _ _ =>
    Operator.work_mirrors (hw.contexts hcd) (hop.mono hw) cancelled
  unfold Operator.leafEffect
  rw [← hop.kind, ← hop.name]
  cases op.kind with
  | leaf program => exact program.effect_mirrors op.name cancelled hcd
  | _ => exact .pure rfl

end ScopeFlow
