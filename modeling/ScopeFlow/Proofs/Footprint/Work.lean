import ScopeFlow.Proofs.Footprint.Trees
import ScopeFlow.Proofs.Likeness.Work
import ScopeFlow.Proofs.Operator.Tasks

/-!
# Operators where heaps match

The work of a built-in operator follows itself on any two heaps that match on
what it reads (`Operator.reads`), and changes no more than what stands for what
it writes (`Operator.writes`): one lemma for each kind of operator, put together
in `Operator.work_follows`.
-/

namespace ScopeFlow

open Act

/-! ## More on footprints -/

namespace Context

variable (ctx : Context) (h : Heap) (parameter : String)

/-- What is looked up to write through a parameter is looked up to read. -/
theorem seeks_subset_gets : ctx.seeks h parameter ⊆ ctx.gets h parameter := by
  unfold seeks gets
  cases ctx.resolve parameter with
  | error e => exact Set.empty_subset _
  | ok r =>
      cases r with
      | fixed value type => exact Set.empty_subset _
      | «variable» name default type => exact Set.subset_union_left

variable {ctx h parameter} {h' : Heap}

theorem counts_scopes (hsame : h'.scopes = h.scopes) : ctx.counts h' = ctx.counts h := by
  unfold counts
  simp only [find?_scopes hsame]

/-- A counter that has a variable writes to its item. -/
theorem counts_of_some {i : ItemId} (hi : (ctx.getVariable "Value" h).1 = .ok (some i)) :
    ctx.counts h = {.item i} := by
  obtain ⟨name, default, type, s, hr, -, hfind⟩ := getVariable_standsFor hi
  unfold counts
  rw [hr]
  dsimp only
  rw [hfind]

/-- A counter that has none binds one. -/
theorem counts_of_none (hnone : (ctx.getVariable "Value" h).1 = .ok none) :
    ctx.counts h = ctx.sets h "Value" := by
  unfold getVariable at hnone
  unfold counts sets target
  rw [Act.bind_apply, Act.ofExcept_apply] at hnone
  cases hr : ctx.resolve "Value" with
  | error e => rfl
  | ok r =>
      rw [hr] at hnone
      cases r with
      | fixed value type => rfl
      | «variable» name default type =>
          dsimp only at hnone ⊢
          rw [Act.bind_apply, Act.see_apply] at hnone
          dsimp only at hnone
          cases hfind : ctx.find? h name with
          | none => rfl
          | some x =>
              obtain ⟨s, i⟩ := x
              rw [hfind] at hnone
              dsimp only at hnone
              rw [Act.bind_apply, Act.look_apply] at hnone
              generalize h.checkType "Value" type i = checked at hnone
              cases checked <;> cases hnone

/-- Reading leaves a forest. -/
theorem typed_forest {α : Type} {type : ValueType} {as? : Value → Option α} {a : α}
    (hf : h.Forest) (hx : ctx.typed parameter type as? h = (.ok a, h')) : h'.Forest := by
  have hlook : (ctx.typed parameter type as?).Along Heap.Look := typed_along type as?
  have hrow := hlook h
  rw [hx] at hrow
  exact (Heap.Untouched.of_row hrow).forest hf

end Context

theorem Heap.contents_scopes {h h' : Heap} (hsame : h'.scopes = h.scopes) (s : ScopeId) :
    h'.contents s = h.contents s := by
  have hbelow : ∀ t, h'.Below s t ↔ h.Below s t := by
    intro t
    constructor
    · intro ht
      induction ht with
      | self => exact .self
      | child _ hc ih => exact ih.child (by rwa [Heap.scope, hsame] at hc)
    · intro ht
      induction ht with
      | self => exact .self
      | child _ hc ih => exact ih.child (by rwa [Heap.scope, hsame])
  unfold contents
  funext place
  simp only [hbelow, binding?_scopes hsame]

namespace HeapsMatch

variable {T W : Set Place} {ρ : Pairing} {h k : Heap} {c d : Context} {name : String}
  (hm : HeapsMatch T ρ h k) (hcd : c.Moved ρ d)
include hm hcd

/-! ## Leaves -/

theorem assign_follows (hT : c.gets h "Right" ∪ c.seeks h "Left" ⊆ T) (hW : c.sets h "Left" ⊆ W) :
    Follows T W ρ (fun _ => Eq) c.assign d.assign h k := by
  unfold Context.assign
  refine (hm.get_follows hcd fun x hx => hT (.inl hx)).bind fun ρ' i j h' k' hx _ hstep hij => ?_
  have hsame := Context.get_along.scopes_eq hx
  obtain ⟨ρ'', hnew, hstep'⟩ := hstep.matched.copyItem (W := W) hij.1 hij.2
  have hcopy : Follows T W ρ' (fun σ i j => σ.items i j ∧ .item i ∈ T)
      (Act.change fun h => h.copyItem i) (Act.change fun h => h.copyItem j) h' k' :=
    .change hstep' hnew
  refine hcopy.bind fun σ i' j' h'' k'' hx' _ hstep'' hij' => ?_
  have hsame' : h''.scopes = h.scopes := by
    cases hx'
    exact hsame
  refine hstep''.matched.setItem_follows ((hcd.mono hstep.within).mono hstep''.within) hij'.1
    hij'.2 ?_ ?_
  · rw [Context.seeks_scopes hsame']
    exact fun x hx => hT (.inr hx)
  · rw [Context.sets_scopes hsame']
    exact hW

theorem count_follows (hT : c.gets h "Increment" ∪ c.gets h "Value" ⊆ T) (hW : c.counts h ⊆ W) :
    Follows T W ρ (fun _ => Eq) c.count d.count h k := by
  unfold Context.count Context.getInt
  refine (hm.typed_follows hcd (fun x hx => hT (.inl hx)) .int Value.int?).bind
    fun ρ' n m h' k' hx _ hstep hnm => ?_
  subst hnm
  have hsame := (c.typed_along .int Value.int?).scopes_eq hx
  have hcd' := hcd.mono hstep.within
  have hT' : c.gets h' "Value" ⊆ T := by
    rw [Context.gets_scopes hsame]
    exact fun x hx => hT (.inr hx)
  have hW' : c.counts h' ⊆ W := by
    rw [Context.counts_scopes hsame]
    exact hW
  refine (hstep.matched.getVariable_follows hcd' hT').bind
    fun σ x y h₁ k₁ hx' _ hstep' hxy => ?_
  obtain rfl : h₁ = h' := by
    have := (c.getVariable_spec "Value" h').1
    rw [hx'] at this
    exact this
  -- A count goes on in the variable where there is one, and else starts a new one.
  cases hxy with
  | @some i j hij =>
      have hi : .item i ∈ W := hW' (by rw [c.counts_of_some (congrArg Prod.fst hx')]; rfl)
      refine .modify (show InStep T W σ σ h₁ _ k₁ _ from ?_)
      rw [← hstep'.matched.value hij.1 hij.2]
      exact hstep'.matched.setValue hij.1 hi _
  | none =>
      have hcd'' := hcd'.mono hstep'.within
      refine (hstep'.matched.getOptional_follows hcd'' hT').bind
        fun τ x y h₂ k₂ hx'' _ hstep'' hxy => ?_
      have hsame' := Context.getOptional_along.scopes_eq hx''
      refine .see ?_
      have hstart : ((x.bind fun i => (h₂.value i).int?).getD 0) =
          (y.bind fun i => (k₂.value i).int?).getD 0 := by
        cases hxy with
        | none => rfl
        | some hij => rw [Option.bind_some, Option.bind_some, hstep''.matched.value hij.1 hij.2]
      rw [hstart]
      refine hstep''.matched.set_follows (hcd''.mono hstep''.within) ?_ ?_ _
      · rw [Context.seeks_scopes hsame']
        exact (c.seeks_subset_gets h₁ "Value").trans hT'
      · rw [Context.sets_scopes hsame', ← c.counts_of_none (congrArg Prod.fst hx')]
        exact hW'

theorem compare_follows (relation : Comparison)
    (hT : c.gets h "Left" ∪ c.gets h "Right" ∪ c.seeks h "Result" ⊆ T)
    (hW : c.sets h "Result" ⊆ W) :
    Follows T W ρ (fun _ => Eq) (c.compare name relation) (d.compare name relation) h k := by
  unfold Context.compare
  refine (hm.value_follows hcd fun x hx => hT (.inl (.inl hx))).bind
    fun ρ' left left' h' k' hx _ hstep hleft => ?_
  subst hleft
  have hcd' := hcd.mono hstep.within
  have hleft := Context.value_along.scopes_eq hx
  refine (hstep.matched.value_follows hcd' ?_).bind
    fun σ right right' h'' k'' hx' _ hstep' hright => ?_
  · rw [Context.gets_scopes hleft]
    exact fun x hx => hT (.inl (.inr hx))
  · subst hright
    have hsame := (Context.value_along.scopes_eq hx').trans hleft
    split
    · refine hstep'.matched.set_follows (hcd'.mono hstep'.within) ?_ ?_ _
      · rw [Context.seeks_scopes hsame]
        exact fun x hx => hT (.inr hx)
      · rw [Context.sets_scopes hsame]
        exact hW
    · exact .fail

/-- Creating one variable, unless there is one of that name. -/
theorem createVariable_follows {initial : ItemId} (hinitial : ρ.items initial initial)
    (hT : {.binding c.scope name} ∪ (if (h.scope c.scope).bindings.contains name then ∅
      else {.item initial}) ⊆ T)
    (hW : (if (h.scope c.scope).bindings.contains name then ∅
      else {.binding c.scope name}) ⊆ W) :
    Follows T W ρ (fun _ => Eq)
      (Act.modify fun h =>
        if (h.scope c.scope).bindings.contains name then h
        else
          let (i, h') := h.copyItem initial
          h'.bindVariable c.scope name i)
      (Act.modify fun k =>
        if (k.scope d.scope).bindings.contains name then k
        else
          let (j, k') := k.copyItem initial
          k'.bindVariable d.scope name j) h k := by
  have hbound : (h.scope c.scope).bindings.contains name =
      (k.scope d.scope).bindings.contains name :=
    rel_isSome (hm.binding? hcd.scope (hT (.inl rfl)))
  intro a h' hx
  cases hx
  rw [Act.modify_apply]
  dsimp only
  rw [← hbound]
  cases hcontains : (h.scope c.scope).bindings.contains name with
  | true => exact ⟨ρ, (), k, rfl, rfl, hm.still⟩
  | false =>
      rw [hcontains] at hT hW
      obtain ⟨ρ', hnew, hstep⟩ := hm.copyItem (W := W) hinitial (hT (.inr rfl))
      refine ⟨ρ', (), _, rfl, rfl, hstep.trans ?_⟩
      exact hstep.matched.bindVariable (hstep.within.scopes hcd.scope) hnew.1 (hW rfl)

omit hm hcd in
/-- The variables that some parameters stand for are created one by one. -/
theorem createVariables_follows (ps : List Parameter) :
    ∀ {ρ h k}, HeapsMatch T ρ h k → c.Moved ρ d → c.createReads ps h ⊆ T → c.createWrites ps h ⊆ W →
      Follows T W ρ (fun _ => Eq) (c.createVariables ps) (d.createVariables ps) h k := by
  induction ps with
  | nil => exact fun hm _ _ _ => .pure hm rfl
  | cons p ps ih =>
      intro ρ h k hm hcd hT hW
      -- What the others read depends on the heap that the first one leaves.
      have hsplit : ∀ e : Context, e.createVariables (p :: ps) =
          e.createVariables [p] >>= fun _ => e.createVariables ps := by
        intro e
        rw [Context.createVariables, Context.createVariables, Context.createVariables, bind_assoc]
        refine congrArg _ (funext fun r => ?_)
        cases r with
        | fixed value type => rfl
        | «variable» name default type =>
            cases default with
            | none => rfl
            | some initial => rw [bind_assoc]; rfl
      have hone : Follows T W ρ (fun _ => Eq) (c.createVariables [p]) (d.createVariables [p])
          h k := by
        have hT' : _ ⊆ T := Set.subset_union_left.trans hT
        have hW' : _ ⊆ W := Set.subset_union_left.trans hW
        show Follows T W ρ _ (Act.ofExcept (c.resolve p.name) >>= _)
          (Act.ofExcept (d.resolve p.name) >>= _) h k
        rw [← hcd.resolve p.name]
        refine .ofExcept fun r hr => ?_
        have hheld := Context.resolve_ok_held hr
        rw [hr] at hT' hW'
        cases r with
        | fixed value type => exact .pure hm rfl
        | «variable» name default type =>
            cases default with
            | none => exact .pure hm rfl
            | some initial =>
                refine (hm.createVariable_follows hcd (hcd.same.2.2.1 initial (hheld initial rfl))
                  hT' hW').bind fun ρ' _ _ h' k' _ _ hstep _ => ?_
                exact .pure hstep.matched rfl
      rw [hsplit c, hsplit d]
      refine hone.bind fun ρ' _ _ h' k' hx _ hstep _ => ?_
      refine ih hstep.matched (hcd.mono hstep.within) ?_ ?_
      · refine Set.Subset.trans ?_ (Set.subset_union_right.trans hT)
        rw [hx]
      · refine Set.Subset.trans ?_ (Set.subset_union_right.trans hW)
        rw [hx]

/-! ## Leaves on sub-scopes -/

theorem createSubScopes_follows (cancelled : Bool)
    (hT : c.gets h "NumberOfSubScopes" ∪ {.children c.scope} ⊆ T) (hW : c.appendWrites h ⊆ W) :
    Follows T W ρ (fun _ => Eq) (c.createSubScopes name cancelled)
      (d.createSubScopes name cancelled) h k := by
  unfold Context.createSubScopes
  unfold Context.appendWrites at hW
  unfold Context.getInt at hW ⊢
  refine (hm.typed_follows hcd (fun x hx => hT (.inl hx)) .int Value.int?).bind
    fun ρ' n m h' k' hx _ hstep hnm => ?_
  subst hnm
  rw [hx] at hW
  split
  · exact .fail
  · next hn =>
    cases hc : cancelled && decide (0 < n) with
    | true => exact .fail
    | false =>
        show Follows T W ρ' _ (Act.modify fun h => h.appendFresh c.scope n.toInt.toNat)
          (Act.modify fun h => h.appendFresh d.scope n.toInt.toNat) h' k'
        have hst := (hcd.mono hstep.within).scope
        dsimp only at hW
        by_cases hpos : 0 < n
        · rw [if_pos hpos] at hW
          obtain ⟨σ, happend⟩ := hstep.matched.appendFresh hst (hT (.inr rfl)) (hW rfl)
            n.toInt.toNat
          exact .modify happend
        · -- No scope is asked for, so that nothing needs to be written.
          have hzero : n.toInt.toNat = 0 := by
            rw [Int64.lt_iff_toInt_lt] at hn hpos
            simp at hn hpos
            omega
          rw [hzero]
          refine .modify (show InStep T W ρ' ρ' h' _ k' _ from ?_)
          rw [Heap.appendFresh_zero, Heap.appendFresh_zero]
          exact hstep.matched.still

theorem removeAllSubScopes_follows (hf : h.Forest) (hf' : k.Forest) (hW : {.children c.scope} ⊆ W) :
    Follows T W ρ (fun _ => Eq) c.removeAllSubScopes d.removeAllSubScopes h k :=
  .modify (hm.clearChildren hf hf' hcd.scope (hW rfl))

theorem removeSubScope_follows (hf : h.Forest) (hf' : k.Forest)
    (hT : c.gets h "SubScopeIndex" ∪ {.children c.scope} ⊆ T) (hW : {.children c.scope} ⊆ W) :
    Follows T W ρ (fun _ => Eq) (c.removeSubScope name) (d.removeSubScope name) h k := by
  unfold Context.removeSubScope Context.getInt
  refine (hm.typed_follows hcd (fun x hx => hT (.inl hx)) .int Value.int?).bind
    fun ρ' n m h' k' hx hy hstep hnm => ?_
  subst hnm
  have hforest := c.typed_forest hf hx
  have hforest' := d.typed_forest hf' hy
  have hst := (hcd.mono hstep.within).scope
  split
  · exact .fail
  · next hn =>
    have hchange : Follows T W ρ' (fun σ => Option.Rel σ.scopes)
        (Act.change fun h => h.removeChild c.scope n.toInt.toNat)
        (Act.change fun h => h.removeChild d.scope n.toInt.toNat) h' k' :=
      let h := hstep.matched.removeChild hforest hforest' hst (hT (.inr rfl)) (hW rfl) n.toInt.toNat
      .change h.1 h.2
    refine hchange.bind fun σ x y h'' k'' _ _ hstep' hxy => ?_
    cases hxy with
    | some _ => exact .pure hstep'.matched rfl
    | none => exact .fail

theorem duplicateSubScope_follows (hf : h.Forest) (hf' : k.Forest) (cancelled : Bool)
    (hT : c.gets h "SubScopeIndex" ∪ {.children c.scope} ∪ c.copyReads h ⊆ T)
    (hW : {.children c.scope} ⊆ W) :
    Follows T W ρ (fun _ => Eq) (c.duplicateSubScope name cancelled)
      (d.duplicateSubScope name cancelled) h k := by
  have hlist : .children c.scope ∈ T := hT (.inl (.inr rfl))
  have hchildren := hm.children hcd.scope hlist
  have hcopy : c.copyReads h ⊆ T := fun x hx => hT (.inr hx)
  unfold Context.copyReads Context.getInt at hcopy
  unfold Context.duplicateSubScope Context.getInt
  refine .see ((hm.typed_follows hcd (fun x hx => hT (.inl (.inl hx))) .int Value.int?).bind
    fun ρ' n m h' k' hx hy hstep hnm => ?_)
  subst hnm
  have hsame := (c.typed_along .int Value.int?).scopes_eq hx
  rw [hx] at hcopy
  dsimp only at hcopy
  -- The index picks scopes that stand for one another, or none on either side.
  have hpick := Context.pickSubScope_alike (ρ := ρ.asRenaming) hchildren n.toInt
  rw [← hchildren.length_eq]
  generalize Context.pickSubScope (h.scope c.scope).children n.toInt = x at hpick hcopy ⊢
  generalize Context.pickSubScope (k.scope d.scope).children n.toInt = y at hpick ⊢
  cases hpick with
  | none => exact .fail
  | @some u v huv =>
      cases cancelled with
      | true => exact .fail
      | false =>
          refine hstep.matched.graft (c.typed_forest hf hx) (d.typed_forest hf' hy)
            (hcd.mono hstep.within).scope (hstep.within.scopes huv) ?_ hlist (hW rfl) _
          rw [Heap.contents_scopes hsame]
          exact hcopy

omit hcd in
/-- The scopes some levels down stand for one another. -/
theorem scopesAtDepth (depth : Nat) : ∀ {s t : ScopeId}, ρ.scopes s t → h.listed depth s ⊆ T →
    List.Forall₂ ρ.scopes (h.scopesAtDepth depth s) (k.scopesAtDepth depth t) := by
  induction depth with
  | zero =>
      intro s t hst _
      exact .cons hst .nil
  | succ depth ih =>
      intro s t hst hT
      have hchildren := hm.children hst (hT (.inl rfl))
      have hbelow : ∀ c ∈ (h.scope s).children, h.listed depth c ⊆ T := fun c hc x hx =>
        hT (.inr (Set.mem_biUnion (s := fun c => c ∈ (h.scope s).children) hc hx))
      rw [Heap.scopesAtDepth, Heap.scopesAtDepth]
      generalize (h.scope s).children = ss at hchildren hbelow ⊢
      generalize (k.scope t).children = ts at hchildren ⊢
      induction hchildren with
      | nil => exact .nil
      | cons hcd _ ihrest =>
          rw [List.flatMap_cons, List.flatMap_cons]
          exact List.rel_append (ih hcd (hbelow _ List.mem_cons_self))
            (ihrest fun c hc => hbelow c (List.mem_cons_of_mem _ hc))

/-! ## Scheduling -/

theorem childrenOn_follows {places places' : List (OperatorId × ScopeId)}
    (hplaces : List.Forall₂ (fun x y => x.1 = y.1 ∧ ρ.scopes x.2 y.2) places places') :
    Follows T W ρ (fun ρ' => Operation.AllAlike ρ'.asRenaming) (c.childrenOn places)
      (d.childrenOn places') h k := by
  intro a h' hx
  rw [Context.childrenOn_apply] at hx ⊢
  cases hx
  refine ⟨ρ, _, _, rfl, ?_, hm.aside ⟨Nat.le_refl _, Nat.le_refl _, Nat.le_add_right _ _,
    Nat.le_refl _, fun _ => rfl, fun _ => rfl⟩ ⟨Nat.le_refl _, Nat.le_refl _,
    Nat.le_add_right _ _, Nat.le_refl _, fun _ => rfl, fun _ => rfl⟩⟩
  -- The numbers of the new contexts differ, which the induction must allow for.
  generalize h.contexts = m
  generalize k.contexts = n
  induction hplaces generalizing m n with
  | nil => exact .nil
  | @cons x y _ _ hxy _ ih =>
      obtain ⟨id, s⟩ := x
      obtain ⟨id', t⟩ := y
      obtain ⟨rfl, hst⟩ := hxy
      exact .cons (.atomic (hcd.child hst id ⟨m⟩ ⟨n⟩)) (ih (m + 1) (n + 1))

theorem childrenHere_follows (ops : List OperatorId) :
    Follows T W ρ (fun ρ' => Operation.AllAlike ρ'.asRenaming) (c.childrenHere ops)
      (d.childrenHere ops) h k := by
  refine hm.childrenOn_follows hcd ?_
  rw [List.forall₂_map_left_iff, List.forall₂_map_right_iff, List.forall₂_same]
  exact fun op _ => ⟨rfl, hcd.scope⟩

theorem newContext_follows : Follows T W ρ (fun ρ' _ _ => c.Moved ρ' d)
    (Act.change Heap.newContext) (Act.change Heap.newContext) h k :=
  .change (hm.aside .newContext .newContext) hcd

theorem successor_follows :
    Follows T W ρ (fun ρ' => Option.Rel (Operation.Alike ρ'.asRenaming)) c.successor d.successor
      h k := by
  unfold Context.successor
  rw [← hcd.operator, ← hcd.alike.trail, ← hcd.graph]
  refine .ofExcept fun op _ => ?_
  cases op.successor with
  | none => exact .pure hm .none
  | some next =>
      dsimp only
      split
      · exact .ofExcept fun _ _ => .fail
      · refine (hm.newContext_follows hcd).bind fun ρ' m n h' k' _ _ hstep hcd' => ?_
        exact .pure hstep.matched (.some (.atomic (hcd'.sibling next _ m n)))

theorem thenSuccessor_follows {ops ops' : List Operation}
    (hops : Operation.AllAlike ρ.asRenaming ops ops') :
    Follows T W ρ (fun ρ' => Option.Rel (Operation.Alike ρ'.asRenaming)) (c.thenSuccessor ops)
      (d.thenSuccessor ops') h k := by
  unfold Context.thenSuccessor
  refine (hm.successor_follows hcd).bind fun ρ' x y h' k' _ _ hstep hxy => ?_
  exact .pure hstep.matched (Operation.inSequence_alike
    (List.rel_append (Operation.AllAlike.mono hstep.within.asRenaming hops)
      (Operation.toList_alike hxy)))

theorem reenter_follows :
    Follows T W ρ (fun ρ' => Operation.Alike ρ'.asRenaming) c.reenter d.reenter h k := by
  unfold Context.reenter
  rw [← hcd.alike.operatorId?]
  cases c.operatorId? with
  | none => exact .fail
  | some op =>
      refine (hm.newContext_follows hcd).bind fun ρ' m n h' k' _ _ hstep hcd' => ?_
      exact .pure hstep.matched (.atomic (hcd'.sibling op [op] m n))

end HeapsMatch

/-- Tasks of the same shape in corresponding contexts. -/
inductive Task.Alike (ρ : Renaming) : Task → Task → Prop
  | before {ops ops' : List Operation} :
      Operation.AllAlike ρ ops ops' → Alike ρ (.before ops) (.before ops')
  | round {ops ops' : List Operation} :
      Operation.AllAlike ρ ops ops' → Alike ρ (.round ops) (.round ops')

namespace HeapsMatch

variable {T W : Set Place} {ρ : Pairing} {h k : Heap} {c d : Context} {t t' : Task}
  (hm : HeapsMatch T ρ h k) (hcd : c.Moved ρ d)
include hm hcd

theorem goOn_follows (ht : t.Alike ρ.asRenaming t') :
    Follows T W ρ (fun ρ' => Option.Rel (Operation.Alike ρ'.asRenaming)) (c.goOn t) (d.goOn t')
      h k := by
  cases ht with
  | before hops => exact hm.thenSuccessor_follows hcd hops
  | round hops =>
      refine (hm.reenter_follows hcd).bind fun ρ' x y h' k' _ _ hstep hxy => ?_
      exact .pure hstep.matched (Operation.inSequence_alike
        (List.rel_append (Operation.AllAlike.mono hstep.within.asRenaming hops) (.cons hxy .nil)))

omit hm hcd in
/-- Something is done, and no operators are scheduled for it. -/
theorem alone {x y : Act Heap Unit} (hxy : Follows T W ρ (fun _ => Eq) x y h k) :
    Follows T W ρ (fun ρ' => Task.Alike ρ'.asRenaming) (x >>= fun _ => pure (.before []))
      (y >>= fun _ => pure (.before [])) h k :=
  hxy.bind fun _ _ _ _ _ _ _ hstep _ => .pure hstep.matched (.before .nil)

/-- Operators are scheduled before the successor. -/
theorem childrenBefore_follows (ops : List OperatorId) :
    Follows T W ρ (fun ρ' => Task.Alike ρ'.asRenaming) (Task.before <$> c.childrenHere ops)
      (Task.before <$> d.childrenHere ops) h k := by
  rw [map_eq_pure_bind, map_eq_pure_bind]
  exact (hm.childrenHere_follows hcd ops).bind fun _ _ _ _ _ _ _ hstep hops =>
    .pure hstep.matched (.before hops)

/-- Operators are scheduled on scopes that stand for one another, side by side
or not. -/
theorem batch_follows {places places' : List (OperatorId × ScopeId)}
    (hplaces : List.Forall₂ (fun x y => x.1 = y.1 ∧ ρ.scopes x.2 y.2) places places')
    (hT : c.gets h "Parallel" ⊆ T) :
    Follows T W ρ (fun ρ' => Task.Alike ρ'.asRenaming) (c.childrenOn places >>= c.batch)
      (d.childrenOn places' >>= d.batch) h k := by
  refine (hm.childrenOn_follows hcd hplaces).bind fun ρ' ops ops' h' k' hx _ hstep hops => ?_
  have hsame : h'.scopes = h.scopes := by
    rw [Context.childrenOn_apply] at hx
    cases hx
    rfl
  unfold Context.batch Context.getBool
  refine (hstep.matched.typed_follows (hcd.mono hstep.within) ?_ .bool Value.bool?).bind
    fun σ parallel parallel' h'' k'' _ _ hstep' heq => ?_
  · rw [Context.gets_scopes hsame]
    exact hT
  · subst heq
    have hops' := Operation.AllAlike.mono hstep'.within.asRenaming hops
    refine .pure hstep'.matched (.before ?_)
    cases parallel with
    | true => exact Operation.toList_alike (Operation.inParallel_alike hops')
    | false => exact Operation.toList_alike (Operation.inSequence_alike hops')

end HeapsMatch

/-! ## Operators -/

theorem Operator.task_follows {op : Operator} {T W : Set Place} {ρ : Pairing} {h k : Heap}
    {c d : Context} (hm : HeapsMatch T ρ h k) (hcd : c.Moved ρ d) (hf : h.Forest) (hf' : k.Forest)
    (cancelled : Bool) (hT : op.reads c h ⊆ T) (hW : op.writes c h ⊆ W) :
    Follows T W ρ (fun ρ' => Task.Alike ρ'.asRenaming) (op.task cancelled c)
      (op.task cancelled d) h k := by
  unfold Operator.task
  unfold Operator.reads at hT
  unfold Operator.writes at hW
  cases hkind : op.kind with
  | empty => exact .pure hm (.before .nil)
  | leaf program => exact .pure hm (.before .nil)
  | assigner =>
      rw [hkind] at hT hW
      exact HeapsMatch.alone (hm.assign_follows hcd hT hW)
  | counter =>
      rw [hkind] at hT hW
      exact HeapsMatch.alone (hm.count_follows hcd hT hW)
  | comparator relation =>
      rw [hkind] at hT hW
      exact HeapsMatch.alone (hm.compare_follows hcd relation hT hW)
  | variableCreator =>
      rw [hkind] at hT hW
      exact HeapsMatch.alone (HeapsMatch.createVariables_follows _ hm hcd hT hW)
  | subScopesCreator =>
      rw [hkind] at hT hW
      exact HeapsMatch.alone (hm.createSubScopes_follows hcd cancelled hT hW)
  | subScopesRemover all =>
      rw [hkind] at hT hW
      cases all with
      | true => exact HeapsMatch.alone (hm.removeAllSubScopes_follows hcd hf hf' hW)
      | false => exact HeapsMatch.alone (hm.removeSubScope_follows hcd hf hf' hT hW)
  | subScopeDuplicator =>
      rw [hkind] at hT hW
      exact HeapsMatch.alone (hm.duplicateSubScope_follows hcd hf hf' cancelled hT hW)
  | sequential ops => exact hm.childrenBefore_follows hcd ops
  | subScopes ops =>
      rw [hkind] at hT
      refine .see ?_
      have hsubs := hm.children hcd.scope (hT (.inl rfl))
      rw [← hsubs.length_eq]
      split
      · exact .fail
      · exact hm.batch_follows hcd (Context.zip_alike (ρ := ρ.asRenaming) ops hsubs)
          fun x hx => hT (.inr hx)
  -- What is read to find the scopes at a depth comes first, then what each of them needs.
  | uniformSubScopes body depth =>
      rw [hkind] at hT
      refine .see (hm.batch_follows hcd ?_ fun x hx => hT (.inr hx))
      cases body with
      | none => exact .nil
      | some id =>
          dsimp only
          rw [List.forall₂_map_left_iff, List.forall₂_map_right_iff]
          exact (hm.scopesAtDepth depth hcd.scope fun x hx => hT (.inl hx)).imp
            fun _ _ h => ⟨rfl, h⟩
  | conditional onTrue onFalse =>
      rw [hkind] at hT
      refine (hm.typed_follows hcd hT .bool Value.bool?).bind fun σ b b' h' k' _ _ hstep heq => ?_
      subst heq
      exact hstep.matched.childrenBefore_follows (hcd.mono hstep.within) _
  | loop body terminator =>
      rw [hkind] at hT
      refine (hm.typed_follows hcd hT .bool Value.bool?).bind fun σ b b' h' k' _ _ hstep heq => ?_
      subst heq
      cases b with
      | true => exact .pure hstep.matched (.before .nil)
      | false =>
          -- A round is read off after the condition, on heaps that match on the same places as
          -- before.
          show Follows T W σ _ (Task.round <$> _) (Task.round <$> _) h' k'
          rw [map_eq_pure_bind, map_eq_pure_bind]
          exact (hstep.matched.childrenHere_follows (hcd.mono hstep.within) _).bind
            fun _ _ _ _ _ _ _ hstep' hops => .pure hstep'.matched (.round hops)
  | placeholder =>
      rw [hkind] at hT
      refine (hm.typed_follows hcd hT .operator Value.operator?).bind
        fun σ id id' h' k' _ _ hstep heq => ?_
      subst heq
      rw [← hcd.graph]
      exact .ofExcept fun _ _ => hstep.matched.childrenBefore_follows (hcd.mono hstep.within) _

/-- The work of a built-in operator on heaps that match on what it reads. -/
theorem Operator.work_follows {op : Operator} {T W : Set Place} {ρ : Pairing} {h k : Heap}
    {c d : Context} (hm : HeapsMatch T ρ h k) (hcd : c.Moved ρ d) (hf : h.Forest) (hf' : k.Forest)
    (cancelled : Bool) (hT : op.reads c h ⊆ T) (hW : op.writes c h ⊆ W) :
    Follows T W ρ (fun ρ' => Option.Rel (Operation.Alike ρ'.asRenaming)) (op.work cancelled c)
      (op.work cancelled d) h k := by
  rw [op.work_eq, op.work_eq]
  refine (op.task_follows hm hcd hf hf' cancelled hT hW).bind
    fun σ t t' h' k' _ _ hstep ht => ?_
  exact hstep.matched.goOn_follows (hcd.mono hstep.within) ht

end ScopeFlow
