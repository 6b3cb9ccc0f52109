import ScopeFlow.Parameter.Access
import ScopeFlow.Proofs.Likeness.Contexts

/-!
# Access through parameters on both sides

Reads and writes through the same parameter, in corresponding contexts, mirror
each other: what is handed out corresponds, and values are the same.
-/

namespace ScopeFlow

namespace Agree

variable {ρ : Renaming} {h k : Heap} {i j : ItemId} {s t : ScopeId} (ha : Agree ρ h k)
include ha

theorem value_eq (hij : ρ.items i j) : h.value i = k.value j := (ha.item hij).2.2

theorem copyItem (hij : ρ.items i j) :
    ∃ ρ', Confined ρ ρ' k (k.copyItem j).2 ∧ Agree ρ' (h.copyItem i).2 (k.copyItem j).2 ∧
      ρ'.items (h.copyItem i).1 (k.copyItem j).1 := by
  unfold Heap.copyItem
  rw [ha.value_eq hij]
  obtain ⟨ha', hc⟩ := ha.newItem (k.value j)
  exact ⟨_, hc, ha', .inr ⟨rfl, rfl⟩⟩

theorem binding?_alike (hst : ρ.scopes s t) (name : String) :
    Option.Rel ρ.items (h.binding? s name) (k.binding? t name) :=
  Bindings.lookup_same (ha.scope hst).2.2.bindings name

theorem checkType_alike (hij : ρ.items i j) (parameter : String) (type : ValueType) :
    Answers Eq (h.checkType parameter type i) (k.checkType parameter type j) := by
  unfold Heap.checkType
  rw [ha.value_eq hij]
  dsimp only
  split
  · exact .ok rfl
  · exact .error _

theorem findIn_alike (name : String) {ss ts : List ScopeId} (hst : List.Forall₂ ρ.scopes ss ts) :
    Option.Rel (fun x y => ρ.scopes x.1 y.1 ∧ ρ.items x.2 y.2) (h.findIn name ss)
      (k.findIn name ts) := by
  induction hst with
  | nil => exact .none
  | @cons s t ss ts hst _ ih =>
      have hb := ha.binding?_alike hst name
      rw [Heap.findIn, Heap.findIn]
      generalize h.binding? s name = x at hb ⊢
      generalize k.binding? t name = y at hb ⊢
      cases hb with
      | none => exact ih
      | some hij => exact .some ⟨hst, hij⟩

theorem find?_alike {c d : Context} (hcd : ρ.contexts c d) (name : String) :
    Option.Rel (fun x y => ρ.scopes x.1 y.1 ∧ ρ.items x.2 y.2) (c.find? h name)
      (d.find? k name) :=
  ha.findIn_alike name (ha.scopeChain_alike hcd)

end Agree

namespace Context

open Act

variable {ρ : Renaming} {c d : Context} {i j : ItemId}

theorem checkType_mirrors (hij : ρ.items i j) (parameter : String) (type : ValueType) :
    Mirrors ρ (fun _ => Eq) (Act.look fun h => h.checkType parameter type i)
      (Act.look fun h => h.checkType parameter type j) :=
  .look fun _ _ ha => ha.checkType_alike hij parameter type

theorem detached_mirrors (hij : ρ.items i j) (parameter : String) (type : ValueType) :
    Mirrors ρ Renaming.items (detached parameter type i) (detached parameter type j) := by
  unfold detached
  refine .bind (checkType_mirrors hij parameter type) fun ρ' hw _ _ _ => ?_
  exact .change fun h k ha => ha.copyItem (hw.items hij)

variable (hcd : ρ.contexts c d)
include hcd

theorem resolve_mirrors (parameter : String) :
    Mirrors ρ Resolution.Alike (Act.ofExcept (c.resolve parameter))
      (Act.ofExcept (d.resolve parameter)) :=
  .ofExcept fun _ _ ha => ha.resolve_alike hcd parameter

theorem find?_mirrors (name : String) :
    Mirrors ρ (fun σ => Option.Rel fun x y => σ.scopes x.1 y.1 ∧ σ.items x.2 y.2)
      (Act.see fun h => c.find? h name) (Act.see fun h => d.find? h name) :=
  .see fun _ _ ha => ha.find?_alike hcd name

theorem get_mirrors (parameter : String) :
    Mirrors ρ Renaming.items (c.get parameter) (d.get parameter) := by
  unfold Context.get
  refine .bind (resolve_mirrors hcd parameter) fun ρ' hw r r' hr => ?_
  cases hr with
  | toValue type hij => exact detached_mirrors hij parameter type
  | toName name type hdefault =>
      refine .bind (find?_mirrors (hw.contexts hcd) name) fun ρ'' hw' x y hxy => ?_
      cases hxy with
      | @some a b hab =>
          refine .bind (checkType_mirrors hab.2 parameter type) ?_
          exact fun σ hw'' _ _ _ => .pure (hw''.items hab.2)
      | none =>
          cases hdefault with
          | none => exact .fail
          | some hij => exact detached_mirrors (hw'.items hij) parameter type

theorem getOptional_mirrors (parameter : String) :
    Mirrors ρ (fun σ => Option.Rel σ.items) (c.getOptional parameter)
      (d.getOptional parameter) := by
  unfold Context.getOptional
  refine .bind (get_mirrors hcd parameter).attempt fun ρ' hw r r' hr => ?_
  cases hr with
  | ok hij => exact .pure (.some hij)
  | error e => cases e <;> first | exact .pure .none | exact .fail

theorem getVariable_mirrors (parameter : String) :
    Mirrors ρ (fun σ => Option.Rel σ.items) (c.getVariable parameter)
      (d.getVariable parameter) := by
  unfold Context.getVariable
  refine .bind (resolve_mirrors hcd parameter) fun ρ' hw r r' hr => ?_
  cases hr with
  | toValue type hij => exact .pure .none
  | toName name type hdefault =>
      refine .bind (find?_mirrors (hw.contexts hcd) name) fun ρ'' hw' x y hxy => ?_
      cases hxy with
      | none => exact .pure .none
      | some hab =>
          refine .bind (checkType_mirrors hab.2 parameter type) ?_
          exact fun σ hw'' _ _ _ => .pure (.some (hw''.items hab.2))

theorem value_mirrors (parameter : String) :
    Mirrors ρ (fun _ => Eq) (c.value parameter) (d.value parameter) := by
  unfold Context.value
  exact .bind (get_mirrors hcd parameter) fun ρ' _ i j hij => .see fun h k ha => ha.value_eq hij

theorem typed_mirrors {α : Type} (parameter : String) (type : ValueType)
    (as? : Value → Option α) :
    Mirrors ρ (fun _ => Eq) (c.typed parameter type as?) (d.typed parameter type as?) := by
  unfold Context.typed
  refine .bind (value_mirrors hcd parameter) fun ρ' _ v v' hv => ?_
  subst hv
  split
  · exact .pure rfl
  · exact .fail

theorem setItem_mirrors (hij : ρ.items i j) (parameter : String) :
    Mirrors ρ (fun _ => Eq) (c.setItem parameter i) (d.setItem parameter j) := by
  unfold Context.setItem
  refine .bind (resolve_mirrors hcd parameter) fun ρ' hw r r' hr => ?_
  cases hr with
  | toValue type hij => exact .fail
  | toName name type hdefault =>
      refine .bind (checkType_mirrors (hw.items hij) parameter type) ?_
      intro ρ'' hw' _ _ _
      refine .modify fun h k ha => ?_
      have hw'' := hw.trans hw'
      have hfind := ha.find?_alike (hw''.contexts hcd) name
      dsimp only
      generalize c.find? h name = x at hfind ⊢
      generalize d.find? k name = y at hfind ⊢
      cases hfind with
      | none => exact ⟨_, ha.bindVariable (ha.context_scope (hw''.contexts hcd)) (hw''.items hij) _⟩
      | some hab => exact ⟨_, ha.bindVariable hab.1 (hw''.items hij) _⟩

theorem set_mirrors (parameter : String) (v : Value) :
    Mirrors ρ (fun _ => Eq) (c.set parameter v) (d.set parameter v) := by
  unfold Context.set
  refine .bind (R := Renaming.items) (.change fun h k ha => ?_) fun ρ' hw i j hij => ?_
  · obtain ⟨ha', hconf⟩ := ha.newItem v
    exact ⟨_, hconf, ha', .inr ⟨rfl, rfl⟩⟩
  · exact setItem_mirrors (hw.contexts hcd) hij parameter

theorem remove_mirrors (parameter : String) :
    Mirrors ρ (fun σ => Option.Rel σ.items) (c.remove parameter) (d.remove parameter) := by
  unfold Context.remove
  refine .bind (resolve_mirrors hcd parameter) fun ρ' hw r r' hr => ?_
  cases hr with
  | toValue type hij => exact .fail
  | toName name type hdefault =>
      refine .change fun h k ha => ?_
      have hst := ha.context_scope (hw.contexts hcd)
      obtain ⟨ha', hconf⟩ := ha.unbindVariable hst name
      exact ⟨_, hconf, ha', ha.binding?_alike hst name⟩

theorem randomItem_mirrors (parameter : String) :
    Mirrors ρ Renaming.items (c.randomItem parameter) (d.randomItem parameter) := by
  unfold Context.randomItem
  refine .bind (getVariable_mirrors hcd parameter) fun ρ' hw x y hxy => ?_
  cases hxy with
  | some hij => exact .pure hij
  | none =>
      have hcd' := hw.contexts hcd
      refine .bind (get_mirrors hcd' parameter) fun ρ'' hw' i j hij => ?_
      refine .bind (setItem_mirrors (hw'.contexts hcd') hij parameter).attempt ?_
      intro ρ₃ hw'' r r' hr
      cases hr with
      | ok _ => exact .pure (hw''.items hij)
      | error e => cases e <;> first | exact .pure (hw''.items hij) | exact .fail

theorem withRandom_mirrors {α : Type} (parameter : String)
    (f : Random.Source → α × Random.Source) :
    Mirrors ρ (fun _ => Eq) (c.withRandom parameter f) (d.withRandom parameter f) := by
  unfold Context.withRandom
  refine .bind (randomItem_mirrors hcd parameter) fun ρ' hw i j hij => ?_
  refine .bind (R := fun _ => Eq) (.see fun h k ha => ha.value_eq hij) fun ρ'' hw' v v' hv => ?_
  subst hv
  cases v with
  | random r =>
      refine .bind (.modify fun h k ha => ⟨_, ha.setValue (hw'.items hij) _⟩) ?_
      exact fun _ _ _ _ _ => .pure rfl
  | _ => exact .fail

end Context

end ScopeFlow
