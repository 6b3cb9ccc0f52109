import ScopeFlow.Context.Schedule
import ScopeFlow.Proofs.Likeness.Access
import ScopeFlow.Proofs.Likeness.Regions

/-!
# Scheduling on both sides

Operations are alike if they have the same shape and their contexts
correspond. What corresponding contexts schedule is alike: each context made
on the one side is made on the other as well, and the two correspond from
then on.
-/

namespace ScopeFlow

/-- Operations of the same shape in corresponding contexts. -/
inductive Operation.Alike (ρ : Renaming) : Operation → Operation → Prop
  | atomic {c d : Context} : ρ.contexts c d → Alike ρ (.atomic c) (.atomic d)
  | sequence {ops ops' : List Operation} :
      List.Forall₂ (Operation.Alike ρ) ops ops' → Alike ρ (.sequence ops) (.sequence ops')
  | parallel {ops ops' : List Operation} :
      List.Forall₂ (Operation.Alike ρ) ops ops' → Alike ρ (.parallel ops) (.parallel ops')

namespace Operation

/-- Operations alike one by one. -/
def AllAlike (ρ : Renaming) (ops ops' : List Operation) : Prop :=
  List.Forall₂ (Operation.Alike ρ) ops ops'

variable {ρ σ : Renaming}

mutual

theorem Alike.mono (hw : ρ.Within σ) : ∀ {op op' : Operation}, op.Alike ρ op' → op.Alike σ op'
  | .atomic _, _, .atomic hcd => .atomic (hw.contexts hcd)
  | .sequence _, _, .sequence hops => .sequence (AllAlike.mono hw hops)
  | .parallel _, _, .parallel hops => .parallel (AllAlike.mono hw hops)

theorem AllAlike.mono (hw : ρ.Within σ) :
    ∀ {ops ops' : List Operation}, AllAlike ρ ops ops' → AllAlike σ ops ops'
  | [], _, .nil => .nil
  | _ :: _, _, .cons hop hops => .cons (hop.mono hw) (AllAlike.mono hw hops)

end

mutual

theorem Alike.diagonal : ∀ {op op' : Operation}, op.Alike ρ op' → op'.Alike ρ.diagonal op'
  | .atomic _, _, .atomic hcd => .atomic ⟨rfl, _, hcd⟩
  | .sequence _, _, .sequence hops => .sequence (AllAlike.diagonal hops)
  | .parallel _, _, .parallel hops => .parallel (AllAlike.diagonal hops)

theorem AllAlike.diagonal :
    ∀ {ops ops' : List Operation}, AllAlike ρ ops ops' → AllAlike ρ.diagonal ops' ops'
  | [], _, .nil => .nil
  | _ :: _, _, .cons hop hops => .cons hop.diagonal (AllAlike.diagonal hops)

end

mutual

theorem Alike.contexts :
    ∀ {op op' : Operation}, op.Alike ρ op' → List.Forall₂ ρ.contexts op.contexts op'.contexts
  | .atomic _, _, .atomic hcd => .cons hcd .nil
  | .sequence _, _, .sequence hops => AllAlike.contexts hops
  | .parallel _, _, .parallel hops => AllAlike.contexts hops

theorem AllAlike.contexts : ∀ {ops ops' : List Operation}, AllAlike ρ ops ops' →
    List.Forall₂ ρ.contexts (contextsOfAll ops) (contextsOfAll ops')
  | [], _, .nil => .nil
  | _ :: _, _, .cons hop hops => List.rel_append hop.contexts (AllAlike.contexts hops)

end

variable {ops ops' : List Operation}

theorem inSequence_alike (h : AllAlike ρ ops ops') :
    Option.Rel (Operation.Alike ρ) (inSequence ops) (inSequence ops') := by
  cases h with
  | nil => exact .none
  | cons hop hops =>
      cases hops with
      | nil => exact .some hop
      | cons hop' hops => exact .some (.sequence (.cons hop (.cons hop' hops)))

theorem inParallel_alike (h : AllAlike ρ ops ops') :
    Option.Rel (Operation.Alike ρ) (inParallel ops) (inParallel ops') := by
  cases h with
  | nil => exact .none
  | cons hop hops => exact .some (.parallel (.cons hop hops))

theorem toList_alike {op op' : Option Operation} (h : Option.Rel (Operation.Alike ρ) op op') :
    AllAlike ρ op.toList op'.toList := by
  cases h with
  | none => exact .nil
  | some hop => exact .cons hop .nil

end Operation

/-! ## Scheduling -/

namespace Context

open Act

variable {ρ : Renaming} {c d : Context}

theorem child_mirrors (hcd : ρ.contexts c d) {s t : ScopeId} (hst : ρ.scopes s t) (op : OperatorId) :
    Mirrors ρ Operation.Alike (c.child op s) (d.child op t) := by
  unfold Context.child
  refine .bind (R := Renaming.contexts) (.change fun h k ha => ?_) ?_
  · obtain ⟨ha', hconf⟩ := ha.newContext (c := .frame ⟨h.contexts⟩ op s [op] c)
      (d := .frame ⟨k.contexts⟩ op t [op] d) rfl rfl ⟨rfl, rfl, hst, hcd⟩
    exact ⟨_, hconf, ha', .inr ⟨rfl, rfl⟩⟩
  · exact fun _ _ _ _ h => .pure (.atomic h)

theorem childrenOn_mirrors (places : List (OperatorId × ScopeId)) :
    ∀ {ρ : Renaming} {places' : List (OperatorId × ScopeId)}, ρ.contexts c d →
      List.Forall₂ (fun x y => x.1 = y.1 ∧ ρ.scopes x.2 y.2) places places' →
      Mirrors ρ Operation.AllAlike (c.childrenOn places) (d.childrenOn places') := by
  induction places with
  | nil =>
      intro ρ places' _ h
      cases h
      exact .pure .nil
  | cons x places ih =>
      intro ρ places' hcd h
      cases h with
      | @cons _ y _ places' hxy hrest =>
          obtain ⟨op, s⟩ := x
          obtain ⟨op', t⟩ := y
          obtain ⟨rfl, hst⟩ := hxy
          rw [Context.childrenOn, Context.childrenOn]
          refine .bind (child_mirrors hcd hst op) fun ρ' hw first first' hfirst => ?_
          refine .bind (ih (hw.contexts hcd) ?_) fun ρ'' hw' others others' hothers => ?_
          · exact hrest.imp fun _ _ h => ⟨h.1, hw.scopes h.2⟩
          · exact .pure (.cons (hfirst.mono hw') hothers)

variable (hcd : ρ.contexts c d)
include hcd

theorem childrenHere_mirrors (ops : List OperatorId) :
    Mirrors ρ Operation.AllAlike (c.childrenHere ops) (d.childrenHere ops) := by
  refine .given fun h k ha => childrenOn_mirrors _ hcd ?_
  rw [List.forall₂_map_left_iff, List.forall₂_map_right_iff, List.forall₂_same]
  exact fun _ _ => ⟨rfl, ha.context_scope hcd⟩

theorem operator_mirrors :
    Mirrors ρ (fun σ op op' => op.Alike σ op' ∧ c.operatorId? ≠ none) (Act.ofExcept c.operator)
      (Act.ofExcept d.operator) := by
  refine .ofExcept fun h k ha => ?_
  have hal := ha.operator_alike hcd
  cases hop : c.operator with
  | error e =>
      rw [hop] at hal
      generalize d.operator = r at hal ⊢
      cases hal
      exact .error e
  | ok op =>
      rw [hop] at hal
      generalize d.operator = r at hal ⊢
      cases hal with
      | ok hal =>
          refine .ok ⟨hal, fun hnone => ?_⟩
          rw [Context.operator, hnone] at hop
          cases hop

/-- Siblings of two contexts that bind an operator. -/
theorem sibling_mirrors (hbinds : c.operatorId? ≠ none) (op : OperatorId)
    (trail : List OperatorId) :
    Mirrors ρ (fun σ i j => σ.contexts (c.sibling op trail i) (d.sibling op trail j))
      (Act.change Heap.newContext) (Act.change Heap.newContext) := by
  intro h k ha
  have hal := (ha.context hcd).2.2
  cases c with
  | root id g s => exact absurd rfl hbinds
  | frame id _ s _ p =>
      cases d with
      | root _ _ _ => exact hal.elim
      | frame id' _ t _ q =>
          obtain ⟨-, -, hst, hpq⟩ := hal
          obtain ⟨ha', hconf⟩ := ha.newContext (c := .frame ⟨h.contexts⟩ op s trail p)
            (d := .frame ⟨k.contexts⟩ op t trail q) rfl rfl ⟨rfl, rfl, hst, hpq⟩
          exact ⟨_, hconf, ha', .ok (.inr ⟨rfl, rfl⟩)⟩

theorem successor_mirrors :
    Mirrors ρ (fun σ => Option.Rel (Operation.Alike σ)) c.successor d.successor := by
  unfold Context.successor
  refine .bind (operator_mirrors hcd) ?_
  rintro ρ' hw op op' ⟨hop, hbinds⟩
  rw [← hop.successor]
  cases op.successor with
  | none => exact .pure .none
  | some next =>
      refine .given fun h k ha => ?_
      have hcd' := hw.contexts hcd
      dsimp only
      rw [← ha.trail_eq hcd']
      split
      · refine .bind (R := Operator.Alike) ?_ fun ρ'' _ again again' hagain => ?_
        · exact .ofExcept fun _ _ _ => (ha.graph_alike hcd').get next
        · rw [hagain.name]
          exact .fail
      · refine .bind (sibling_mirrors hcd' hbinds next (c.trail ++ [next])) ?_
        exact fun _ _ _ _ h => .pure (.some (.atomic h))

theorem reenter_mirrors : Mirrors ρ Operation.Alike c.reenter d.reenter := by
  unfold Context.reenter
  refine .given fun h k ha => ?_
  rw [← ha.operatorId?_eq hcd]
  cases hop : c.operatorId? with
  | none =>
      rw [(ha.graph_alike hcd).name]
      exact .fail
  | some op =>
      refine .bind (sibling_mirrors hcd ?_ op [op]) fun _ _ _ _ h => .pure (.atomic h)
      rw [hop]
      exact Option.some_ne_none op

theorem thenSuccessor_mirrors {ops ops' : List Operation} (hops : Operation.AllAlike ρ ops ops') :
    Mirrors ρ (fun σ => Option.Rel (Operation.Alike σ)) (c.thenSuccessor ops)
      (d.thenSuccessor ops') := by
  unfold Context.thenSuccessor
  refine .bind (successor_mirrors hcd) fun ρ' hw next next' hnext => .pure ?_
  exact Operation.inSequence_alike
    (List.rel_append (Operation.AllAlike.mono hw hops) (Operation.toList_alike hnext))

end Context

end ScopeFlow
