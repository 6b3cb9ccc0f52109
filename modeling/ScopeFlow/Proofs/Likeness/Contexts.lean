import ScopeFlow.Parameter.Resolution
import ScopeFlow.Proofs.Likeness.Heap

/-!
# Contexts on both sides

Corresponding contexts bind the same operator over corresponding scopes, have
the same depth and trail, and search corresponding scopes. Parameters resolve
alike in them: to the same name, or to values that correspond.
-/

namespace ScopeFlow

/-! ## Graphs -/

section

variable {ρ : Renaming} {ps qs : Parameters} {g g' : Graph} {name : String} {id : OperatorId}

theorem Parameters.Alike.get? (h : ps.Alike ρ qs) (name : String) :
    Option.Rel (Parameter.Alike ρ) (ps.get? name) (qs.get? name) := by
  obtain ⟨ps⟩ := ps
  obtain ⟨qs⟩ := qs
  unfold Parameters.Alike at h
  unfold Parameters.get?
  dsimp only at h ⊢
  induction h with
  | nil => exact .none
  | cons hpq _ ih =>
      rw [List.find?_cons, List.find?_cons, hpq.name]
      split
      · exact .some hpq
      · exact ih

namespace Graph.Alike

theorem get? (h : g.Alike ρ g') (id : OperatorId) :
    Option.Rel (Operator.Alike ρ) (g.get? id) (g'.get? id) := by
  unfold Graph.get?
  rw [← Array.getElem?_toList, ← Array.getElem?_toList]
  exact forall₂_getElem? h.operators id.index

theorem get (h : g.Alike ρ g') (id : OperatorId) :
    Answers (Operator.Alike ρ) (g.get id) (g'.get id) := by
  unfold Graph.get
  have hget := h.get? id
  cases hop : g.get? id with
  | none =>
      rw [hop] at hget
      cases hop' : g'.get? id with
      | none => exact .error _
      | some op' => rw [hop'] at hget; cases hget
  | some op =>
      rw [hop] at hget
      cases hop' : g'.get? id with
      | none => rw [hop'] at hget; cases hget
      | some op' =>
          rw [hop'] at hget
          cases hget with
          | some hal => exact .ok hal

theorem need (h : g.Alike ρ g') (id : OperatorId) : Answers Eq (g.need id) (g'.need id) := by
  unfold Graph.need
  have hget := h.get id
  cases hop : g.get id with
  | error e =>
      rw [hop] at hget
      cases hop' : g'.get id with
      | ok op' => rw [hop'] at hget; cases hget
      | error e' =>
          rw [hop'] at hget
          cases hget
          exact .error e
  | ok op =>
      rw [hop] at hget
      cases hop' : g'.get id with
      | ok op' => exact .ok rfl
      | error e' => rw [hop'] at hget; cases hget

end Graph.Alike

end

/-! ## Chains -/

namespace Agree

variable {ρ : Renaming} {h k : Heap} {c d : Context} (ha : Agree ρ h k) (hcd : ρ.contexts c d)
include ha hcd

theorem context_scope : ρ.scopes c.scope d.scope := (ha.context hcd).2.2.scope

theorem context_graph : ρ.graphs c.graph d.graph := by
  induction c generalizing d with
  | root id g s =>
      have hal := (ha.context hcd).2.2
      cases d with
      | root _ _ _ => exact hal.1
      | frame _ _ _ _ _ => exact hal.elim
  | frame id op s trail p ih =>
      have hal := (ha.context hcd).2.2
      cases d with
      | root _ _ _ => exact hal.elim
      | frame _ _ _ _ q =>
          show ρ.graphs p.graph q.graph
          exact ih hal.2.2.2

theorem graph_alike : c.graph.graph.Alike ρ d.graph.graph :=
  (ha.graph (ha.context_graph hcd)).2.2.2

theorem operatorId?_eq : c.operatorId? = d.operatorId? := (ha.context hcd).2.2.operatorId?

theorem trail_eq : c.trail = d.trail := (ha.context hcd).2.2.trail

theorem depth_eq : c.depth = d.depth := by
  induction c generalizing d with
  | root id g s =>
      have hal := (ha.context hcd).2.2
      cases d with
      | root _ _ _ => rfl
      | frame _ _ _ _ _ => exact hal.elim
  | frame id op s trail p ih =>
      have hal := (ha.context hcd).2.2
      cases d with
      | root _ _ _ => exact hal.elim
      | frame _ _ _ _ q =>
          show p.depth + 1 = q.depth + 1
          rw [ih hal.2.2.2]

theorem scopeChain_alike : List.Forall₂ ρ.scopes c.scopeChain d.scopeChain := by
  induction c generalizing d with
  | root id g s =>
      have hal := (ha.context hcd).2.2
      cases d with
      | root _ _ _ => exact .cons hal.2 .nil
      | frame _ _ _ _ _ => exact hal.elim
  | frame id op s trail p ih =>
      have hal := (ha.context hcd).2.2
      cases d with
      | root _ _ _ => exact hal.elim
      | frame _ _ t _ q =>
          -- A scope is repeated on one side exactly if it is on the other.
          have hsame : p.scope = s ↔ q.scope = t :=
            ha.scope_iff (ha.context_scope hal.2.2.2) hal.2.2.1
          rw [Context.scopeChain, Context.scopeChain]
          by_cases hp : p.scope = s
          · rw [if_pos hp, if_pos (hsame.mp hp)]
            exact ih hal.2.2.2
          · rw [if_neg hp, if_neg fun hq => hp (hsame.mpr hq)]
            exact .cons hal.2.2.1 (ih hal.2.2.2)

theorem operator_alike : Answers (Operator.Alike ρ) c.operator d.operator := by
  unfold Context.operator
  rw [ha.operatorId?_eq hcd]
  cases d.operatorId? with
  | none =>
      rw [(ha.graph_alike hcd).name]
      exact .error _
  | some op => exact (ha.graph_alike hcd).get op

theorem operatorName_eq : c.operatorName = d.operatorName := by
  unfold Context.operatorName
  rw [ha.operatorId?_eq hcd, (ha.graph_alike hcd).name]
  cases d.operatorId? with
  | none => rfl
  | some op =>
      have hget := (ha.graph_alike hcd).get? op
      rw [Option.bind_some, Option.bind_some]
      cases hop : c.graph.graph.get? op with
      | none =>
          rw [hop] at hget
          cases hop' : d.graph.graph.get? op with
          | none => rfl
          | some op' => rw [hop'] at hget; cases hget
      | some o =>
          rw [hop] at hget
          cases hop' : d.graph.graph.get? op with
          | none => rw [hop'] at hget; cases hget
          | some o' =>
              rw [hop'] at hget
              cases hget with
              | some hal => exact hal.name

theorem parameters_alike : Answers (Parameters.Alike ρ) c.parameters d.parameters := by
  unfold Context.parameters
  rw [ha.operatorId?_eq hcd]
  cases d.operatorId? with
  | none => exact .ok (ha.graph_alike hcd).parameters
  | some op =>
      have hget := (ha.graph_alike hcd).get op
      dsimp only
      generalize c.graph.graph.get op = r at hget ⊢
      generalize d.graph.graph.get op = r' at hget ⊢
      cases hget with
      | ok hal => exact .ok hal.parameters
      | error e => exact .error e

end Agree

/-! ## Resolution -/

/-- Resolutions to values that correspond, or to the same name with defaults
that correspond. -/
inductive Resolution.Alike (ρ : Renaming) : Resolution → Resolution → Prop
  | toValue {i j : ItemId} (type : ValueType) :
      ρ.items i j → Alike ρ (.fixed i type) (.fixed j type)
  | toName (name : String) {i j : Option ItemId} (type : ValueType) :
      Option.Rel ρ.items i j → Alike ρ (.variable name i type) (.variable name j type)

/-- Passages through the same names. -/
structure Passage.Alike (ρ : Renaming) (w v : Passage) : Prop where
  current : w.current = v.current
  earlier : w.earlier = v.earlier
  default : Option.Rel ρ.items w.default v.default

/-- Ends of the same kind. -/
inductive FrameEnd.Alike (ρ : Renaming) : FrameEnd → FrameEnd → Prop
  | fixed {i j : ItemId} : ρ.items i j → Alike ρ (.fixed i) (.fixed j)
  | circle (names : List String) : Alike ρ (.circle names) (.circle names)
  | above {w v : Passage} : w.Alike ρ v → Alike ρ (.above w) (.above v)

section

variable {ρ : Renaming} {w v : Passage} {p q : Parameter}

theorem Passage.Alike.meet (h : w.Alike ρ v) (hpq : p.Alike ρ q) :
    (w.meet p).Alike ρ (v.meet q) where
  current := h.current
  earlier := h.earlier
  default := by
    have hd := h.default
    unfold Passage.meet
    dsimp only
    generalize w.default = x at hd ⊢
    generalize v.default = y at hd ⊢
    cases hd with
    | none => exact hpq.default
    | some hij => exact .some hij

theorem Passage.Alike.rename (h : w.Alike ρ v) (name : String) :
    (w.rename name).Alike ρ (v.rename name) where
  current := rfl
  earlier := by
    unfold Passage.rename
    rw [h.current, h.earlier]
  default := h.default

theorem Passage.Alike.names (h : w.Alike ρ v) : w.names = v.names := by
  unfold Passage.names
  rw [h.current, h.earlier]

/-- A frame is followed alike on both sides. -/
theorem followFrame_alike {ps qs : Parameters} (hps : ps.Alike ρ qs) (left : Nat) :
    ∀ (seen : List String) {w v : Passage}, w.Alike ρ v →
      (followFrame ps left seen w).Alike ρ (followFrame qs left seen v) := by
  induction left with
  | zero =>
      intro seen w v hwv
      have hget := hps.get? w.current
      rw [followFrame, followFrame, ← hwv.current]
      generalize ps.get? w.current = x at hget ⊢
      generalize qs.get? w.current = y at hget ⊢
      cases hget with
      | none => exact .above hwv
      | some hpq =>
          rw [hwv.names]
          exact .circle _
  | succ left ih =>
      intro seen w v hwv
      have hget := hps.get? w.current
      rw [followFrame, followFrame, ← hwv.current]
      generalize ps.get? w.current = x at hget ⊢
      generalize qs.get? w.current = y at hget ⊢
      cases hget with
      | none => exact .above hwv
      | @some p q hpq =>
          dsimp only
          split
          · rw [hwv.names]
            exact .circle _
          · have hfixed := hpq.fixed
            generalize p.fixed = x at hfixed ⊢
            generalize q.fixed = y at hfixed ⊢
            cases hfixed with
            | some hij => exact .fixed hij
            | none =>
                dsimp only
                rw [hpq.actual]
                split
                · exact .above (hwv.meet hpq)
                · exact ih _ ((hwv.meet hpq).rename _)

end

namespace Agree

variable {ρ : Renaming} {h k : Heap} {c d : Context} (ha : Agree ρ h k) (hcd : ρ.contexts c d)
include ha hcd

theorem follow_alike {g g' : Graph} (hg : g.Alike ρ g') (parameter : String) (type : ValueType)
    {w v : Passage} (hwv : w.Alike ρ v) :
    Answers (Resolution.Alike ρ) (c.follow g parameter type w) (d.follow g' parameter type v) := by
  induction c generalizing d w v with
  | root id g₁ s =>
      have hal := (ha.context hcd).2.2
      cases d with
      | frame _ _ _ _ _ => exact hal.elim
      | root _ _ _ =>
          have hend := followFrame_alike hg.parameters w.left [] hwv
          have hleft : v.left = w.left := by
            unfold Passage.left
            rw [hwv.earlier]
          rw [Context.follow, Context.follow, hleft]
          generalize followFrame g.parameters w.left [] w = x at hend ⊢
          generalize followFrame g'.parameters w.left [] v = y at hend ⊢
          cases hend with
          | fixed hij => exact .ok (.toValue type hij)
          | circle names => exact .error _
          | above hwv' =>
              dsimp only
              rw [hwv'.current]
              exact .ok (.toName _ type hwv'.default)
  | frame id op s trail p ih =>
      have hal := (ha.context hcd).2.2
      cases d with
      | root _ _ _ => exact hal.elim
      | frame _ op' _ _ q =>
          obtain ⟨rfl, -, -, hpq⟩ := hal
          have hget := hg.get op
          rw [Context.follow, Context.follow]
          generalize g.get op = r at hget ⊢
          generalize g'.get op = r' at hget ⊢
          cases hget with
          | error e => exact .error e
          | @ok operator operator' hop =>
              have hend := followFrame_alike hop.parameters w.left [] hwv
              have hleft : v.left = w.left := by
                unfold Passage.left
                rw [hwv.earlier]
              dsimp only
              rw [hleft]
              generalize followFrame operator.parameters w.left [] w = x at hend ⊢
              generalize followFrame operator'.parameters w.left [] v = y at hend ⊢
              cases hend with
              | fixed hij => exact .ok (.toValue type hij)
              | circle names => exact .error _
              | above hwv' => exact ih hpq hwv'

theorem resolve_alike (parameter : String) :
    Answers (Resolution.Alike ρ) (c.resolve parameter) (d.resolve parameter) := by
  have hps := ha.parameters_alike hcd
  unfold Context.resolve
  generalize c.parameters = r at hps ⊢
  generalize d.parameters = r' at hps ⊢
  cases hps with
  | error e => exact .error e
  | @ok ps qs hps =>
      have hget := hps.get? parameter
      dsimp only
      generalize ps.get? parameter = x at hget ⊢
      generalize qs.get? parameter = y at hget ⊢
      cases hget with
      | none =>
          dsimp only
          rw [ha.operatorName_eq hcd]
          exact .error _
      | @some p q hpq =>
          dsimp only
          rw [hpq.type]
          exact ha.follow_alike hcd (ha.graph_alike hcd) parameter q.type ⟨rfl, rfl, .none⟩

end Agree

end ScopeFlow
