import ScopeFlow.Proofs.Heap.Sorted
import ScopeFlow.Proofs.Heap.Updates
import ScopeFlow.Proofs.Operator.BuiltIn

/-!
# Renamings

Two heaps, or two parts of one heap, may hold the same under different
identities. A renaming says which items, scopes, graphs and contexts of the
one correspond to which of the other.

* `Agree` is the relation of heaps that a run keeps: what corresponds has the
  same values, names, shape and order, and nothing corresponds to two things,
  so that sharing is the same on both sides;
* `Confined` is the frame of a run: apart from what is new, only what the
  renaming reaches has changed;
* `Agree.grow` adds what has been made on both sides.
-/

namespace ScopeFlow

/-- What corresponds to what. -/
structure Renaming where
  items : ItemId → ItemId → Prop
  scopes : ScopeId → ScopeId → Prop
  graphs : SharedGraph → SharedGraph → Prop
  contexts : Context → Context → Prop
  /-- Scopes of the other heap that correspond to none, to which corresponding
  ones may be attached. -/
  outer : ScopeId → Prop

/-- Does the renaming leave nothing out? -/
def Renaming.Inner (ρ : Renaming) : Prop := ∀ q, ¬ ρ.outer q

/-- Does all that corresponds by `ρ` correspond by `σ`? -/
structure Renaming.Within (ρ σ : Renaming) : Prop where
  items : ∀ {i j}, ρ.items i j → σ.items i j
  scopes : ∀ {s t}, ρ.scopes s t → σ.scopes s t
  graphs : ∀ {g g'}, ρ.graphs g g' → σ.graphs g g'
  contexts : ∀ {c d}, ρ.contexts c d → σ.contexts c d
  outer : ∀ {q}, ρ.outer q → σ.outer q

theorem Renaming.Within.refl {ρ : Renaming} : ρ.Within ρ := ⟨id, id, id, id, id⟩

theorem Renaming.Within.trans {ρ σ τ : Renaming} (h : ρ.Within σ) (h' : σ.Within τ) :
    ρ.Within τ :=
  ⟨h'.items ∘ h.items, h'.scopes ∘ h.scopes, h'.graphs ∘ h.graphs, h'.contexts ∘ h.contexts,
    h'.outer ∘ h.outer⟩

/-! ## What corresponds looks alike -/

/-- Scopes of the same name, with corresponding variables and sub-scopes. The
second one is attached, if at all, to a scope that is renamed to, or to one
that the renaming leaves out. -/
structure Scope.Alike (ρ : Renaming) (node node' : Scope) : Prop where
  name : node.name = node'.name
  bindings : List.Forall₂ (SameEntry ρ.items) node.bindings.entries node'.bindings.entries
  sorted : node.bindings.Sorted
  children : List.Forall₂ ρ.scopes node.children node'.children
  parent : ∀ q, node'.parent = some q → (∃ p, ρ.scopes p q) ∨ ρ.outer q

/-- Declarations that differ in the items they hold, at most. -/
structure Parameter.Alike (ρ : Renaming) (p q : Parameter) : Prop where
  name : p.name = q.name
  description : p.description = q.description
  type : p.type = q.type
  actual : p.actual = q.actual
  default : Option.Rel ρ.items p.default q.default
  fixed : Option.Rel ρ.items p.fixed q.fixed

/-- Collections of such declarations in the same order. -/
def Parameters.Alike (ρ : Renaming) (ps qs : Parameters) : Prop :=
  List.Forall₂ (Parameter.Alike ρ) ps.list qs.list

/-- Operators that differ in the items of their declarations, at most. -/
structure Operator.Alike (ρ : Renaming) (op op' : Operator) : Prop where
  name : op.name = op'.name
  parameters : op.parameters.Alike ρ op'.parameters
  successor : op.successor = op'.successor
  kind : op.kind = op'.kind

/-- Graphs that differ in the items of their declarations, at most. -/
structure Graph.Alike (ρ : Renaming) (g g' : Graph) : Prop where
  name : g.name = g'.name
  parameters : g.parameters.Alike ρ g'.parameters
  operators : List.Forall₂ (Operator.Alike ρ) g.operators.toList g'.operators.toList
  initial : g.initial = g'.initial

/-- Contexts for the same operator, with the same trail, over corresponding
scopes and parents. -/
def Context.Alike (ρ : Renaming) : Context → Context → Prop
  | root _ g s, root _ g' t => ρ.graphs g g' ∧ ρ.scopes s t
  | frame _ op s trail p, frame _ op' t trail' q =>
    op = op' ∧ trail = trail' ∧ ρ.scopes s t ∧ ρ.contexts p q
  | _, _ => False

theorem rel_imp {α β : Type} {R S : α → β → Prop} (hRS : ∀ {a b}, R a b → S a b)
    {x : Option α} {y : Option β} (h : Option.Rel R x y) : Option.Rel S x y := by
  cases h with
  | none => exact .none
  | some h => exact .some (hRS h)

theorem rel_left {α β : Type} {R : α → β → Prop} {x : Option α} {y : Option β}
    (h : Option.Rel R x y) {a : α} (ha : a ∈ x) : ∃ b, R a b := by
  cases h with
  | none => cases ha
  | some h =>
      cases ha
      exact ⟨_, h⟩

section

variable {ρ σ : Renaming} (hw : ρ.Within σ)
include hw

theorem Scope.Alike.mono {node node' : Scope} (h : node.Alike ρ node') : node.Alike σ node' where
  name := h.name
  bindings := h.bindings.imp fun _ _ he => ⟨he.1, hw.items he.2⟩
  sorted := h.sorted
  children := h.children.imp fun _ _ => hw.scopes
  parent := fun q hq => (h.parent q hq).imp (fun hp => hp.imp fun _ => hw.scopes) hw.outer

theorem Parameter.Alike.mono {p q : Parameter} (h : p.Alike ρ q) : p.Alike σ q :=
  { h with
    default := rel_imp hw.items h.default
    fixed := rel_imp hw.items h.fixed }

theorem Parameters.Alike.mono {ps qs : Parameters} (h : ps.Alike ρ qs) : ps.Alike σ qs :=
  List.Forall₂.imp (fun _ _ hpq => hpq.mono hw) h

theorem Operator.Alike.mono {op op' : Operator} (h : op.Alike ρ op') : op.Alike σ op' :=
  { h with parameters := h.parameters.mono hw }

theorem Graph.Alike.mono {g g' : Graph} (h : g.Alike ρ g') : g.Alike σ g' where
  name := h.name
  parameters := h.parameters.mono hw
  operators := h.operators.imp fun _ _ ho => ho.mono hw
  initial := h.initial

theorem Context.Alike.mono {c d : Context} (h : c.Alike ρ d) : c.Alike σ d := by
  cases c with
  | root id g s =>
      cases d with
      | root id' g' t => exact ⟨hw.graphs h.1, hw.scopes h.2⟩
      | frame _ _ _ _ _ => exact h.elim
  | frame id op s trail p =>
      cases d with
      | root _ _ _ => exact h.elim
      | frame id' op' t trail' q =>
          exact ⟨h.1, h.2.1, hw.scopes h.2.2.1, hw.contexts h.2.2.2⟩

end

namespace Context.Alike

variable {ρ : Renaming} {c d : Context} (h : c.Alike ρ d)
include h

theorem scope : ρ.scopes c.scope d.scope := by
  cases c <;> cases d
  · exact h.2
  · exact h.elim
  · exact h.elim
  · exact h.2.2.1

theorem parent? : Option.Rel ρ.contexts c.parent? d.parent? := by
  cases c <;> cases d
  · exact .none
  · exact h.elim
  · exact h.elim
  · exact .some h.2.2.2

theorem operatorId? : c.operatorId? = d.operatorId? := by
  cases c <;> cases d
  · rfl
  · exact h.elim
  · exact h.elim
  · exact congrArg some h.1

theorem trail : c.trail = d.trail := by
  cases c <;> cases d
  · rfl
  · exact h.elim
  · exact h.elim
  · exact h.2.1

end Context.Alike

/-! ## Heaps -/

/-- Do the children of some scopes come lower in some ranking? Then no scope
is below itself. -/
def Heap.Ranked (h : Heap) (S : ScopeId → Prop) : Prop :=
  ∃ rank : ScopeId → Nat, ∀ s, S s → ∀ c ∈ (h.scope s).children, rank c < rank s

/-- The scopes that a renaming renames. -/
def Renaming.Renames (ρ : Renaming) (s : ScopeId) : Prop := ∃ t, ρ.scopes s t

/-- Heaps that hold the same, by a renaming. -/
structure Agree (ρ : Renaming) (h k : Heap) : Prop where
  item : ∀ {i j}, ρ.items i j →
    i.index < h.items.size ∧ j.index < k.items.size ∧ h.value i = k.value j
  item_iff : ∀ {i j i' j'}, ρ.items i j → ρ.items i' j' → (i = i' ↔ j = j')
  scope : ∀ {s t}, ρ.scopes s t →
    s.index < h.scopes.size ∧ t.index < k.scopes.size ∧ (h.scope s).Alike ρ (k.scope t)
  scope_iff : ∀ {s t s' t'}, ρ.scopes s t → ρ.scopes s' t' → (s = s' ↔ t = t')
  graph : ∀ {g g'}, ρ.graphs g g' →
    g.id.index < h.graphs ∧ g'.id.index < k.graphs ∧ g.Silent ∧ g.graph.Alike ρ g'.graph
  graph_id : ∀ {g₁ g₁' g₂ g₂'}, ρ.graphs g₁ g₁' → ρ.graphs g₂ g₂' →
    g₁.id = g₂.id ∨ g₁'.id = g₂'.id → g₁ = g₂ ∧ g₁' = g₂'
  context : ∀ {c d}, ρ.contexts c d →
    c.id.index < h.contexts ∧ d.id.index < k.contexts ∧ c.Alike ρ d
  context_id : ∀ {c d c' d'}, ρ.contexts c d → ρ.contexts c' d' →
    c.id = c'.id ∨ d.id = d'.id → c = c' ∧ d = d'
  outer : ∀ {q}, ρ.outer q → q.index < k.scopes.size
  rooted : h.Rooted
  rooted' : k.Rooted
  ranked : h.Ranked ρ.Renames

/-- A change of the second heap is confined to what is new and what the
renaming reaches. -/
structure Confined (ρ ρ' : Renaming) (k k' : Heap) : Prop where
  within : ρ.Within ρ'
  items : k.items.size ≤ k'.items.size
  scopes : k.scopes.size ≤ k'.scopes.size
  contexts : k.contexts ≤ k'.contexts
  graphs : k.graphs ≤ k'.graphs
  newItem : ∀ {i j}, ρ'.items i j → ρ.items i j ∨ k.items.size ≤ j.index
  newScope : ∀ {s t}, ρ'.scopes s t → ρ.scopes s t ∨ k.scopes.size ≤ t.index
  newGraph : ∀ {g g'}, ρ'.graphs g g' → ρ.graphs g g' ∨ k.graphs ≤ g'.id.index
  newContext : ∀ {c d}, ρ'.contexts c d → ρ.contexts c d ∨ k.contexts ≤ d.id.index
  outer : ∀ {q}, ρ'.outer q → ρ.outer q
  madeItem : ∀ {j}, k.items.size ≤ j.index → j.index < k'.items.size → ∃ i, ρ'.items i j
  madeScope : ∀ {t}, k.scopes.size ≤ t.index → t.index < k'.scopes.size → ∃ s, ρ'.scopes s t
  keptItem : ∀ {j}, j.index < k.items.size → (∀ i, ¬ ρ.items i j) → k'.value j = k.value j
  keptScope : ∀ {t}, t.index < k.scopes.size → (∀ s, ¬ ρ.scopes s t) → k'.scope t = k.scope t

namespace Confined

variable {ρ ρ' ρ'' : Renaming} {k k' k'' : Heap}

theorem refl : Confined ρ ρ k k :=
  ⟨.refl, Nat.le_refl _, Nat.le_refl _, Nat.le_refl _, Nat.le_refl _, .inl, .inl, .inl, .inl, id,
    fun hle hlt => absurd hlt (Nat.not_lt.mpr hle), fun hle hlt => absurd hlt (Nat.not_lt.mpr hle),
    fun _ _ => rfl, fun _ _ => rfl⟩

theorem trans (h : Confined ρ ρ' k k') (h' : Confined ρ' ρ'' k' k'') : Confined ρ ρ'' k k'' where
  within := h.within.trans h'.within
  items := Nat.le_trans h.items h'.items
  scopes := Nat.le_trans h.scopes h'.scopes
  contexts := Nat.le_trans h.contexts h'.contexts
  graphs := Nat.le_trans h.graphs h'.graphs
  newItem := by
    intro i j hij
    rcases h'.newItem hij with hold | hnew
    · exact h.newItem hold
    · exact .inr (Nat.le_trans h.items hnew)
  newScope := by
    intro s t hst
    rcases h'.newScope hst with hold | hnew
    · exact h.newScope hold
    · exact .inr (Nat.le_trans h.scopes hnew)
  newGraph := by
    intro g g' hg
    rcases h'.newGraph hg with hold | hnew
    · exact h.newGraph hold
    · exact .inr (Nat.le_trans h.graphs hnew)
  newContext := by
    intro c d hcd
    rcases h'.newContext hcd with hold | hnew
    · exact h.newContext hold
    · exact .inr (Nat.le_trans h.contexts hnew)
  outer := h.outer ∘ h'.outer
  madeItem := by
    intro j hle hlt
    by_cases hj : j.index < k'.items.size
    · exact (h.madeItem hle hj).imp fun _ => h'.within.items
    · exact h'.madeItem (Nat.not_lt.mp hj) hlt
  madeScope := by
    intro t hle hlt
    by_cases ht : t.index < k'.scopes.size
    · exact (h.madeScope hle ht).imp fun _ => h'.within.scopes
    · exact h'.madeScope (Nat.not_lt.mp ht) hlt
  -- What nothing was related to at first is related to nothing old in between.
  keptItem := by
    intro j hj hno
    rw [h'.keptItem (Nat.lt_of_lt_of_le hj h.items), h.keptItem hj hno]
    intro i hij
    rcases h.newItem hij with hold | hnew
    · exact hno i hold
    · omega
  keptScope := by
    intro t ht hno
    rw [h'.keptScope (Nat.lt_of_lt_of_le ht h.scopes), h.keptScope ht hno]
    intro s hst
    rcases h.newScope hst with hold | hnew
    · exact hno s hold
    · omega

end Confined

theorem Confined.inner {ρ ρ' : Renaming} {k k' : Heap} (h : Confined ρ ρ' k k')
    (hin : ρ.Inner) : ρ'.Inner :=
  fun q hq => hin q (h.outer hq)

/-- Heaps agree as long as what is renamed to is kept. -/
theorem Agree.keep {ρ : Renaming} {h k k' : Heap} (ha : Agree ρ h k)
    (hitems : k.items.size ≤ k'.items.size) (hscopes : k.scopes.size ≤ k'.scopes.size)
    (hgraphs : k.graphs ≤ k'.graphs) (hcontexts : k.contexts ≤ k'.contexts)
    (hitem : ∀ {i j}, ρ.items i j → k'.value j = k.value j)
    (hscope : ∀ {s t}, ρ.scopes s t → k'.scope t = k.scope t) (hrooted : k'.Rooted) :
    Agree ρ h k' :=
  { ha with
    item := by
      intro i j hij
      obtain ⟨hi, hj, hv⟩ := ha.item hij
      rw [hitem hij]
      exact ⟨hi, Nat.lt_of_lt_of_le hj hitems, hv⟩
    scope := by
      intro s t hst
      obtain ⟨hs, ht, hal⟩ := ha.scope hst
      rw [hscope hst]
      exact ⟨hs, Nat.lt_of_lt_of_le ht hscopes, hal⟩
    graph := by
      intro g g' hg
      obtain ⟨hid, hid', hrest⟩ := ha.graph hg
      exact ⟨hid, Nat.lt_of_lt_of_le hid' hgraphs, hrest⟩
    context := by
      intro c d hcd
      obtain ⟨hid, hid', hal⟩ := ha.context hcd
      exact ⟨hid, Nat.lt_of_lt_of_le hid' hcontexts, hal⟩
    outer := fun hq => Nat.lt_of_lt_of_le (ha.outer hq) hscopes
    rooted' := hrooted }

/-! ## Growth -/

/-- What is one to one stays so as long as what is added to it is new on both
sides, and one to one itself. -/
theorem one_to_one_of_grow {α : Type} (index : α → Nat) {n m : Nat} {R R' : α → α → Prop}
    (hold : ∀ {a b}, R a b → index a < n ∧ index b < m)
    (hgrow : ∀ {a b}, R' a b → R a b ∨ n ≤ index a ∧ m ≤ index b)
    (hone : ∀ {a b a' b'}, R a b → R a' b' → (a = a' ↔ b = b'))
    (hnew : ∀ {a b a' b'}, R' a b → R' a' b' → n ≤ index a → n ≤ index a' → (a = a' ↔ b = b'))
    {a b a' b' : α} (h : R' a b) (h' : R' a' b') : a = a' ↔ b = b' := by
  -- What is new is equal to nothing old, on neither side.
  rcases hgrow h with h₁ | ⟨ha, hb⟩
  · obtain ⟨ha, hb⟩ := hold h₁
    rcases hgrow h' with h₂ | ⟨ha', hb'⟩
    · exact hone h₁ h₂
    · exact ⟨fun he => by subst he; omega, fun he => by subst he; omega⟩
  · rcases hgrow h' with h₂ | ⟨ha', -⟩
    · obtain ⟨ha', hb'⟩ := hold h₂
      exact ⟨fun he => by subst he; omega, fun he => by subst he; omega⟩
    · exact hnew h h' ha ha'

/-- What has been made on both sides corresponds, one to one. -/
structure Additions (ρ ρ' : Renaming) (h h' k k' : Heap) : Prop where
  within : ρ.Within ρ'
  item : ∀ {i j}, ρ'.items i j → ρ.items i j ∨
    h.items.size ≤ i.index ∧ k.items.size ≤ j.index ∧
      i.index < h'.items.size ∧ j.index < k'.items.size ∧ h'.value i = k'.value j
  item_iff : ∀ {i j i' j'}, ρ'.items i j → ρ'.items i' j' →
    h.items.size ≤ i.index → h.items.size ≤ i'.index → (i = i' ↔ j = j')
  scope : ∀ {s t}, ρ'.scopes s t → ρ.scopes s t ∨
    h.scopes.size ≤ s.index ∧ k.scopes.size ≤ t.index ∧
      s.index < h'.scopes.size ∧ t.index < k'.scopes.size ∧ (h'.scope s).Alike ρ' (k'.scope t)
  scope_iff : ∀ {s t s' t'}, ρ'.scopes s t → ρ'.scopes s' t' →
    h.scopes.size ≤ s.index → h.scopes.size ≤ s'.index → (s = s' ↔ t = t')
  graph : ∀ {g g'}, ρ'.graphs g g' → ρ.graphs g g'
  context : ∀ {c d}, ρ'.contexts c d → ρ.contexts c d ∨
    h.contexts ≤ c.id.index ∧ k.contexts ≤ d.id.index ∧
      c.id.index < h'.contexts ∧ d.id.index < k'.contexts ∧ c.Alike ρ' d
  context_id : ∀ {c d c' d'}, ρ'.contexts c d → ρ'.contexts c' d' →
    h.contexts ≤ c.id.index → h.contexts ≤ c'.id.index →
      c.id = c'.id ∨ d.id = d'.id → c = c' ∧ d = d'
  outer : ∀ {q}, ρ'.outer q → ρ.outer q
  madeItem : ∀ {j}, k.items.size ≤ j.index → j.index < k'.items.size → ∃ i, ρ'.items i j
  madeScope : ∀ {t}, k.scopes.size ≤ t.index → t.index < k'.scopes.size → ∃ s, ρ'.scopes s t
  rooted : h'.Rooted
  rooted' : k'.Rooted
  ranked : h'.Ranked ρ'.Renames

/-- Heaps that agree go on to agree when both grow alike. -/
theorem Agree.grow {ρ ρ' : Renaming} {h h' k k' : Heap} (ha : Agree ρ h k) (hh : h.Kept h')
    (hk : k.Kept k') (hadd : Additions ρ ρ' h h' k k') :
    Agree ρ' h' k' ∧ Confined ρ ρ' k k' := by
  have hw := hadd.within
  have hitems := hh.items
  have hitems' := hk.items
  have hscopes := hh.scopes
  have hscopes' := hk.scopes
  have hcontexts := hh.contexts
  have hcontexts' := hk.contexts
  constructor
  · refine ⟨?_, ?_, ?_, ?_, ?_, ?_, ?_, ?_, fun hq => Nat.lt_of_lt_of_le (ha.outer (hadd.outer hq)) hscopes',
      hadd.rooted, hadd.rooted', hadd.ranked⟩
    · intro i j hij
      -- What was related before was there before, and what is there is kept.
      rcases hadd.item hij with hold | ⟨-, -, hi, hj, hv⟩
      · obtain ⟨hi, hj, hv⟩ := ha.item hold
        rw [hh.value hi, hk.value hj]
        exact ⟨by omega, by omega, hv⟩
      · exact ⟨hi, hj, hv⟩
    · intro i j i' j' hij hij'
      exact one_to_one_of_grow ItemId.index (fun hij => ⟨(ha.item hij).1, (ha.item hij).2.1⟩)
        (fun hij => (hadd.item hij).imp_right fun hnew => ⟨hnew.1, hnew.2.1⟩) ha.item_iff
        hadd.item_iff hij hij'
    · intro s t hst
      rcases hadd.scope hst with hold | ⟨-, -, hs, ht, hv⟩
      · obtain ⟨hs, ht, hv⟩ := ha.scope hold
        rw [hh.scope hs, hk.scope ht]
        exact ⟨by omega, by omega, hv.mono hw⟩
      · exact ⟨hs, ht, hv⟩
    · intro s t s' t' hst hst'
      exact one_to_one_of_grow ScopeId.index (fun hst => ⟨(ha.scope hst).1, (ha.scope hst).2.1⟩)
        (fun hst => (hadd.scope hst).imp_right fun hnew => ⟨hnew.1, hnew.2.1⟩) ha.scope_iff
        hadd.scope_iff hst hst'
    · intro g g' hg
      obtain ⟨hid, hid', hb, hal⟩ := ha.graph (hadd.graph hg)
      have := hh.graphs
      have := hk.graphs
      exact ⟨by omega, by omega, hb, hal.mono hw⟩
    · intro g₁ g₁' g₂ g₂' h₁ h₂
      exact ha.graph_id (hadd.graph h₁) (hadd.graph h₂)
    · intro c d hcd
      rcases hadd.context hcd with hold | ⟨-, -, hc, hd, hal⟩
      · obtain ⟨hc, hd, hal⟩ := ha.context hold
        exact ⟨by omega, by omega, hal.mono hw⟩
      · exact ⟨hc, hd, hal⟩
    · intro c d c' d' hcd hcd' hid
      rcases hadd.context hcd with hold | hnew
      · rcases hadd.context hcd' with hold' | hnew'
        · exact ha.context_id hold hold' hid
        · have hb := ha.context hold
          -- An old context and a new one differ in identity on both sides, by when they were
          -- made.
          rcases hid with hid | hid <;> (rw [hid] at hb; omega)
      · rcases hadd.context hcd' with hold' | hnew'
        · have hb := ha.context hold'
          rcases hid with hid | hid <;> (rw [← hid] at hb; omega)
        · exact hadd.context_id hcd hcd' hnew.1 hnew'.1 hid
  · refine ⟨hw, hitems', hscopes', hcontexts', hk.graphs, ?_, ?_, ?_, ?_, hadd.outer,
      hadd.madeItem, hadd.madeScope, ?_, ?_⟩
    · intro i j hij
      exact (hadd.item hij).imp_right fun hnew => hnew.2.1
    · intro s t hst
      exact (hadd.scope hst).imp_right fun hnew => hnew.2.1
    · intro g g' hg
      exact .inl (hadd.graph hg)
    · intro c d hcd
      exact (hadd.context hcd).imp_right fun hnew => hnew.2.1
    · intro j hj _
      exact hk.value hj
    · intro t ht _
      exact hk.scope ht

end ScopeFlow
