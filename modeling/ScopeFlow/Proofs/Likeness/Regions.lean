import ScopeFlow.Proofs.Clone.Copied

/-!
# Regions of renamings

What a renaming renames is a part of the first heap that nothing leads out of
(`Agree.source_closed`), and what it renames to agrees with itself
(`Agree.diagonal`).
-/

namespace ScopeFlow

/-- What a renaming renames. -/
def Renaming.source (ρ : Renaming) : Region where
  items i := ∃ j, ρ.items i j
  scopes s := ∃ t, ρ.scopes s t
  graphs g := ∃ g', ρ.graphs g g'
  contexts c := ∃ d, ρ.contexts c d

/-- What a renaming renames to, each to itself. -/
def Renaming.diagonal (ρ : Renaming) : Renaming where
  items i j := i = j ∧ ∃ i', ρ.items i' i
  scopes s t := s = t ∧ ∃ s', ρ.scopes s' s
  graphs g g' := g = g' ∧ ∃ g₀, ρ.graphs g₀ g
  contexts c d := c = d ∧ ∃ c', ρ.contexts c' c
  outer := ρ.outer

/-- A scope and what is below it. -/
inductive Heap.Below (h : Heap) (s : ScopeId) : ScopeId → Prop
  | self : Below h s s
  | child {u c : ScopeId} : Below h s u → c ∈ (h.scope u).children → Below h s c

/-- The part of a region that is below a scope. -/
def Region.below (P : Region) (h : Heap) (s : ScopeId) : Region where
  items i := P.items i ∧
    ∃ u, P.scopes u ∧ h.Below s u ∧ ∃ entry ∈ (h.scope u).bindings.entries, entry.2 = i
  scopes u := P.scopes u ∧ h.Below s u
  graphs _ := False
  contexts _ := False

theorem Region.Closed.below {P : Region} {h : Heap} (hP : P.Closed h) (s : ScopeId) :
    (P.below h s).Closed h where
  item := fun hi => hP.item hi.1
  scope := fun hs => hP.scope hs.1
  sorted := fun hs => hP.sorted hs.1
  bound := fun hs entry he => ⟨hP.bound hs.1 entry he, _, hs.1, hs.2, entry, he, rfl⟩
  child := fun hs c hc => ⟨hP.child hs.1 c hc, hs.2.child hc⟩
  graph := False.elim
  held := False.elim
  graph_id := fun h => h.elim
  context := False.elim
  context_id := fun h => h.elim
  rooted := hP.rooted
  ranked := hP.ranked.imp fun _ hrank s hs => hrank s hs.1

section

variable {α β : Type} {R : α → β → Prop} {S : β → β → Prop} {l : List α} {l' : List β}

theorem forall₂_diagonal (h : List.Forall₂ R l l') (hRS : ∀ {a b}, R a b → S b b) :
    List.Forall₂ S l' l' := by
  refine List.forall₂_same.mpr fun b hb => ?_
  obtain ⟨a, -, hab⟩ := forall₂_mem h.flip hb
  exact hRS hab

theorem rel_diagonal {x : Option α} {y : Option β} (h : Option.Rel R x y)
    (hRS : ∀ {a b}, R a b → S b b) : Option.Rel S y y := by
  cases h with
  | none => exact .none
  | some h => exact .some (hRS h)

end

variable {ρ : Renaming}

/-! ## The second side -/

theorem Parameters.Alike.diagonal {ps qs : Parameters} (h : ps.Alike ρ qs) :
    qs.Alike ρ.diagonal qs :=
  forall₂_diagonal h fun hpq => ⟨rfl, rfl, rfl, rfl,
    rel_diagonal hpq.default fun hij => ⟨rfl, _, hij⟩,
    rel_diagonal hpq.fixed fun hij => ⟨rfl, _, hij⟩⟩

theorem Graph.Alike.diagonal {g g' : Graph} (h : g.Alike ρ g') : g'.Alike ρ.diagonal g' :=
  ⟨rfl, h.parameters.diagonal,
    forall₂_diagonal h.operators fun ho => ⟨rfl, ho.parameters.diagonal, rfl, rfl⟩, rfl⟩

theorem Context.Alike.diagonal {c d : Context} (h : c.Alike ρ d) : d.Alike ρ.diagonal d := by
  cases c with
  | root id g s =>
      cases d with
      | root id' g' t => exact ⟨⟨rfl, _, h.1⟩, rfl, _, h.2⟩
      | frame _ _ _ _ _ => exact h.elim
  | frame id op s trail p =>
      cases d with
      | root _ _ _ => exact h.elim
      | frame id' op' t trail' q => exact ⟨rfl, rfl, ⟨rfl, _, h.2.2.1⟩, rfl, _, h.2.2.2⟩

theorem Graph.Alike.silent {g g' : SharedGraph} (h : g.graph.Alike ρ g'.graph) (hg : g.Silent) :
    g'.Silent := by
  intro op' hop'
  obtain ⟨op, hop, hal⟩ := forall₂_mem h.operators.flip (Array.mem_def.mp hop')
  rw [← hal.kind]
  exact hg op (Array.mem_def.mpr hop)

theorem Scope.Alike.diagonal {node node' : Scope} (h : node.Alike ρ node') :
    node'.Alike ρ.diagonal node' where
  name := rfl
  bindings := forall₂_diagonal h.bindings fun he => ⟨rfl, rfl, _, he.2⟩
  sorted := h.sorted.same h.bindings
  children := forall₂_diagonal h.children fun hc => ⟨rfl, _, hc⟩
  parent := fun q hq => (h.parent q hq).imp_left fun hp => ⟨q, rfl, hp⟩

/-! ## The first side -/

theorem Parameters.Alike.forall₂_held {ps qs : Parameters} (h : ps.Alike ρ qs) :
    List.Forall₂ ρ.items ps.held qs.held := by
  have htoList : ∀ {x y : Option ItemId}, Option.Rel ρ.items x y →
      List.Forall₂ ρ.items x.toList y.toList := by
    intro x y hxy
    cases hxy with
    | none => exact .nil
    | some hij => exact .cons hij .nil
  obtain ⟨ps⟩ := ps
  obtain ⟨qs⟩ := qs
  have hlists : List.Forall₂ (Parameter.Alike ρ) ps qs := h
  clear h
  unfold Parameters.held
  induction hlists with
  | nil => exact .nil
  | cons hpq _ ih => exact List.rel_append (List.rel_append (htoList hpq.default) (htoList hpq.fixed)) ih

theorem Parameters.Alike.held {ps qs : Parameters} (h : ps.Alike ρ qs) :
    ∀ i ∈ ps.held, ∃ j, ρ.items i j := by
  intro i hi
  obtain ⟨j, -, hij⟩ := forall₂_mem h.forall₂_held hi
  exact ⟨j, hij⟩

theorem Graph.Alike.held {g g' : Graph} (h : g.Alike ρ g') : ∀ i ∈ g.held, ∃ j, ρ.items i j := by
  intro i hi
  rcases List.mem_append.mp hi with hi | hi
  · exact h.parameters.held i hi
  · obtain ⟨op, hop, hi⟩ := List.mem_flatMap.mp hi
    obtain ⟨op', -, hal⟩ := forall₂_mem h.operators hop
    exact hal.parameters.held i hi

theorem Context.Alike.partsIn {c d : Context} (h : c.Alike ρ d) : c.PartsIn ρ.source := by
  cases c with
  | root id g s =>
      cases d with
      | root id' g' t => exact ⟨⟨_, h.1⟩, _, h.2⟩
      | frame _ _ _ _ _ => exact h.elim
  | frame id op s trail p =>
      cases d with
      | root _ _ _ => exact h.elim
      | frame id' op' t trail' q => exact ⟨⟨_, h.2.2.1⟩, _, h.2.2.2⟩

namespace Agree

variable {h k : Heap} {s t : ScopeId} (ha : Agree ρ h k)
include ha

theorem source_closed : ρ.source.Closed h where
  item := fun ⟨_, hij⟩ => (ha.item hij).1
  scope := fun ⟨_, hst⟩ => (ha.scope hst).1
  sorted := fun ⟨_, hst⟩ => (ha.scope hst).2.2.sorted
  bound := by
    rintro s ⟨t, hst⟩ entry hentry
    obtain ⟨entry', -, hsame⟩ := forall₂_mem (ha.scope hst).2.2.bindings hentry
    exact ⟨_, hsame.2⟩
  child := by
    rintro s ⟨t, hst⟩ c hc
    obtain ⟨d, -, hcd⟩ := forall₂_mem (ha.scope hst).2.2.children hc
    exact ⟨d, hcd⟩
  graph := fun ⟨_, hg⟩ => (ha.graph hg).1
  held := fun ⟨_, hg⟩ => (ha.graph hg).2.2.2.held
  graph_id := fun ⟨_, hg⟩ ⟨_, hg'⟩ hid => (ha.graph_id hg hg' (.inl hid)).1
  context := fun ⟨_, hc⟩ => ⟨(ha.context hc).1, (ha.context hc).2.2.partsIn⟩
  context_id := fun ⟨_, hc⟩ ⟨_, hc'⟩ hid => (ha.context_id hc hc' (.inl hid)).1
  rooted := ha.rooted
  ranked := ha.ranked

theorem source_silent {g : SharedGraph} : ρ.source.graphs g → g.Silent :=
  fun ⟨_, hg⟩ => (ha.graph hg).2.2.1

/-- What is renamed to is ranked as what is renamed. -/
theorem ranked' : k.Ranked fun t => ∃ s, ρ.scopes s t := by
  classical
  obtain ⟨rank, hrank⟩ := ha.ranked
  refine ⟨fun t => if h : ∃ s, ρ.scopes s t then rank h.choose else 0, ?_⟩
  rintro t ⟨s, hst⟩ d hd
  obtain ⟨c, hc, hcd⟩ := forall₂_mem (ha.scope hst).2.2.children.flip hd
  have hch : ∃ s, ρ.scopes s t := ⟨s, hst⟩
  have hch' : ∃ s, ρ.scopes s d := ⟨c, hcd⟩
  dsimp only
  rw [dif_pos hch, dif_pos hch', (ha.scope_iff hch.choose_spec hst).mpr rfl,
    (ha.scope_iff hch'.choose_spec hcd).mpr rfl]
  exact hrank s ⟨t, hst⟩ c hc

/-- What is renamed to agrees with itself. -/
theorem diagonal : Agree ρ.diagonal k k where
  item := by
    rintro i j ⟨rfl, i', hij⟩
    exact ⟨(ha.item hij).2.1, (ha.item hij).2.1, rfl⟩
  item_iff := by
    rintro i j i' j' ⟨rfl, -⟩ ⟨rfl, -⟩
    exact Iff.rfl
  scope := by
    rintro s t ⟨rfl, s', hst⟩
    exact ⟨(ha.scope hst).2.1, (ha.scope hst).2.1, (ha.scope hst).2.2.diagonal⟩
  scope_iff := by
    rintro s t s' t' ⟨rfl, -⟩ ⟨rfl, -⟩
    exact Iff.rfl
  graph := by
    rintro g g' ⟨rfl, g₀, hg⟩
    obtain ⟨-, hlt, hb, hal⟩ := ha.graph hg
    exact ⟨hlt, hlt, hal.silent hb, hal.diagonal⟩
  graph_id := by
    rintro g₁ g₁' g₂ g₂' ⟨rfl, x, h₁⟩ ⟨rfl, y, h₂⟩ hid
    have heq := (ha.graph_id h₁ h₂ (.inr (hid.elim (fun h => h) fun h => h))).2
    exact ⟨heq, heq⟩
  context := by
    rintro c d ⟨rfl, c', hc⟩
    obtain ⟨-, hlt, hal⟩ := ha.context hc
    exact ⟨hlt, hlt, hal.diagonal⟩
  context_id := by
    rintro c d c' d' ⟨rfl, x, h₁⟩ ⟨rfl, y, h₂⟩ hid
    have heq := (ha.context_id h₁ h₂ (.inr (hid.elim (fun h => h) fun h => h))).2
    exact ⟨heq, heq⟩
  outer := ha.outer
  rooted := ha.rooted'
  rooted' := ha.rooted'
  ranked := by
    obtain ⟨rank, hrank⟩ := ha.ranked'
    exact ⟨rank, fun t ⟨_, _, ht⟩ => hrank t ht⟩

/-- Whatever is below on the second side is so on the first. -/
theorem below (hst : ρ.scopes s t) {v : ScopeId} (hv : k.Below t v) :
    ∃ u, h.Below s u ∧ ρ.scopes u v := by
  induction hv with
  | self => exact ⟨s, .self, hst⟩
  | child _ hd ih =>
      obtain ⟨u, hu, huv⟩ := ih
      obtain ⟨c, hc, hcd⟩ := forall₂_mem (ha.scope huv).2.2.children.flip hd
      exact ⟨c, hu.child hc, hcd⟩

end Agree

end ScopeFlow
