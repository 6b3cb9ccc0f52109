import ScopeFlow.Proofs.Scope.Changes

/-!
# Copies in a forest

Copies are tied together as the scopes that they are copies of: `Linked` is
the part of a forest that holds at every moment of copying. A copy that is
about to be adopted has no parent yet, since whatever has adopted it would be
a copy of the parent that its original has, and that is the one which adopts
it now (`Linked.unadopted`).
-/

namespace ScopeFlow

/-- The scopes are tied together both ways, and copies as their originals. -/
structure Copying.Linked (h₀ : Heap) (c : Copying) : Prop where
  linked : ∀ p x, x ∈ (c.heap.scope p).children ↔ (c.heap.scope x).parent = some p
  nodup : ∀ p, (c.heap.scope p).children.Nodup
  part : ∀ {q y}, h₀.scopes.size ≤ q.index → y ∈ (c.heap.scope q).children →
    ∃ p x, c.session.scopeTo p q ∧ x ∈ (h₀.scope p).children ∧ c.session.scopeTo x y

/-- A forest is linked before anything is copied. -/
theorem Heap.Forest.start {h : Heap} (hf : h.Forest) (σ : Session) :
    Copying.Linked h ⟨σ, h⟩ where
  linked := hf.linked
  nodup := hf.nodup
  part := by
    intro q y hq hy
    have := Heap.lt_of_child hy
    change q.index < h.scopes.size at this
    omega

namespace Copying.Linked

variable {h₀ : Heap} {c c' : Copying} {P : Region} {φ : OperatorId → OperatorId}
  {busy : ScopeId → Prop} {s t u v : ScopeId}

/-- A step that leaves sub-scopes and parents alone. -/
theorem of_same (hl : c.Linked h₀)
    (hscopes : ∀ {p q}, c.session.scopeTo p q → c'.session.scopeTo p q)
    (hchildren : ∀ x, (c'.heap.scope x).children = (c.heap.scope x).children)
    (hparent : ∀ x, (c'.heap.scope x).parent = (c.heap.scope x).parent) : c'.Linked h₀ where
  linked := by
    intro p x
    rw [hchildren, hparent]
    exact hl.linked p x
  nodup := by
    intro p
    rw [hchildren]
    exact hl.nodup p
  part := by
    intro q y hq hy
    rw [hchildren] at hy
    obtain ⟨p, x, hpq, hx, hxy⟩ := hl.part hq hy
    exact ⟨p, x, hscopes hpq, hx, hscopes hxy⟩

/-- A step that leaves scopes alone. -/
theorem of_scopes (hl : c.Linked h₀) (hheap : c'.heap.scopes = c.heap.scopes)
    (hsession : c'.session.scopes = c.session.scopes) : c'.Linked h₀ := by
  have hscope := Heap.scope_congr hheap
  apply hl.of_same
  · intro p q hpq
    rwa [Session.scopeTo, hsession]
  · exact fun x => congrArg Scope.children (hscope x)
  · exact fun x => congrArg Scope.parent (hscope x)

/-- The copy of a sub-scope has no parent as long as it is not among the
sub-scopes of the copy of its parent. -/
theorem unadopted (hl : c.Linked h₀) (hf : h₀.Forest) (hc : Copied P φ h₀ busy c)
    (hst : c.session.scopeTo s t) (huv : c.session.scopeTo u v) (hu : u ∈ (h₀.scope s).children)
    (hno : v ∉ (c.heap.scope t).children) : (c.heap.scope v).parent = none := by
  cases hq : (c.heap.scope v).parent with
  | none => rfl
  | some q =>
      exfalso
      have hmem : v ∈ (c.heap.scope q).children := (hl.linked q v).mpr hq
      obtain ⟨p, hpq⟩ := (hc.scope huv).2.2.2 q hq
      obtain ⟨p', x, hpq', hx, hxv⟩ := hl.part (hc.scope hpq).2.1 hmem
      -- What has adopted it is a copy of the parent of its original.
      obtain rfl : x = u := hc.scope_inj hxv huv
      have hsame : p' = s := by
        have h₁ := (hf.linked p' x).mp hx
        have h₂ := (hf.linked s x).mp hu
        exact Option.some.inj (h₁.symm.trans h₂)
      subst hsame
      obtain rfl : q = t := Option.some.inj (hpq'.symm.trans hst)
      exact hno hmem

/-- Adopting the copy of a sub-scope that has no parent yet. -/
theorem adopted (hl : c.Linked h₀) (hc : Copied P φ h₀ busy c) (hst : c.session.scopeTo s t)
    (huv : c.session.scopeTo u v) (hu : u ∈ (h₀.scope s).children)
    (hparent : (c.heap.scope v).parent = none) : (adopt t v c).2.Linked h₀ := by
  have hscope := adopt_scope (hc.scope hst).2.2.1 (hc.scope huv).2.2.1
  have hno : ∀ p, v ∉ (c.heap.scope p).children := by
    intro p hmem
    rw [hl.linked, hparent] at hmem
    cases hmem
  constructor
  · intro p x
    rw [hscope, hscope]
    show (x ∈ if p = t then _ else _) ↔ (if x = v then _ else _) = some p
    by_cases hx : x = v
    · subst hx
      by_cases hp : p = t
      · simp [hp]
      · simp [hp, hno p, Ne.symm hp]
    · rw [if_neg hx]
      by_cases hp : p = t
      · subst hp
        rw [if_pos rfl, List.mem_append, List.mem_singleton, or_iff_left hx]
        exact hl.linked p x
      · rw [if_neg hp]
        exact hl.linked p x
  · intro p
    rw [hscope]
    show (if p = t then _ else _ : List ScopeId).Nodup
    by_cases hp : p = t
    · rw [if_pos hp]
      refine List.Nodup.append (hl.nodup t) (List.nodup_singleton v) ?_
      intro x hx hxv
      rw [List.mem_singleton.mp hxv] at hx
      exact hno t hx
    · rw [if_neg hp]
      exact hl.nodup p
  · intro q y hq hy
    rw [hscope] at hy
    change y ∈ (if q = t then _ else _ : List ScopeId) at hy
    by_cases hqt : q = t
    · subst hqt
      rw [if_pos rfl, List.mem_append, List.mem_singleton] at hy
      rcases hy with hy | rfl
      · exact hl.part hq hy
      · exact ⟨s, u, hst, hu, huv⟩
    · rw [if_neg hqt] at hy
      exact hl.part hq hy

end Copying.Linked

/-! ## Subtrees -/

section

variable {P : Region} {φ : OperatorId → OperatorId} {h₀ : Heap} {busy : ScopeId → Prop}
  {c : Copying} {s t : ScopeId}

/-- Copies of scopes of a forest stay linked. -/
theorem Copied.linked_rule (hP : P.Closed h₀) (hf : h₀.Forest) :
    CopyRule h₀ P.scopes fun busy c => Copied P φ h₀ busy c ∧ c.Linked h₀ := by
  apply (Copied.rule hP (fun _ hs => hs) fun _ hs => hP.child hs).along
  · intro c c' hl
    exact hl.of_same
  · intro busy c s t u v done rest hc hl hs hst huv hall hdone
    have hu : u ∈ (h₀.scope s).children := by simp [hall]
    -- The copy is not among those adopted so far, since each comes once.
    have hnodup : (done ++ u :: rest).Nodup := hall ▸ hf.nodup s
    have hnew : v ∉ (c.heap.scope t).children := by
      intro hmem
      obtain ⟨x, hx, hxv⟩ := forall₂_mem hdone.flip hmem
      obtain rfl : x = u := hc.scope_inj hxv huv
      exact (List.nodup_append.mp hnodup).2.2 x hx x List.mem_cons_self rfl
    exact hl.adopted hc hst huv hu (hl.unadopted hf hc hst huv hu hnew)

/-- The copy of a scope of a forest keeps everything linked. -/
theorem ScopeId.copy_linked (hP : P.Closed h₀) (hf : h₀.Forest) (hc : Copied P φ h₀ busy c)
    (hl : c.Linked h₀) (hs : P.scopes s) : (s.copy c).2.Linked h₀ := by
  have hmade := (Copied.linked_rule hP hf).copyScopeWithin (c.heap.scopes.size + 1) busy s c
    ⟨hc, hl⟩ hs (by
      have := Session.unseen_le_self c.session h₀.scopes.size
      have := hc.kept.scopes
      omega)
  exact hmade.inv.2

end

/-- All items and scopes of a heap, with some graphs and contexts. -/
def Region.whole (h : Heap) (G : SharedGraph → Prop) (C : Context → Prop) : Region where
  items i := i.index < h.items.size
  scopes s := s.index < h.scopes.size
  graphs := G
  contexts := C

namespace Heap

variable {h : Heap} {s : ScopeId}

theorem Sound.whole_closed (hs : h.Sound) {G : SharedGraph → Prop} {C : Context → Prop}
    (hG : ∀ g, G g → g.id.index < h.graphs ∧ ∀ i ∈ g.graph.held, i.index < h.items.size)
    (hGid : ∀ g g', G g → G g' → g.id = g'.id → g = g')
    (hC : ∀ c, C c → c.id.index < h.contexts ∧ c.PartsIn (.whole h G C))
    (hCid : ∀ c c', C c → C c' → c.id = c'.id → c = c') : (Region.whole h G C).Closed h where
  item := fun hi => hi
  scope := fun hs => hs
  sorted := fun _ => hs.sorted _
  bound := fun _ => hs.bound _
  child := fun _ => hs.child _
  graph := fun hg => (hG _ hg).1
  held := fun hg => (hG _ hg).2
  graph_id := hGid _ _
  context := hC _
  context_id := hCid _ _
  rooted := hs.rooted
  ranked := hs.ranked.imp fun _ hrank s _ => hrank s trivial

/-- All of a sound heap, without graphs and contexts, is a region. -/
theorem Sound.region (hs : h.Sound) :
    ∃ P : Region, P.Closed h ∧ (∀ {i}, i.index < h.items.size → P.items i) ∧
      ∀ {s}, s.index < h.scopes.size → P.scopes s :=
  ⟨.whole h (fun _ => False) fun _ => False, hs.whole_closed (fun _ => False.elim)
    (fun _ _ => False.elim) (fun _ => False.elim) fun _ _ => False.elim, id, id⟩

/-- Copying a scope in a session of its own leaves a forest. -/
theorem Forest.copyAlone (hf : h.Forest) (hs : s.index < h.scopes.size) :
    (h.copyAlone s.copy).2.Forest := by
  obtain ⟨P, hP, -, hscopes⟩ := hf.toSound.region
  have hstart : Copied P id h (fun _ => False) ⟨.empty, h⟩ := .start_empty hf.rooted
  obtain ⟨rank, hrank⟩ := hP.ranked
  have hcopied := (ScopeId.copy_copied hP hrank hstart (hscopes hs)).copied
  have hlinked := ScopeId.copy_linked hP hf hstart (hf.start .empty) (hscopes hs)
  exact ⟨hcopied.sound hP hf.toSound, hlinked.linked, hlinked.nodup⟩

end Heap

end ScopeFlow
