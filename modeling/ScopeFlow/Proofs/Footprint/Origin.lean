import ScopeFlow.Proofs.Footprint.Drain
import ScopeFlow.Proofs.Likeness.Views
import ScopeFlow.Proofs.Scope.Operations

/-!
# Heaps of one origin

Two heaps that have come from a third one match, with everything of the third
one paired with itself, on all places that neither of them has changed
(`HeapsMatch.of_origin`). If the same is done in both, the changes to what the
third one had are confined to what is written (`InStep.confined`).

Where two heaps match on a whole subtree, its views are the same
(`HeapsMatch.views`).
-/

namespace ScopeFlow

/-! ## Everything paired with itself -/

/-- Everything in a heap, each paired with itself. -/
def Heap.identity (h : Heap) : Pairing where
  items i j := i = j ∧ i.index < h.items.size
  scopes s t := s = t ∧ s.index < h.scopes.size

theorem Heap.identity_places {h : Heap} {x y : Place} :
    h.identity.Places x y ↔ x = y ∧ h.Has x := by
  constructor
  · intro hxy
    cases hxy with
    | binding hst name => exact ⟨congrArg (Place.binding · name) hst.1, hst.2⟩
    | item hij => exact ⟨congrArg Place.item hij.1, hij.2⟩
    | children hst => exact ⟨congrArg Place.children hst.1, hst.2⟩
  · rintro ⟨rfl, hx⟩
    cases x with
    | binding s name => exact .binding (ρ := h.identity) ⟨rfl, hx⟩ name
    | item i => exact .item (ρ := h.identity) ⟨rfl, hx⟩
    | children s => exact .children (ρ := h.identity) ⟨rfl, hx⟩

theorem Context.moved_self {c : Context} {h : Heap} (hg : c.graph.UsableIn h) (hc : c.Within h) :
    c.Moved h.identity c := by
  induction c with
  | root id g s =>
      refine ⟨rfl, hg.builtIn, fun i hi => ⟨rfl, hg.held i hi⟩, rfl, hc s ?_⟩
      exact List.mem_singleton_self s
  | frame id op s trail parent ih =>
      refine ⟨rfl, rfl, ⟨rfl, hc s (scope_mem_scopeChain _)⟩, ih hg fun t ht => hc t ?_⟩
      rw [scopeChain]
      split
      · exact ht
      · exact List.mem_cons_of_mem _ ht

namespace Operation

variable {ρ : Renaming}

mutual

theorem alike_self : ∀ op : Operation, (∀ c ∈ op.contexts, ρ.contexts c c) → op.Alike ρ op
  | .atomic ctx, h => .atomic (h ctx (List.mem_singleton_self ctx))
  | .sequence ops, h => .sequence (all_alike_self ops h)
  | .parallel ops, h => .parallel (all_alike_self ops h)

theorem all_alike_self : ∀ ops : List Operation,
    (∀ c ∈ contextsOfAll ops, ρ.contexts c c) → AllAlike ρ ops ops
  | [], _ => .nil
  | op :: ops, h => .cons (alike_self op fun c hc => h c (List.mem_append_left _ hc))
      (all_alike_self ops fun c hc => h c (List.mem_append_right _ hc))

end

end Operation

/-! ## Two heaps from one -/

/-- Of what is there already, only what is there can change. -/
theorem Heap.KeepsBut.narrow {V V' : Set Place} {h k : Heap} (hk : h.KeepsBut V k)
    (hV : ∀ x ∈ V, h.Has x → x ∈ V') : h.KeepsBut V' k :=
  { hk with content := fun hx hno => hk.content hx fun hmem => hno (hV _ hmem hx) }

namespace HeapsMatch

variable {T T' T'' V V' : Set Place} {ρ σ : Pairing} {h h' k k' : Heap}

/-- What it takes for heaps to match, all places being treated alike. -/
theorem of_places (hhas : ∀ {x y}, ρ.Places x y → h.Has x ∧ k.Has y)
    (hiff : ∀ {x y x' y'}, ρ.Places x y → ρ.Places x' y' → (x = x' ↔ y = y'))
    (hname : ∀ {s t}, ρ.scopes s t → (h.scope s).name = (k.scope t).name)
    (hcontent : ∀ {x y}, ρ.Places x y → x ∈ T → (h.content x).Alike ρ (k.content y))
    (hunmade : ∀ {x}, ¬ h.Has x → x ∈ T) : HeapsMatch T ρ h k where
  item := fun hij => hhas (.item hij)
  item_iff := fun hij hij' => by simpa using hiff (.item hij) (.item hij')
  scope := fun hst => ⟨(hhas (.children hst)).1, (hhas (.children hst)).2, hname hst⟩
  scope_iff := fun hst hst' => by simpa using hiff (.children hst) (.children hst')
  content := hcontent
  unmade := hunmade

/-- A sound heap matches itself. -/
theorem self (hs : h.Sound) : HeapsMatch Set.univ h.identity h h := by
  refine .of_places (fun hxy => ?_) (fun hxy hxy' => ?_) ?_ (fun {x y} hxy _ => ?_) fun _ => trivial
  · obtain ⟨rfl, hhas⟩ := Heap.identity_places.mp hxy
    exact ⟨hhas, hhas⟩
  · rw [(Heap.identity_places.mp hxy).1, (Heap.identity_places.mp hxy').1]
  · rintro s t ⟨rfl, -⟩
    rfl
  · obtain ⟨rfl, -⟩ := Heap.identity_places.mp hxy
    cases x with
    | binding s name =>
        refine .bound ?_
        cases hbound : h.binding? s name with
        | none => exact .none
        | some i => exact .some ⟨rfl, hs.bound s _ ((hs.binding?_iff s name i).mp hbound)⟩
    | item i => exact .value _
    | children s => exact .listed (List.forall₂_same.mpr fun c hc => ⟨rfl, hs.child s c hc⟩)

/-- Heaps that match do so later on, as far as neither of them has changed. -/
theorem onward (hm : HeapsMatch T ρ h k) (hh : h.KeepsBut V h') (hk : k.KeepsBut V' k')
    (hT : ∀ {x y}, ρ.Places x y → x ∈ T' → x ∈ T ∧ x ∉ V ∧ y ∉ V')
    (hunmade : ∀ {x}, ¬ h'.Has x → x ∈ T') : HeapsMatch T' ρ h' k' := by
  refine .of_places (fun hxy => ?_) hm.places_iff (fun hst => ?_) (fun hxy hx => ?_) hunmade
  · exact ⟨hh.has (hm.has hxy).1, hk.has (hm.has hxy).2⟩
  · obtain ⟨hs, ht, hname⟩ := hm.scope hst
    rw [hh.name hs, hk.name ht, hname]
  · obtain ⟨hx, hV, hV'⟩ := hT hxy hx
    rw [hh.content (hm.has hxy).1 hV, hk.content (hm.has hxy).2 hV']
    exact hm.content hxy hx

/-- Heaps of one origin match on what neither of them has changed. -/
theorem of_origin {h₀ : Heap} (hs : h₀.Sound) (hh : h₀.KeepsBut V h) (hk : h₀.KeepsBut V' k)
    (hT : ∀ x ∈ T, h₀.Has x → x ∉ V ∧ x ∉ V') (hunmade : ∀ x, ¬ h.Has x → x ∈ T) :
    HeapsMatch T h₀.identity h k := by
  refine (HeapsMatch.self hs).onward hh hk (fun hxy hx => ?_) fun hno => hunmade _ hno
  obtain ⟨rfl, hhas⟩ := Heap.identity_places.mp hxy
  exact ⟨trivial, hT _ hx hhas⟩

/-- Heaps that match by each of two pairings do so by both together, if these
pair nothing with different things. -/
theorem join (hm : HeapsMatch T ρ h k) (hm' : HeapsMatch T' σ h k)
    (hcross : ∀ {x y x' y'}, ρ.Places x y → σ.Places x' y' → (x = x' ↔ y = y'))
    (hT : ∀ {x y}, (ρ.join σ).Places x y → x ∈ T'' →
      ρ.Places x y ∧ x ∈ T ∨ σ.Places x y ∧ x ∈ T')
    (hunmade : ∀ {x}, ¬ h.Has x → x ∈ T'') : HeapsMatch T'' (ρ.join σ) h k := by
  refine .of_places (fun hxy => ?_) (fun {x y x' y'} hxy hxy' => ?_) ?_ (fun hxy hx => ?_) hunmade
  · exact (Pairing.join_places.mp hxy).elim hm.has hm'.has
  · rcases Pairing.join_places.mp hxy with hxy | hxy
    · exact (Pairing.join_places.mp hxy').elim (hm.places_iff hxy) (hcross hxy)
    · refine (Pairing.join_places.mp hxy').elim (fun hxy' => ?_) (hm'.places_iff hxy)
      rw [eq_comm, eq_comm (b := y')]
      exact hcross hxy' hxy
  · rintro s t (hst | hst)
    · exact (hm.scope hst).2.2
    · exact (hm'.scope hst).2.2
  · rcases hT hxy hx with ⟨hxy, hx⟩ | ⟨hxy, hx⟩
    · exact (hm.content hxy hx).mono Pairing.within_join_left
    · exact (hm'.content hxy hx).mono Pairing.within_join_right

end HeapsMatch

namespace InStep

variable {T W : Set Place} {ρ ρ' : Pairing} {h₀ h h' k k' : Heap} {x y : Place}

/-- What is paired anew is new on both sides. -/
theorem places (hs : InStep T W ρ ρ' h h' k k') (hxy : ρ'.Places x y) :
    ρ.Places x y ∨ ¬ h.Has x ∧ ¬ k.Has y := by
  cases hxy with
  | binding hst name =>
      exact (hs.scope hst).imp (.binding · name) fun hnew =>
        ⟨Nat.not_lt.mpr hnew.1, Nat.not_lt.mpr hnew.2⟩
  | item hij =>
      exact (hs.item hij).imp .item fun hnew => ⟨Nat.not_lt.mpr hnew.1, Nat.not_lt.mpr hnew.2⟩
  | children hst =>
      exact (hs.scope hst).imp .children fun hnew =>
        ⟨Nat.not_lt.mpr hnew.1, Nat.not_lt.mpr hnew.2⟩

/-- Of what was there, only what stems from the origin has changed, and only
what is written. -/
theorem confined (hs : InStep T W h₀.identity ρ h h' k k') :
    k.KeepsBut {x | h₀.Has x ∧ x ∈ W} k' := by
  refine hs.keeps.narrow ?_
  rintro y ⟨x, hx, hxy⟩ hy
  rcases hs.places hxy with hold | ⟨-, hno⟩
  · obtain ⟨rfl, hhas⟩ := Heap.identity_places.mp hold
    exact ⟨hhas, hx⟩
  · exact absurd hy hno

end InStep

/-- Drains that have come on from `p` to `p'`, changing at most some places of
what there was. -/
structure Progress.KeepsBut (V : Set Place) (p p' : Progress) : Prop where
  heap : p.world.heap.KeepsBut V p'.world.heap
  forest : p'.world.heap.Forest
  requests : p.world.SameRequests p'.world
  fault : p'.fault = p.fault

namespace Progress.KeepsBut

variable {T V V' : Set Place} {p p' p'' q : Progress}

theorem refl (hf : p.world.heap.Forest) : p.KeepsBut V p := ⟨.refl, hf, .refl, rfl⟩

theorem trans (h : p.KeepsBut V p') (h' : p'.KeepsBut V p'') : p.KeepsBut V p'' :=
  ⟨h.heap.trans h'.heap, h'.forest, h.requests.trans h'.requests, h'.fault.trans h.fault⟩

theorem narrow (h : p.KeepsBut V p') (hV : ∀ x ∈ V, p.world.heap.Has x → x ∈ V') :
    p.KeepsBut V' p' :=
  { h with heap := h.heap.narrow hV }

/-- Of what there was at the beginning, only what is written has changed. -/
theorem of_inStep {W : Set Place} {ρ : Pairing} {b b' q' : Progress}
    (h : InStep T W p.world.heap.identity ρ b b' q q') :
    q.KeepsBut {x | p.world.heap.Has x ∧ x ∈ W} q' :=
  ⟨h.heap.confined, h.matched.forest', h.requests, h.fault⟩

end Progress.KeepsBut

theorem Progress.Matched.of_origin {T V V' : Set Place} {p p' q : Progress}
    (hf : p.world.heap.Forest) (h : p.KeepsBut V p') (h' : p.KeepsBut V' q)
    (hT : ∀ x ∈ T, p.world.heap.Has x → x ∉ V ∧ x ∉ V')
    (hunmade : ∀ x, ¬ p'.world.heap.Has x → x ∈ T) :
    p'.Matched T p.world.heap.identity q where
  heap := HeapsMatch.of_origin hf.toSound h.heap h'.heap hT hunmade
  forest := h.forest
  forest' := h'.forest
  requests := ⟨h'.requests.tokens.trans h.requests.tokens.symm,
    h'.requests.controls.trans h.requests.controls.symm⟩
  fault := h'.fault.trans h.fault.symm

/-! ## Views -/

/-- Two forests that match on all that is below a scope show the same there. -/
theorem HeapsMatch.views {T : Set Place} {ρ : Pairing} {h k : Heap} {s t : ScopeId}
    (hm : HeapsMatch T ρ h k) (hf : h.Forest) (hf' : k.Forest) (hT : h.contents s ⊆ T)
    (hst : ρ.scopes s t) : h.snapshot s = k.snapshot t ∧ h.sharing s = k.sharing t := by
  have hagree := hm.subtree hf hf' hT
  have hbelow : (HeapsMatch.below ρ h k s).scopes s t := ⟨hst, .self⟩
  exact ⟨hagree.snapshot_eq hbelow, hagree.sharing_eq hbelow⟩

end ScopeFlow
