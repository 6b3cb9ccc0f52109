import ScopeFlow.Proofs.Scope.Operations

/-!
# Sessions used again

One session may serve several copyings of scopes, with anything done to
originals and copies in between (`Session.InUse`). A further copying makes new
copies down to where the session has some already, and adopts those as they
are. `Copying.Considerate` says that this takes nothing from where it has been
attached meanwhile; it is so exactly if all that is fetched is detached
(`Session.InUse.copy_considerate`), since nothing asks whether it is.
-/

namespace ScopeFlow

/-! ## Histories of sessions -/

/-- Going on with a session in a world. -/
def World.within (w : World) (σ : Session) : Copying := ⟨σ, w.heap⟩

/-- The worlds and sessions that copying scopes within one session leads to,
with any operations on originals and copies in between. -/
inductive Session.InUse : World → Session → Prop
  | start {w : World} (hw : w.Built) : InUse w .empty
  | operate {w : World} {σ : Session} (hu : InUse w σ) (op : ScopeOp) (hop : op.ValidIn w.heap) :
      InUse (op.run w).2 σ
  | copy {w : World} {σ : Session} (hu : InUse w σ) {s : ScopeId}
      (hs : s.index < w.heap.scopes.size) :
      InUse { w with heap := (s.copy (w.within σ)).2.heap } (s.copy (w.within σ)).2.session
  /-- Whatever else is done in between, with the session or without, leaves
  scopes and copies of scopes alone. -/
  | aside {w w' : World} {σ σ' : Session} (hu : InUse w σ)
      (hscopes : w'.heap.scopes = w.heap.scopes) (hcopies : σ'.scopes = σ.scopes)
      (hitems : w.heap.items.size ≤ w'.heap.items.size)
      (hitem : ∀ {i j}, σ'.itemTo i j → j.index < w'.heap.items.size) : InUse w' σ'

theorem Copying.Fits.carried {σ : Session} {h h' : Heap} (hfits : Copying.Fits ⟨σ, h⟩)
    (hh : h.Carries h') : Copying.Fits ⟨σ, h'⟩ where
  item := fun hij => Nat.lt_of_lt_of_le (hfits.item hij) hh.items
  scope := fun hst => Nat.lt_of_lt_of_le (hfits.scope hst) hh.scopes
  scope_inj := hfits.scope_inj

theorem Session.InUse.fits {w : World} {σ : Session} (hu : InUse w σ) :
    w.heap.Complete ∧ (w.within σ).Fits := by
  induction hu with
  | start hw => exact ⟨hw.forest.toSound.complete, .empty _⟩
  | operate _ op hop ih =>
      obtain ⟨hh, hfits⟩ := ih
      have hcarries := op.run_carries hh hop
      exact ⟨hcarries.complete, hfits.carried hcarries⟩
  | copy _ hs ih =>
      obtain ⟨hh, hfits⟩ := ih
      obtain ⟨hresumed, -, -⟩ := ScopeId.copy_resumed hh hfits hs
      exact ⟨(hresumed.carries hh).complete, hresumed.fits⟩
  | @aside w w' σ σ' _ hscopes hcopies hitems hitem ih =>
      obtain ⟨hh, hfits⟩ := ih
      have hcarries := hh.of_scopes hscopes hitems
      have hsame := Session.scopeTo_congr hcopies
      refine ⟨hcarries.complete, hitem, ?_, ?_⟩
      · show ∀ {s t}, σ'.scopeTo s t → _
        rw [hsame]
        exact (hfits.carried hcarries).scope
      · show ∀ {s s' t}, σ'.scopeTo s t → σ'.scopeTo s' t → _
        rw [hsame]
        exact hfits.scope_inj

/-! ## Further copies -/

/-- No scope is its parent, and none lists it. -/
def Heap.Detached (h : Heap) (t : ScopeId) : Prop :=
  (h.scope t).parent = none ∧ ∀ p, t ∉ (h.scope p).children

/-- A copying that takes nothing from where it has been attached. -/
structure Copying.Considerate (c c' : Copying) : Prop where
  /-- No list of sub-scopes changes. -/
  lists : ∀ t : ScopeId, t.index < c.heap.scopes.size →
    (c'.heap.scope t).children = (c.heap.scope t).children
  /-- A parent link changes only if it is that of a copy made earlier which is
  detached still. -/
  links : ∀ t : ScopeId, t.index < c.heap.scopes.size →
    (c'.heap.scope t).parent ≠ (c.heap.scope t).parent →
      (∃ s, c.session.scopeTo s t) ∧ c.heap.Detached t
  /-- A copy made earlier that has been attached keeps its parent, and gets
  into no other list. -/
  kept : ∀ s t p, c.session.scopeTo s t → (c.heap.scope t).parent = some p →
    (c'.heap.scope t).parent = some p ∧
      ∀ q, t ∈ (c'.heap.scope q).children → t ∈ (c.heap.scope q).children

namespace Resumed

variable {c c' : Copying} {s t y : ScopeId}

/-- What is not fetched keeps its parent, and gets into no list. -/
theorem unfetched (h : Resumed c s (fun _ => False) c') (hfits : c.Fits)
    (hy : y.index < c.heap.scopes.size) (hno : ¬ c.Fetches s y) :
    (c'.heap.scope y).parent = (c.heap.scope y).parent ∧
      ∀ q, y ∈ (c'.heap.scope q).children → y ∈ (c.heap.scope q).children := by
  constructor
  · rcases h.ties y with ⟨hsame, -⟩ | ⟨t, ht, hmem, -⟩
    · exact hsame
    · exact absurd (h.listed hfits ht hmem hy) hno
  · intro q hmem
    by_cases hq : q.index < c.heap.scopes.size
    · rw [(h.later.content hq id).children]
      exact hmem
    · exact absurd (h.listed hfits (Nat.not_lt.mp hq) hmem hy) hno

/-- Copying is considerate exactly if all that it fetches is detached. -/
theorem considerate_iff (h : Resumed c s (fun _ => False) c') (hst : c'.session.scopeTo s t)
    (hheap : c.heap.Complete) (hfits : c.Fits) :
    c.Considerate c' ↔ ∀ v, c.Fetches s v → c.heap.Detached v := by
  have hthere : ∀ {v}, c.Fetches s v → v.index < c.heap.scopes.size :=
    fun ⟨_, _, _, _, huv⟩ => hfits.scope huv
  constructor
  · intro hc v hv
    obtain ⟨p, hp, -, hparent⟩ := h.adopted hst hv
    -- Its parent is one that was not there before.
    refine (hc.links v (hthere hv) fun hsame => ?_).2
    have := hheap.rooted v p (hsame.symm.trans hparent)
    omega
  · intro hdetached
    refine ⟨fun t ht => (h.later.content ht id).children.symm, fun t ht hchanged => ?_, ?_⟩
    · have hv : c.Fetches s t := by
        by_contra hno
        exact hchanged (h.unfetched hfits ht hno).1
      refine ⟨?_, hdetached t hv⟩
      obtain ⟨-, u, -, -, hut⟩ := hv
      exact ⟨u, hut⟩
    · intro u t p hut hparent
      have hno : ¬ c.Fetches s t := by
        intro hv
        rw [(hdetached t hv).1] at hparent
        cases hparent
      rw [← hparent]
      exact h.unfetched hfits (hfits.scope hut) hno

end Resumed

/-- A further copying of a scope in a session, whatever has been done before,
takes nothing from where it has been attached, exactly if all that it fetches
is detached. What it fetches gets a scope made since as its parent, which lists
it, and stays in all lists in which it was. -/
theorem Session.InUse.copy_considerate {w : World} {σ : Session} {s : ScopeId} (hu : σ.InUse w)
    (hs : s.index < w.heap.scopes.size) :
    ((w.within σ).Considerate (s.copy (w.within σ)).2 ↔
      ∀ v, (w.within σ).Fetches s v → w.heap.Detached v) ∧
    (∀ t : ScopeId, t.index < w.heap.scopes.size →
      ((s.copy (w.within σ)).2.heap.scope t).children = (w.heap.scope t).children) ∧
    ∀ v, (w.within σ).Fetches s v → ∃ t : ScopeId, w.heap.scopes.size ≤ t.index ∧
      v ∈ ((s.copy (w.within σ)).2.heap.scope t).children ∧
      ((s.copy (w.within σ)).2.heap.scope v).parent = some t := by
  obtain ⟨hheap, hfits⟩ := hu.fits
  obtain ⟨hresumed, hlater, hfound⟩ := ScopeId.copy_resumed hheap hfits hs
  refine ⟨hresumed.considerate_iff hfound hheap hfits, fun t ht => ?_, fun v hv => ?_⟩
  · exact (hlater.content ht id).children.symm
  · exact hresumed.adopted hfound hv

namespace Sample

/-- A scope in another, and one beside them. -/
def family : World :=
  ((ScopeOp.append ⟨0⟩ ⟨1⟩).run ((ScopeOp.create "Other").run ((ScopeOp.create "Child").run
    ((ScopeOp.create "Parent").run .empty).2).2).2).2

/-- The inner scope has been copied, by a session that goes on. -/
def childCopied : Copying := (ScopeId.copy ⟨1⟩ (family.within .empty)).2

/-- The copy has been attached to the scope beside. -/
def rehomed : World := ((ScopeOp.append ⟨2⟩ ⟨3⟩).run { family with heap := childCopied.heap }).2

theorem childCopied_inUse :
    childCopied.session.InUse { family with heap := childCopied.heap } := by
  have hempty : World.empty.Built := .start rfl
  have hscopes := ((hempty.step (.create "Parent") ⟨nofun, nofun⟩).step (.create "Child")
    ⟨nofun, nofun⟩).step (.create "Other") ⟨nofun, nofun⟩
  have hfamily : family.Built := hscopes.step (.append ⟨0⟩ ⟨1⟩) ⟨by decide, nofun⟩
  exact .copy (.start hfamily) (by decide)

theorem rehomed_inUse : childCopied.session.InUse rehomed :=
  childCopied_inUse.operate (.append ⟨2⟩ ⟨3⟩) ⟨by decide, nofun⟩

/-- The outer scope is copied while the copy of the inner one is detached. -/
theorem copy_considerate_childCopied :
    childCopied.Considerate (ScopeId.copy ⟨0⟩ childCopied).2 := by
  have hcopy := Session.InUse.copy_considerate (s := ⟨0⟩) childCopied_inUse (by decide)
  have hchildren : (childCopied.heap.scope ⟨0⟩).children = [⟨1⟩] := by decide
  have hinner : childCopied.session.scopeTo ⟨1⟩ ⟨3⟩ := rfl
  apply hcopy.1.mpr
  rintro v ⟨q, u, hq, hu, huv⟩
  -- Only the outer scope is copied anew, so the one copy fetched is that of the inner one.
  have houter : q = ⟨0⟩ := by
    clear hu huv
    induction hq with
    | top => rfl
    | @child p q _ hmem hno ih =>
        subst ih
        change q ∈ (childCopied.heap.scope ⟨0⟩).children at hmem
        rw [hchildren, List.mem_singleton] at hmem
        subst hmem
        exact absurd (hno.symm.trans hinner) nofun
  subst houter
  change u ∈ (childCopied.heap.scope ⟨0⟩).children at hu
  rw [hchildren, List.mem_singleton] at hu
  subst hu
  obtain rfl : ⟨3⟩ = v := Option.some.inj (hinner.symm.trans huv)
  refine ⟨by decide, fun p hp => ?_⟩
  have hlt : p.index < 4 := Heap.lt_of_child hp
  revert hp
  have hnone : ∀ n : Fin 4, (⟨3⟩ : ScopeId) ∉ (childCopied.heap.scope ⟨n⟩).children := by decide
  exact hnone ⟨p.index, hlt⟩

/-- The outer scope is copied after the copy of the inner one has been attached
to the scope beside: that one loses it, and lists it still. -/
theorem copy_steals : childCopied.session.InUse rehomed ∧
    (rehomed.heap.scope ⟨3⟩).parent = some ⟨2⟩ ∧
    ((ScopeId.copy ⟨0⟩ (rehomed.within childCopied.session)).2.heap.scope ⟨3⟩).parent =
      some ⟨4⟩ ∧
    ((ScopeId.copy ⟨0⟩ (rehomed.within childCopied.session)).2.heap.scope ⟨2⟩).children = [⟨3⟩] ∧
    ((ScopeId.copy ⟨0⟩ (rehomed.within childCopied.session)).2.heap.scope ⟨4⟩).children = [⟨3⟩] ∧
    ¬ (rehomed.within childCopied.session).Considerate
      (ScopeId.copy ⟨0⟩ (rehomed.within childCopied.session)).2 := by
  refine ⟨rehomed_inUse, by decide, by decide, by decide, by decide, fun hc => ?_⟩
  have hkept := (hc.kept ⟨1⟩ ⟨3⟩ ⟨2⟩ rfl (by decide)).1
  revert hkept
  decide

end Sample

end ScopeFlow
