import ScopeFlow.Proofs.Clone.Scopes
import ScopeFlow.Proofs.Scope.Complete

/-!
# Copies in sessions that go on

A session may be used again after what it has copied, and what it has copied
to, has been changed, attached and detached. The heap it starts from then
need not be a forest, and scopes that are there already are attached anew:
`Resumed` is the invariant of copying a scope in a session that goes on.

What is copied anew is found by going down from the scope, up to scopes that
have been copied before (`Copying.Anew`). The copies of those are fetched from
the session (`Copying.Fetches`) and adopted in whatever state they are, and
nothing else that was there changes (`Resumed.adopted`, `Resumed.listed`).
-/

namespace ScopeFlow

namespace Copying

/-- What a session has copied to is there, and different scopes have been
copied to different ones. -/
structure Fits (c : Copying) : Prop where
  item : ∀ {i j}, c.session.itemTo i j → j.index < c.heap.items.size
  scope : ∀ {s t}, c.session.scopeTo s t → t.index < c.heap.scopes.size
  scope_inj : ∀ {s s' t}, c.session.scopeTo s t → c.session.scopeTo s' t → s = s'

/-- The scopes that copying a scope makes copies of: those that have none, from
it downwards. -/
inductive Anew (c : Copying) (s : ScopeId) : ScopeId → Prop
  | top (hno : c.session.scopes.lookup s = none) : c.Anew s s
  | child {q u : ScopeId} (hq : c.Anew s q) (hu : u ∈ (c.heap.scope q).children)
      (hno : c.session.scopes.lookup u = none) : c.Anew s u

/-- The copies made earlier that copying a scope comes across: those of
sub-scopes of what is copied anew. -/
def Fetches (c : Copying) (s v : ScopeId) : Prop :=
  ∃ q u, c.Anew s q ∧ u ∈ (c.heap.scope q).children ∧ c.session.scopeTo u v

end Copying

/-- Each scope has the parent that it had and is listed by none made since, or
one made since lists it and is its parent. -/
def Heap.Adopts (h h' : Heap) : Prop :=
  ∀ y, ((h'.scope y).parent = (h.scope y).parent ∧
      ∀ t : ScopeId, h.scopes.size ≤ t.index → y ∉ (h'.scope t).children) ∨
    ∃ t : ScopeId, h.scopes.size ≤ t.index ∧ y ∈ (h'.scope t).children ∧
      (h'.scope y).parent = some t

namespace Heap.Adopts

variable {h h' h'' : Heap}

theorem start : h.Adopts h := by
  refine fun y => .inl ⟨rfl, fun t ht hy => ?_⟩
  have := lt_of_child hy
  omega

/-- A step that leaves sub-scopes and parents alone. -/
theorem of_same (ha : h.Adopts h') (hchildren : ∀ x, (h''.scope x).children = (h'.scope x).children)
    (hparent : ∀ x, (h''.scope x).parent = (h'.scope x).parent) : h.Adopts h'' := by
  intro y
  rw [hparent]
  simpa only [hchildren] using ha y

/-- One made since may adopt any scope. -/
theorem adopt {c : Copying} {t v : ScopeId} (ha : h.Adopts c.heap) (hnew : h.scopes.size ≤ t.index)
    (ht : t.index < c.heap.scopes.size) (hv : v.index < c.heap.scopes.size) :
    h.Adopts (adopt t v c).2.heap := by
  have hscope := adopt_scope ht hv
  have hlist : ∀ x, ((ScopeFlow.adopt t v c).2.heap.scope x).children =
      if x = t then (c.heap.scope t).children ++ [v] else (c.heap.scope x).children := by
    intro x
    rw [hscope]
  intro y
  have hparent : ((ScopeFlow.adopt t v c).2.heap.scope y).parent =
      if y = v then some t else (c.heap.scope y).parent := by
    rw [hscope]
  rw [hparent]
  by_cases hy : y = v
  · subst hy
    refine .inr ⟨t, hnew, ?_, if_pos rfl⟩
    rw [hlist, if_pos rfl]
    exact List.mem_append_right _ List.mem_cons_self
  · rw [if_neg hy]
    have hmem : ∀ x, y ∈ ((ScopeFlow.adopt t v c).2.heap.scope x).children ↔
        y ∈ (c.heap.scope x).children := by
      intro x
      rw [hlist]
      by_cases hx : x = t
      · subst hx
        rw [if_pos rfl, List.mem_append, List.mem_singleton, or_iff_left hy]
      · rw [if_neg hx]
    simpa only [hmem] using ha y

end Heap.Adopts

/-- The invariant of copying the scope `s₀` in a session that has copied
before; `c₀` is what it starts from. -/
structure Resumed (c₀ : Copying) (s₀ : ScopeId) (busy : ScopeId → Prop) (c : Copying) : Prop where
  fits : c.Fits
  later : c₀.Later (fun _ => False) c
  items : c₀.heap.items.size ≤ c.heap.items.size
  made : ∀ {q t}, c.session.scopeTo q t →
    c₀.session.scopeTo q t ∨ c₀.Anew s₀ q ∧ c₀.heap.scopes.size ≤ t.index
  origin : ∀ {t : ScopeId}, c₀.heap.scopes.size ≤ t.index → t.index < c.heap.scopes.size →
    ∃ q, c.session.scopeTo q t
  fresh : ∀ {q t}, busy q → c.session.scopeTo q t → c₀.heap.scopes.size ≤ t.index
  content : ∀ {q t}, c.session.scopeTo q t → c₀.heap.scopes.size ≤ t.index → ¬ busy q →
    (c₀.heap.scope q).CopiedTo c.session (c.heap.scope t)
  ties : c₀.heap.Adopts c.heap

section

variable {c₀ c c' : Copying} {s₀ s t : ScopeId} {busy : ScopeId → Prop}

namespace Resumed

/-- The invariant holds before anything is copied. -/
theorem start (hfits : c₀.Fits) : Resumed c₀ s₀ (fun _ => False) c₀ where
  fits := hfits
  later := .refl
  items := Nat.le_refl _
  made := .inl
  origin := fun hle hlt => absurd hlt (Nat.not_lt.mpr hle)
  fresh := False.elim
  content := fun hst hle _ => absurd (hfits.scope hst) (Nat.not_lt.mpr hle)
  ties := .start

/-- Steps that work on the copy of a busy scope. -/
theorem step (h : Resumed c₀ s₀ busy c) (hst : c.session.scopeTo s t) (hbusy : busy s)
    (hl : c.Later (· = t) c') (hsession : c'.session.scopes = c.session.scopes)
    (hsize : c'.heap.scopes.size = c.heap.scopes.size)
    (hitems : c.heap.items.size ≤ c'.heap.items.size)
    (hitem : ∀ {i j}, c'.session.itemTo i j → j.index < c'.heap.items.size)
    (hties : c₀.heap.Adopts c'.heap) : Resumed c₀ s₀ busy c' := by
  have hscopes := Session.scopeTo_congr hsession
  refine ⟨⟨hitem, ?_, ?_⟩, ?_, Nat.le_trans h.items hitems, ?_, ?_, ?_, ?_, hties⟩
  · rw [hscopes, hsize]
    exact h.fits.scope
  · rw [hscopes]
    exact h.fits.scope_inj
  · refine h.later.trans hl ?_
    rintro u hu rfl
    have := h.fresh hbusy hst
    omega
  · rw [hscopes]
    exact h.made
  · rw [hscopes, hsize]
    exact h.origin
  · rw [hscopes]
    exact h.fresh
  · intro q v hqv hle hno
    rw [hscopes] at hqv
    -- The scope that changes is the copy of a busy one, and of no other.
    have hne : v ≠ t := by
      rintro rfl
      exact hno (h.fits.scope_inj hqv hst ▸ hbusy)
    exact hl.copiedTo ((h.content hqv hle hno).congr (hl.content (h.fits.scope hqv) hne))

theorem register (h : Resumed c₀ s₀ busy c) (hs : c₀.Anew s₀ s)
    (hno : c.session.scopes.lookup s = none) (name : String) :
    Resumed c₀ s₀ (fun u => u = s ∨ busy u) (c.register s name) := by
  obtain ⟨hlater, hto⟩ := register_later hno name
  have hsize : (c.register s name).heap.scopes.size = c.heap.scopes.size + 1 := by
    simp [Copying.register, Heap.newScope]
  -- What was there has kept its number below the new one.
  have hold : ∀ {q v}, (c.register s name).session.scopeTo q v →
      q = s ∧ v = ⟨c.heap.scopes.size⟩ ∨ c.session.scopeTo q v ∧ v.index < c.heap.scopes.size := by
    intro q v hqv
    rcases lookup_cons_iff.mp hqv with ⟨hq, hv⟩ | ⟨-, hqv⟩
    · exact .inl ⟨hq, hv.symm⟩
    · exact .inr ⟨hqv, h.fits.scope hqv⟩
  refine ⟨⟨h.fits.item, ?_, ?_⟩, ?_, h.items, ?_, ?_, ?_, ?_, ?_⟩
  · intro q v hqv
    rw [hsize]
    rcases hold hqv with ⟨-, rfl⟩ | ⟨-, hlt⟩
    · exact Nat.lt_succ_self _
    · omega
  · intro q q' v hqv hqv'
    rcases hold hqv with ⟨rfl, rfl⟩ | ⟨hqv, hlt⟩
    · rcases hold hqv' with ⟨rfl, -⟩ | ⟨-, hlt⟩
      · rfl
      · exact absurd hlt (Nat.lt_irrefl _)
    · rcases hold hqv' with ⟨-, rfl⟩ | ⟨hqv', -⟩
      · exact absurd hlt (Nat.lt_irrefl _)
      · exact h.fits.scope_inj hqv hqv'
  · exact h.later.trans hlater fun _ _ => False.elim
  · intro q v hqv
    rcases hold hqv with ⟨rfl, rfl⟩ | ⟨hqv, -⟩
    · exact .inr ⟨hs, h.later.size⟩
    · exact h.made hqv
  · intro v hle hlt
    by_cases hv : v.index < c.heap.scopes.size
    · exact (h.origin hle hv).imp fun _ => hlater.scope
    · have hv' : v = ⟨c.heap.scopes.size⟩ := congrArg ScopeId.mk (by omega)
      exact ⟨s, hv' ▸ hto⟩
  · intro q v hq hqv
    rcases hold hqv with ⟨-, rfl⟩ | ⟨hqv', -⟩
    · exact h.later.size
    · rcases hq with rfl | hq
      · rw [Session.scopeTo, hno] at hqv'
        cases hqv'
      · exact h.fresh hq hqv'
  · intro q v hqv hle hidle
    rcases hold hqv with ⟨rfl, -⟩ | ⟨hqv, hlt⟩
    · exact absurd (.inl rfl) hidle
    · exact hlater.copiedTo ((h.content hqv hle fun hb => hidle (.inr hb)).congr
        (hlater.content hlt id))
  · have hshape := register_shape c s name
    exact h.ties.of_same (fun x => (hshape x).1) fun x => (hshape x).2

/-- What has not been copied by now had not been copied before. -/
theorem uncopied (h : Resumed c₀ s₀ busy c) (hno : c.session.scopes.lookup s = none) :
    c₀.session.scopes.lookup s = none := by
  by_contra hsome
  obtain ⟨t, ht⟩ := Option.ne_none_iff_exists'.mp hsome
  have ht' : c.session.scopes.lookup s = some t := h.later.scope ht
  rw [hno] at ht'
  cases ht'

/-- A scope is busy no longer once its copy has all that it has. -/
theorem finish (h : Resumed c₀ s₀ (fun u => u = s ∨ busy u) c) (hst : c.session.scopeTo s t)
    (hcopied : (c₀.heap.scope s).CopiedTo c.session (c.heap.scope t)) :
    Resumed c₀ s₀ busy c :=
  { h with
    fresh := fun hq => h.fresh (.inr hq)
    content := by
      intro q v hqv hle hno
      by_cases hq : q = s
      · subst hq
        obtain rfl : t = v := Option.some.inj (hst.symm.trans hqv)
        exact hcopied
      · exact h.content hqv hle fun hb => hb.elim hq hno }

end Resumed

/-! ## Variables -/

theorem ItemId.copy_items (i : ItemId)
    (hitem : ∀ {i j}, c.session.itemTo i j → j.index < c.heap.items.size) :
    c.heap.items.size ≤ (i.copy c).2.heap.items.size ∧
      ∀ {i' j}, (i.copy c).2.session.itemTo i' j → j.index < (i.copy c).2.heap.items.size := by
  cases hfound : c.session.items.lookup i with
  | some j =>
      rw [copy_found hfound]
      exact ⟨Nat.le_refl _, hitem⟩
  | none =>
      have hsize : (i.copy c).2.heap.items.size = c.heap.items.size + 1 := by
        rw [copy_fresh hfound]
        simp [Heap.newItem]
      refine ⟨by omega, fun {i' j} hij => ?_⟩
      rw [hsize]
      rw [copy_fresh hfound] at hij
      rcases lookup_cons_iff.mp hij with ⟨-, rfl⟩ | ⟨-, hij⟩
      · exact Nat.lt_succ_self _
      · exact Nat.lt_succ_of_lt (hitem hij)

theorem copyVariables_items (t : ScopeId) (l : List (String × ItemId)) : ∀ c : Copying,
    (∀ {i j}, c.session.itemTo i j → j.index < c.heap.items.size) →
      c.heap.items.size ≤ (copyVariables t l c).2.heap.items.size ∧
      (∀ {i j}, (copyVariables t l c).2.session.itemTo i j →
        j.index < (copyVariables t l c).2.heap.items.size) ∧
      (copyVariables t l c).2.heap.scopes.size = c.heap.scopes.size := by
  induction l with
  | nil =>
      intro c hitem
      exact ⟨Nat.le_refl _, hitem, rfl⟩
  | cons entry rest ih =>
      intro c hitem
      obtain ⟨name, i⟩ := entry
      obtain ⟨hle, hitem₁⟩ := i.copy_items hitem
      obtain ⟨hle₂, hitem₂, hsize⟩ := ih
        ⟨(i.copy c).2.session, (i.copy c).2.heap.bindVariable t name (i.copy c).1⟩ hitem₁
      rw [copyVariables_cons]
      refine ⟨Nat.le_trans hle hle₂, hitem₂, hsize.trans ?_⟩
      show ((i.copy c).2.heap.updateScope t _).scopes.size = _
      rw [Heap.scopes_size_updateScope, (i.copy_scopes c).1]

/-! ## Subtrees -/

/-- The invariant is kept up while scopes are copied that either have been
copied before or are to be copied anew. -/
theorem Resumed.rule (hheap : c₀.heap.Complete) (s₀ : ScopeId) :
    CopyRule c₀.heap
      (fun u => u.index < c₀.heap.scopes.size ∧ (c₀.session.scopes.lookup u = none → c₀.Anew s₀ u))
      (Resumed c₀ s₀) where
  there := fun hu => hu.1
  sorted := fun _ => hheap.sorted _
  source := fun h hu => h.later.content hu.1 id
  child := by
    intro busy c s h hs hno u hu
    have hs' : c₀.Anew s₀ s := hs.2 (h.uncopied hno)
    exact ⟨hheap.child s u hu, .child hs' hu⟩
  bounded := fun h => h.fits.scope
  register := fun h hs hno => h.register (hs.2 (h.uncopied hno)) hno _
  binds := by
    intro busy c s t h _ hbusy hst hempty
    obtain ⟨hlater, -⟩ := copyVariables_binds (c₀.heap.scope s).bindings.entries [] c
      (h.fits.scope hst) (by rw [hempty]; exact .nil) (hheap.sorted s)
    obtain ⟨hchildren, hparent, hsession⟩ :=
      copyVariables_shape t (c₀.heap.scope s).bindings.entries c
    obtain ⟨hle, hitem, hsize⟩ :=
      copyVariables_items t (c₀.heap.scope s).bindings.entries c h.fits.item
    exact h.step hst hbusy hlater hsession hsize hle hitem (h.ties.of_same hchildren hparent)
  adopt := by
    intro busy c s t u v done rest h _ hbusy hst huv _ _
    have hsize : (adopt t v c).2.heap.scopes.size = c.heap.scopes.size := by
      rw [adopt_eq]
      exact Heap.scopes_size_updateScope.trans Heap.scopes_size_updateScope
    exact h.step hst hbusy (adopt_later t v c) rfl hsize (Nat.le_refl _) h.fits.item
      (h.ties.adopt (h.fresh hbusy hst) (h.fits.scope hst) (h.fits.scope huv))
  finish := fun h _ => h.finish

/-- The copy of a scope in whatever session, and whatever state of the heap. -/
theorem ScopeId.copy_resumed (hheap : c₀.heap.Complete) (hfits : c₀.Fits)
    (hs : s.index < c₀.heap.scopes.size) :
    c₀.Makes (Resumed c₀ s fun _ => False) s (s.copy c₀) := by
  apply (Resumed.rule hheap s).copyScopeWithin _ _ s c₀ (.start hfits) ⟨hs, .top⟩
  have := Session.unseen_le_self c₀.session c₀.heap.scopes.size
  omega

end

/-! ## Once all is copied -/

namespace Resumed

variable {c₀ c : Copying} {s t q v y : ScopeId}

/-- What is to be copied anew has a copy made since. -/
theorem anew (h : Resumed c₀ s (fun _ => False) c) (hst : c.session.scopeTo s t)
    (hq : c₀.Anew s q) : ∃ v, c.session.scopeTo q v ∧ c₀.heap.scopes.size ≤ v.index := by
  have hmade : ∀ {u v}, c.session.scopeTo u v → c₀.session.scopes.lookup u = none →
      c₀.heap.scopes.size ≤ v.index := by
    intro u v huv hno
    rcases h.made huv with hold | ⟨-, hle⟩
    · rw [Session.scopeTo, hno] at hold
      cases hold
    · exact hle
  induction hq with
  | top hno => exact ⟨t, hst, hmade hst hno⟩
  | @child p u _ hu hno ih =>
      obtain ⟨t, hpt, hle⟩ := ih
      obtain ⟨v, -, huv⟩ := forall₂_mem (h.content hpt hle id).children hu
      exact ⟨v, huv, hmade huv hno⟩

/-- What is fetched is adopted by a scope made since. -/
theorem adopted (h : Resumed c₀ s (fun _ => False) c) (hst : c.session.scopeTo s t)
    (hv : c₀.Fetches s v) : ∃ p : ScopeId, c₀.heap.scopes.size ≤ p.index ∧
      v ∈ (c.heap.scope p).children ∧ (c.heap.scope v).parent = some p := by
  obtain ⟨q, u, hq, hu, huv⟩ := hv
  obtain ⟨p, hqp, hle⟩ := h.anew hst hq
  obtain ⟨v', hv', huv'⟩ := forall₂_mem (h.content hqp hle id).children hu
  obtain rfl : v = v' := Option.some.inj ((h.later.scope huv).symm.trans huv')
  rcases h.ties v with ⟨-, hno⟩ | hadopted
  · exact absurd hv' (hno p hle)
  · exact hadopted

/-- Of what was there, the scopes made since list only what has been fetched. -/
theorem listed (h : Resumed c₀ s (fun _ => False) c) (hfits : c₀.Fits)
    (ht : c₀.heap.scopes.size ≤ t.index) (hy : y ∈ (c.heap.scope t).children)
    (hold : y.index < c₀.heap.scopes.size) : c₀.Fetches s y := by
  obtain ⟨q, hqt⟩ := h.origin ht (Heap.lt_of_child hy)
  obtain ⟨u, hu, huy⟩ := forall₂_mem (h.content hqt ht id).children.flip hy
  rcases h.made hqt with hearlier | ⟨hq, -⟩
  · have := hfits.scope hearlier
    omega
  · rcases h.made huy with hearlier | ⟨-, hle⟩
    · exact ⟨q, u, hq, hu, hearlier⟩
    · omega

/-- What has been copied leaves a complete heap. -/
theorem carries (h : Resumed c₀ s (fun _ => False) c) (hheap : c₀.heap.Complete) :
    c₀.heap.Carries c.heap := by
  -- A scope that is there has the content that it had, or that of its original.
  have hcases : ∀ t, (c₀.heap.scope t).SameContent (c.heap.scope t) ∨
      (∃ q, (c₀.heap.scope q).CopiedTo c.session (c.heap.scope t)) ∨
      c.heap.scope t = .named "" := by
    intro t
    by_cases hold : t.index < c₀.heap.scopes.size
    · exact .inl (h.later.content hold id)
    · by_cases ht : t.index < c.heap.scopes.size
      · obtain ⟨q, hqt⟩ := h.origin (Nat.not_lt.mp hold) ht
        exact .inr (.inl ⟨q, h.content hqt (Nat.not_lt.mp hold) id⟩)
      · exact .inr (.inr (Heap.scope_of_le (Nat.not_lt.mp ht)))
  refine ⟨⟨fun t entry he => ?_, fun t => ?_, fun t d hd => ?_, fun y p hp => ?_⟩, h.items,
    h.later.size⟩
  · rcases hcases t with hsame | ⟨q, hcopied⟩ | hnone
    · rw [← hsame.bindings] at he
      exact Nat.lt_of_lt_of_le (hheap.bound t entry he) h.items
    · obtain ⟨x, -, -, hx⟩ := forall₂_mem hcopied.bindings.flip he
      exact h.fits.item hx
    · rw [hnone] at he
      cases he
  · rcases hcases t with hsame | ⟨q, hcopied⟩ | hnone
    · rw [← hsame.bindings]
      exact hheap.sorted t
    · exact (hheap.sorted q).same hcopied.bindings
    · rw [hnone]
      exact .nil
  · rcases hcases t with hsame | ⟨q, hcopied⟩ | hnone
    · rw [← hsame.children] at hd
      exact Nat.lt_of_lt_of_le (hheap.child t d hd) h.later.size
    · obtain ⟨x, -, hxd⟩ := forall₂_mem hcopied.children.flip hd
      exact h.fits.scope hxd
    · rw [hnone] at hd
      cases hd
  · rcases h.ties y with ⟨hsame, -⟩ | ⟨t, -, hy, hadopted⟩
    · rw [hsame] at hp
      exact Nat.lt_of_lt_of_le (hheap.rooted y p hp) h.later.size
    · obtain rfl : t = p := Option.some.inj (hadopted.symm.trans hp)
      exact Heap.lt_of_child hy

end Resumed

/-- A session in which nothing has been copied has nothing to refer to. -/
theorem Copying.Fits.empty (h : Heap) : Copying.Fits ⟨.empty, h⟩ := ⟨nofun, nofun, nofun⟩

/-- Copying a scope in a session of its own leaves a complete heap, with the
copy in it. -/
theorem Heap.Complete.copyAlone {h : Heap} {s : ScopeId} (hheap : h.Complete)
    (hs : s.index < h.scopes.size) : h.Carries (h.copyAlone s.copy).2 ∧
      (h.copyAlone s.copy).1.index < (h.copyAlone s.copy).2.scopes.size := by
  have hfits : Copying.Fits ⟨.empty, h⟩ := .empty h
  obtain ⟨hresumed, -, hfound⟩ := ScopeId.copy_resumed hheap hfits hs
  exact ⟨hresumed.carries hheap, hresumed.fits.scope hfound⟩

end ScopeFlow
