import ScopeFlow.Proofs.Scope.Forest

/-!
# Changes of forests

How a forest stays one: under changes of items and variables (`Forest.items`,
`Forest.relabel`), under new scopes (`Forest.newScope`, `Forest.appendFresh`),
and under attaching and detaching (`Forest.attach`, `Forest.removeChild`,
`Forest.clearChildren`). Each change is first described scope by scope.

Attaching moves the new parent and all above it up in the ranking, past the
scope attached and all that is below it; this is where it matters that the
scope attached is not among the ancestors.
-/

namespace ScopeFlow

namespace Heap

variable {h h' : Heap} {s t u p c : ScopeId} {f : Scope → Scope} {name : String} {place n : Nat}
  {i : ItemId} {v : Value}

/-- A heap stays sound under a change that keeps it in agreement with itself. -/
theorem Sound.mirrored (hs : h.Sound)
    (hstep : ∀ ρ, Agree ρ h h → (∀ {i}, i.index < h.items.size → ρ.items i i) →
      (∀ {s}, s.index < h.scopes.size → ρ.scopes s s) →
      ∃ ρ', Agree ρ' h' h' ∧ Confined ρ ρ' h h') : h'.Sound := by
  have ha : Agree (h.everything (fun _ => False) fun _ => False) h h :=
    hs.agree (fun _ => False.elim) (fun _ _ => False.elim) (fun _ => False.elim)
      fun _ _ => False.elim
  obtain ⟨ρ', ha', hconf⟩ := hstep _ ha (fun hi => ⟨rfl, hi⟩) fun hs => ⟨rfl, hs⟩
  apply ha'.sound
  apply hconf.covers
  exact ⟨fun hj => ⟨_, rfl, hj⟩, fun ht => ⟨_, rfl, ht⟩⟩

namespace Forest

/-! ## Items, contexts and new scopes -/

/-- Changes after which every scope has the variables, the sub-scopes and the
parent that it had. -/
theorem of_same (hf : h.Forest) (hbindings : ∀ t, (h'.scope t).bindings = (h.scope t).bindings)
    (hchildren : ∀ t, (h'.scope t).children = (h.scope t).children)
    (hparent : ∀ t, (h'.scope t).parent = (h.scope t).parent)
    (hitems : h.items.size ≤ h'.items.size) (hscopes : h.scopes.size ≤ h'.scopes.size) :
    h'.Forest := by
  constructor
  · constructor
    · intro s entry he
      rw [hbindings] at he
      exact Nat.lt_of_lt_of_le (hf.bound s entry he) hitems
    · intro s
      rw [hbindings]
      exact hf.sorted s
    · intro s c hc
      rw [hchildren] at hc
      exact Nat.lt_of_lt_of_le (hf.child s c hc) hscopes
    · intro s p hp
      rw [hparent] at hp
      exact Nat.lt_of_lt_of_le (hf.rooted s p hp) hscopes
    · obtain ⟨rank, hrank⟩ := hf.ranked
      refine ⟨rank, fun s hs c hc => ?_⟩
      rw [hchildren] at hc
      exact hrank s hs c hc
  · intro p c
    rw [hchildren, hparent]
    exact hf.linked p c
  · intro s
    rw [hchildren]
    exact hf.nodup s

theorem newItem (hf : h.Forest) (v : Value) : (h.newItem v).2.Forest :=
  hf.of_same (fun _ => rfl) (fun _ => rfl) (fun _ => rfl) (by simp [Heap.newItem]) (Nat.le_refl _)

theorem setValue (hf : h.Forest) (i : ItemId) (v : Value) : (h.setValue i v).Forest :=
  hf.of_same (fun _ => rfl) (fun _ => rfl) (fun _ => rfl) (by simp [Heap.setValue]) (Nat.le_refl _)

theorem newContext (hf : h.Forest) : h.newContext.2.Forest :=
  hf.of_same (fun _ => rfl) (fun _ => rfl) (fun _ => rfl) (Nat.le_refl _) (Nat.le_refl _)

theorem newScope (hf : h.Forest) (name : String) : (h.newScope name).2.Forest := by
  apply hf.of_same
  · intro t
    obtain ⟨title, heq⟩ := scope_newScope name t
    rw [heq]
  · intro t
    obtain ⟨title, heq⟩ := scope_newScope name t
    rw [heq]
  · intro t
    obtain ⟨title, heq⟩ := scope_newScope name t
    rw [heq]
  · exact Nat.le_refl _
  · simp [Heap.newScope]

/-! ## Names and variables -/

/-- Changes of one scope that leave its place in the tree alone. -/
theorem of_sound (hf : h.Forest) (hs : (h.updateScope s f).Sound)
    (hchildren : (f (h.scope s)).children = (h.scope s).children)
    (hparent : (f (h.scope s)).parent = (h.scope s).parent) : (h.updateScope s f).Forest := by
  have hchildren' : ∀ t, ((h.updateScope s f).scope t).children = (h.scope t).children := by
    intro t
    rw [scope_updateScope]
    split
    · rename_i hts
      rw [hts.1, hchildren]
    · rfl
  have hparent' : ∀ t, ((h.updateScope s f).scope t).parent = (h.scope t).parent := by
    intro t
    rw [scope_updateScope]
    split
    · rename_i hts
      rw [hts.1, hparent]
    · rfl
  refine ⟨hs, fun p c => ?_, fun t => ?_⟩
  · rw [hchildren', hparent']
    exact hf.linked p c
  · rw [hchildren']
    exact hf.nodup t

theorem rename (hf : h.Forest) (s : ScopeId) (name : String) : (h.rename s name).Forest := by
  by_cases hs : s.index < h.scopes.size
  · apply hf.of_sound _ rfl rfl
    apply hf.toSound.mirrored
    exact fun ρ ha _ hscope => ⟨ρ, ha.rename (hscope hs) name⟩
  · rw [Heap.rename, updateScope_of_le (by omega)]
    exact hf

theorem bindVariable (hf : h.Forest) (s : ScopeId) (name : String)
    (hi : i.index < h.items.size) : (h.bindVariable s name i).Forest := by
  by_cases hs : s.index < h.scopes.size
  · apply hf.of_sound _ rfl rfl
    apply hf.toSound.mirrored
    exact fun ρ ha hitem hscope => ⟨ρ, ha.bindVariable (hscope hs) (hitem hi) name⟩
  · rw [Heap.bindVariable, updateScope_of_le (by omega)]
    exact hf

theorem unbindVariable (hf : h.Forest) (s : ScopeId) (name : String) :
    (h.unbindVariable s name).Forest := by
  by_cases hs : s.index < h.scopes.size
  · apply hf.of_sound _ rfl rfl
    apply hf.toSound.mirrored
    exact fun ρ ha _ hscope => ⟨ρ, ha.unbindVariable (hscope hs) name⟩
  · rw [Heap.unbindVariable, updateScope_of_le (by omega)]
    exact hf

end Forest

/-! ## Appending -/

theorem scopes_size_appendFresh (s : ScopeId) (count : Nat) :
    (h.appendFresh s count).scopes.size = h.scopes.size + count := by
  show ((h.addScopes (emptyScopes (h.scope s).children.length count s)).updateScope s
    _).scopes.size = _
  rw [scopes_size_updateScope, scopes_size_addScopes, emptyScopes, List.length_map,
    List.length_range]

theorem children_appendFresh (hs : s.index < h.scopes.size) (count : Nat) (p : ScopeId) :
    ((h.appendFresh s count).scope p).children =
      if p = s then (h.scope s).children ++
        (List.range count).map fun k => ScopeId.mk (h.scopes.size + k)
      else (h.scope p).children := by
  have hold : (h.addScopes (emptyScopes (h.scope s).children.length count s)).scope s =
      h.scope s := scope_addScopes_lt _ hs
  show (((h.addScopes (emptyScopes (h.scope s).children.length count s)).updateScope s _).scope
    p).children = _
  rw [scope_updateScope, hold]
  by_cases hp : p = s
  · have hlt : s.index < (h.addScopes (emptyScopes (h.scope s).children.length count
        s)).scopes.size := by
      rw [scopes_size_addScopes]
      omega
    rw [if_pos ⟨hp, hlt⟩, if_pos hp]
  · rw [if_neg fun hand => hp hand.1, if_neg hp]
    by_cases hlt : p.index < h.scopes.size
    · rw [scope_addScopes_lt _ hlt]
    · have hnone : h.scope p = .named "" := scope_of_le (by omega)
      rcases emptyScopes_cases (h := h) (p := s) (s := p) (by omega) with heq | ⟨k, -, -, heq⟩
      · rw [heq, hnone]
      · rw [heq, hnone]
        rfl

theorem parent_appendFresh (count : Nat) (c : ScopeId) :
    ((h.appendFresh s count).scope c).parent =
      if h.scopes.size ≤ c.index ∧ c.index < h.scopes.size + count then some s
      else (h.scope c).parent := by
  have hkeep : ((h.appendFresh s count).scope c).parent =
      ((h.addScopes (emptyScopes (h.scope s).children.length count s)).scope c).parent := by
    show (((h.addScopes (emptyScopes (h.scope s).children.length count s)).updateScope s _).scope
      c).parent = _
    rw [scope_updateScope]
    split
    · rename_i hand
      rw [hand.1]
    · rfl
  rw [hkeep]
  by_cases hlt : c.index < h.scopes.size
  · rw [scope_addScopes_lt _ hlt, if_neg (by omega)]
  · obtain ⟨m⟩ := c
    obtain ⟨k, rfl⟩ := Nat.exists_eq_add_of_le (Nat.not_lt.mp hlt)
    by_cases hk : k < count
    · rw [scope_emptyScopes hk, if_pos ⟨Nat.le_add_right .., by simpa using hk⟩]
    · have hnone : h.scope ⟨h.scopes.size + k⟩ = .named "" := scope_of_le (Nat.le_add_right ..)
      rw [if_neg (by simpa using hk), hnone, scope_of_le]
      simp only [scopes_size_addScopes, emptyScopes, List.length_map, List.length_range]
      omega

namespace Forest

theorem appendFresh (hf : h.Forest) (hs : s.index < h.scopes.size) (count : Nat) :
    (h.appendFresh s count).Forest := by
  -- No scope was listed under a number from the old end on.
  have hlisted : ∀ {p c}, c ∈ (h.scope p).children → c.index < h.scopes.size := hf.child _ _
  constructor
  · apply hf.toSound.mirrored
    exact fun ρ ha _ hscope => ⟨_, ha.appendFresh (hscope hs) count⟩
  · intro p c
    rw [children_appendFresh hs, parent_appendFresh]
    by_cases hnew : h.scopes.size ≤ c.index ∧ c.index < h.scopes.size + count
    · rw [if_pos hnew]
      have hno : ∀ q, c ∉ (h.scope q).children := fun q hq => by
        have := hlisted hq
        omega
      by_cases hp : p = s
      · have hmem : c ∈ (List.range count).map fun k => ScopeId.mk (h.scopes.size + k) := by
          refine List.mem_map.mpr ⟨c.index - h.scopes.size, List.mem_range.mpr (by omega), ?_⟩
          exact congrArg ScopeId.mk (by omega)
        simp [hp, hmem]
      · simp [hp, hno p, Ne.symm hp]
    · rw [if_neg hnew]
      have hno : c ∉ (List.range count).map fun k => ScopeId.mk (h.scopes.size + k) := by
        intro hmem
        obtain ⟨k, hk, rfl⟩ := List.mem_map.mp hmem
        exact hnew ⟨Nat.le_add_right .., by simpa using hk⟩
      by_cases hp : p = s
      · subst hp
        rw [if_pos rfl, List.mem_append, or_iff_left hno]
        exact hf.linked p c
      · rw [if_neg hp]
        exact hf.linked p c
  · intro p
    rw [children_appendFresh hs]
    by_cases hp : p = s
    · rw [if_pos hp]
      refine List.Nodup.append (hf.nodup s) ?_ ?_
      · refine List.nodup_range.map ?_
        intro a b hab
        simpa using hab
      · intro c hc hmem
        obtain ⟨k, -, rfl⟩ := List.mem_map.mp hmem
        have hlt : h.scopes.size + k < h.scopes.size := hlisted hc
        omega
    · rw [if_neg hp]
      exact hf.nodup p

end Forest

/-! ## Attaching -/

theorem scope_attach (hs : s.index < h.scopes.size) (hu : u.index < h.scopes.size) (place : Nat)
    (x : ScopeId) :
    (h.attach s place u).scope x = { h.scope x with
      children := if x = s then (h.scope s).children.insertIdx place u else (h.scope x).children
      parent := if x = u then some s else (h.scope x).parent } := by
  rw [attach, scope_updateScope, setParent, scopes_size_updateScope, scope_updateScope,
    scope_updateScope]
  by_cases hxs : x = s
  · subst hxs
    by_cases hxu : x = u
    · subst hxu
      simp [hs]
    · simp [hs, hxu]
  · by_cases hxu : x = u
    · subst hxu
      simp [hu, hxs]
    · simp [hxu, hxs]

namespace Forest

/-- Where a scope without a parent is not above another, there is a ranking in
which it comes below it. -/
theorem rank_above (hf : h.Forest) (hu : u.index < h.scopes.size) (habove : ¬ h.Below u s) :
    ∃ rank : ScopeId → Nat, (∀ x, ∀ c ∈ (h.scope x).children, rank c < rank x) ∧
      rank u < rank s := by
  classical
  obtain ⟨rank, hr⟩ := hf.ranks
  -- The new parent and all above it are moved up, past all that is there.
  refine ⟨fun x => if h.Below x s then rank x + h.scopes.size else rank x, ?_, ?_⟩
  · intro x c hc
    have hrank := (hr.child (lt_of_child hc) c hc).2
    show (if h.Below c s then _ else _) < if h.Below x s then _ else _
    by_cases hbelow : h.Below c s
    · have hx : h.Below x s := (Below.self.child hc).trans hbelow
      rw [if_pos hbelow, if_pos hx]
      omega
    · rw [if_neg hbelow]
      split <;> omega
  · show (if h.Below u s then _ else _) < if h.Below s s then _ else _
    rw [if_neg habove, if_pos .self]
    have := hr.lt hu
    omega

theorem attach (hf : h.Forest) (hs : s.index < h.scopes.size) (hu : u.index < h.scopes.size)
    (hparent : (h.scope u).parent = none) (habove : ¬ h.Below u s)
    (hplace : place ≤ (h.scope s).children.length) : (h.attach s place u).Forest := by
  have hno : ∀ p, u ∉ (h.scope p).children := by
    intro p hmem
    rw [hf.linked, hparent] at hmem
    cases hmem
  constructor
  · apply hf.toSound.mirrored
    intro ρ ha _ hscope
    obtain ⟨rank, hrank, hlow⟩ := hf.rank_above hu habove
    exact ⟨ρ, ha.attach (hscope hs) (hscope hu) place ⟨rank, fun x _ => hrank x, hlow⟩⟩
  · intro p c
    rw [scope_attach hs hu, scope_attach hs hu]
    show (c ∈ if p = s then _ else _) ↔ (if c = u then _ else _) = some p
    by_cases hc : c = u
    · subst hc
      by_cases hp : p = s
      · subst hp
        simp [List.mem_insertIdx hplace]
      · simp [hp, hno p, Ne.symm hp]
    · rw [if_neg hc]
      by_cases hp : p = s
      · subst hp
        rw [if_pos rfl, List.mem_insertIdx hplace, or_iff_right hc]
        exact hf.linked p c
      · rw [if_neg hp]
        exact hf.linked p c
  · intro p
    rw [scope_attach hs hu]
    show (if p = s then _ else _ : List ScopeId).Nodup
    by_cases hp : p = s
    · rw [if_pos hp]
      rw [(List.perm_insertIdx u _ hplace).nodup_iff]
      exact List.nodup_cons.mpr ⟨hno s, hf.nodup s⟩
    · rw [if_neg hp]
      exact hf.nodup p

end Forest

/-! ## Detaching -/

theorem scope_removeChild (hs : s.index < h.scopes.size)
    (hc : (h.scope s).children[place]? = some c) (hclt : c.index < h.scopes.size) (x : ScopeId) :
    (h.removeChild s place).2.scope x = { h.scope x with
      children := if x = s then (h.scope s).children.eraseIdx place else (h.scope x).children
      parent := if x = c then none else (h.scope x).parent } := by
  unfold removeChild
  rw [hc]
  dsimp only
  rw [setParent, scope_updateScope, scopes_size_updateScope, scope_updateScope, scope_updateScope]
  by_cases hxs : x = s
  · subst hxs
    by_cases hxc : x = c
    · subst hxc
      simp [hs]
    · simp [hs, hxc]
  · by_cases hxc : x = c
    · subst hxc
      simp [hclt, hxs]
    · simp [hxc, hxs]

theorem scope_detachAll (cs : List ScopeId) (hcs : ∀ c ∈ cs, c.index < h.scopes.size)
    (x : ScopeId) : (h.detachAll cs).scope x =
      { h.scope x with parent := if x ∈ cs then none else (h.scope x).parent } := by
  induction cs generalizing h with
  | nil => simp [detachAll]
  | cons c cs ih =>
      have hlt := hcs c List.mem_cons_self
      have hrest : ∀ d ∈ cs, d.index < (h.setParent c none).scopes.size := by
        intro d hd
        rw [setParent, scopes_size_updateScope]
        exact hcs d (List.mem_cons_of_mem _ hd)
      show ((h.setParent c none).detachAll cs).scope x = _
      rw [ih hrest, setParent, scope_updateScope]
      by_cases hxc : x = c
      · subst hxc
        simp [hlt]
      · simp [hxc]

@[simp] theorem scopes_size_removeChild (s : ScopeId) (place : Nat) :
    (h.removeChild s place).2.scopes.size = h.scopes.size := by
  unfold removeChild
  split
  · rfl
  · rw [setParent, scopes_size_updateScope, scopes_size_updateScope]

@[simp] theorem scopes_size_detachAll (cs : List ScopeId) :
    (h.detachAll cs).scopes.size = h.scopes.size := by
  induction cs generalizing h with
  | nil => rfl
  | cons c cs ih =>
      show ((h.setParent c none).detachAll cs).scopes.size = _
      rw [ih, setParent, scopes_size_updateScope]

@[simp] theorem scopes_size_clearChildren (s : ScopeId) :
    (h.clearChildren s).2.scopes.size = h.scopes.size := by
  unfold clearChildren
  rw [scopes_size_detachAll, scopes_size_updateScope]

theorem scope_clearChildren (hs : s.index < h.scopes.size)
    (hcs : ∀ c ∈ (h.scope s).children, c.index < h.scopes.size) (x : ScopeId) :
    (h.clearChildren s).2.scope x = { h.scope x with
      children := if x = s then [] else (h.scope x).children
      parent := if x ∈ (h.scope s).children then none else (h.scope x).parent } := by
  unfold clearChildren
  dsimp only
  rw [scope_detachAll _ (by rw [scopes_size_updateScope]; exact hcs), scope_updateScope]
  by_cases hxs : x = s
  · subst hxs
    simp [hs]
  · simp [hxs]

namespace Forest

theorem removeChild (hf : h.Forest) (s : ScopeId) (place : Nat) :
    (h.removeChild s place).2.Forest := by
  cases hc : (h.scope s).children[place]? with
  | none =>
      have hsame : (h.removeChild s place).2 = h := by
        unfold Heap.removeChild
        rw [hc]
      rw [hsame]
      exact hf
  | some c =>
      have hmem := List.mem_of_getElem? hc
      have hs := lt_of_child hmem
      have hclt := hf.child s c hmem
      have herase : (h.scope s).children.eraseIdx place = (h.scope s).children.erase c := by
        obtain ⟨hlt, hget⟩ := List.getElem?_eq_some_iff.mp hc
        rw [← hget, (hf.nodup s).erase_getElem place hlt]
      constructor
      -- A heap is sound if it agrees with itself, and removing the child on both sides keeps that.
      · apply hf.toSound.mirrored
        intro ρ ha _ hscope
        obtain ⟨hconf, ha', -⟩ := ha.removeChild (hscope hs) place
        exact ⟨ρ, ha', hconf⟩
      · intro p d
        rw [scope_removeChild hs hc hclt, scope_removeChild hs hc hclt, herase]
        show (d ∈ if p = s then _ else _) ↔ (if d = c then _ else _) = some p
        by_cases hd : d = c
        · subst hd
          by_cases hp : p = s
          · subst hp
            simp [(hf.nodup p).mem_erase_iff]
          · -- It is listed in one place only, and that is not this one.
            have hno : d ∉ (h.scope p).children := by
              intro hmem'
              rw [hf.linked] at hmem hmem'
              exact hp (Option.some.inj (hmem'.symm.trans hmem))
            simp [hp, hno]
        · rw [if_neg hd]
          by_cases hp : p = s
          · subst hp
            rw [if_pos rfl, (hf.nodup p).mem_erase_iff, and_iff_right hd]
            exact hf.linked p d
          · rw [if_neg hp]
            exact hf.linked p d
      · intro p
        rw [scope_removeChild hs hc hclt]
        show (if p = s then _ else _ : List ScopeId).Nodup
        by_cases hp : p = s
        · rw [if_pos hp]
          exact (hf.nodup s).eraseIdx place
        · rw [if_neg hp]
          exact hf.nodup p

theorem clearChildren (hf : h.Forest) (s : ScopeId) : (h.clearChildren s).2.Forest := by
  by_cases hs : s.index < h.scopes.size
  · have hscope := scope_clearChildren hs (hf.child s)
    constructor
    · apply hf.toSound.mirrored
      exact fun ρ ha _ hin => ⟨ρ, ha.clearChildren (hin hs)⟩
    · intro p d
      rw [hscope, hscope]
      show (d ∈ if p = s then _ else _) ↔ (if d ∈ (h.scope s).children then _ else _) = some p
      by_cases hp : p = s
      · subst hp
        by_cases hd : d ∈ (h.scope p).children
        · simp [hd]
        · have hno : (h.scope d).parent ≠ some p := fun heq => hd ((hf.linked p d).mpr heq)
          simp [hd, hno]
      · by_cases hd : d ∈ (h.scope s).children
        · have hno : d ∉ (h.scope p).children := by
            intro hd'
            rw [hf.linked] at hd hd'
            exact hp (Option.some.inj (hd'.symm.trans hd))
          simp [hp, hd, hno]
        · rw [if_neg hp, if_neg hd]
          exact hf.linked p d
    · intro p
      rw [hscope]
      show (if p = s then _ else _ : List ScopeId).Nodup
      by_cases hp : p = s
      · rw [if_pos hp]
        exact List.nodup_nil
      · rw [if_neg hp]
        exact hf.nodup p
  · have hnone : h.scope s = .named "" := scope_of_le (by omega)
    have hsame : (h.clearChildren s).2 = h := by
      unfold Heap.clearChildren
      rw [hnone, updateScope_of_le (by omega)]
      rfl
    rw [hsame]
    exact hf

end Forest

end Heap

end ScopeFlow
