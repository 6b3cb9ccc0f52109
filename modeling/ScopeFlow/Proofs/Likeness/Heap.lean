import ScopeFlow.Proofs.Likeness.Acts

/-!
# Updates on both sides

Heaps that agree still agree after the same update of what corresponds, and
the update is confined. One lemma for each way of changing a heap; what is
made on both sides is added to the renaming.
-/

namespace ScopeFlow

section

variable {α β : Type} {R : α → β → Prop} {l : List α} {l' : List β}

theorem forall₂_getElem? (h : List.Forall₂ R l l') (n : Nat) : Option.Rel R l[n]? l'[n]? := by
  induction h generalizing n with
  | nil => exact .none
  | cons hab _ ih =>
      cases n with
      | zero => exact .some hab
      | succ n => exact ih n

theorem forall₂_eraseIdx (h : List.Forall₂ R l l') (n : Nat) :
    List.Forall₂ R (l.eraseIdx n) (l'.eraseIdx n) := by
  rw [List.eraseIdx_eq_take_drop_succ, List.eraseIdx_eq_take_drop_succ]
  exact List.rel_append (List.forall₂_take n h) (List.forall₂_drop (n + 1) h)

theorem forall₂_mem (h : List.Forall₂ R l l') {a : α} (ha : a ∈ l) : ∃ b ∈ l', R a b := by
  induction h with
  | nil => cases ha
  | cons hab _ ih =>
      rcases List.mem_cons.mp ha with rfl | ha
      · exact ⟨_, List.mem_cons_self, hab⟩
      · obtain ⟨b, hb, hab'⟩ := ih ha
        exact ⟨b, List.mem_cons_of_mem _ hb, hab'⟩

end

namespace Renaming

/-- One more pair of items. -/
def withItem (ρ : Renaming) (i j : ItemId) : Renaming :=
  { ρ with items := fun a b => ρ.items a b ∨ a = i ∧ b = j }

/-- One more pair of contexts. -/
def withContext (ρ : Renaming) (c d : Context) : Renaming :=
  { ρ with contexts := fun a b => ρ.contexts a b ∨ a = c ∧ b = d }

/-- Some more pairs of scopes, from two places on. -/
def withScopes (ρ : Renaming) (m n count : Nat) : Renaming :=
  { ρ with scopes := fun s t => ρ.scopes s t ∨ ∃ k < count, s = ⟨m + k⟩ ∧ t = ⟨n + k⟩ }

variable {ρ : Renaming}

theorem within_withItem {i j : ItemId} : ρ.Within (ρ.withItem i j) := ⟨.inl, id, id, id, id⟩

theorem within_withContext {c d : Context} : ρ.Within (ρ.withContext c d) := ⟨id, id, id, .inl, id⟩

theorem within_withScopes {m n count : Nat} : ρ.Within (ρ.withScopes m n count) :=
  ⟨id, .inl, id, id, id⟩

end Renaming

/-- Changing one scope keeps a ranking if no child is added. -/
theorem Heap.Ranked.updateScope {h : Heap} {S : ScopeId → Prop} {s : ScopeId} {f : Scope → Scope}
    (hr : h.Ranked S) (hf : ∀ c ∈ (f (h.scope s)).children, c ∈ (h.scope s).children) :
    (h.updateScope s f).Ranked S := by
  obtain ⟨rank, hrank⟩ := hr
  refine ⟨rank, fun t ht c hc => hrank t ht c ?_⟩
  by_cases hts : t = s
  · subst hts
    by_cases hin : t.index < h.scopes.size
    · rw [Heap.scope_updateScope_self hin] at hc
      exact hf c hc
    · rw [Heap.updateScope_of_le (by omega)] at hc
      exact hc
  · rw [Heap.scope_updateScope_ne hts] at hc
    exact hc

namespace Agree

variable {ρ : Renaming} {h k : Heap} {i j : ItemId} {s t : ScopeId} {c d : Context}
  (ha : Agree ρ h k)
include ha

/-! ## Items -/

theorem setValue (hij : ρ.items i j) (v : Value) :
    Agree ρ (h.setValue i v) (k.setValue j v) ∧ Confined ρ ρ k (k.setValue j v) := by
  have hb := ha.item hij
  constructor
  · exact { ha with
      item := by
        intro i' j' hij'
        have hb' := ha.item hij'
        refine ⟨by simpa [Heap.setValue] using hb'.1, by simpa [Heap.setValue] using hb'.2.1, ?_⟩
        by_cases hi : i' = i
        · have hj : j' = j := (ha.item_iff hij' hij).mp hi
          rw [hi, hj, Heap.value_setValue_self hb.1, Heap.value_setValue_self hb.2.1]
        · have hj : j' ≠ j := fun hj => hi ((ha.item_iff hij' hij).mpr hj)
          rw [Heap.value_setValue_ne hi, Heap.value_setValue_ne hj]
          exact hb'.2.2 }
  · have hsize : (k.setValue j v).items.size = k.items.size := Array.size_setIfInBounds
    exact { Confined.refl with
      items := Nat.le_of_eq hsize.symm
      madeItem := fun hle hlt => absurd (hsize ▸ hlt) (Nat.not_lt.mpr hle)
      keptItem := by
        intro j' _ hno
        exact Heap.value_setValue_ne fun hj => hno i (hj ▸ hij) }

theorem newItem (v : Value) :
    Agree (ρ.withItem ⟨h.items.size⟩ ⟨k.items.size⟩) (h.newItem v).2 (k.newItem v).2 ∧
      Confined ρ (ρ.withItem ⟨h.items.size⟩ ⟨k.items.size⟩) k (k.newItem v).2 := by
  refine ha.grow .newItem .newItem
    { within := Renaming.within_withItem
      item := ?_
      item_iff := ?_
      scope := fun hst => .inl hst
      scope_iff := fun hst hst' _ _ => ha.scope_iff hst hst'
      graph := id
      context := .inl
      context_id := fun hcd hcd' _ _ => ha.context_id hcd hcd'
      outer := id
      madeItem := ?_
      madeScope := fun hle hlt => absurd hlt (Nat.not_lt.mpr hle)
      rooted := ha.rooted
      rooted' := ha.rooted'
      ranked := ha.ranked }
  · rintro i j (hij | ⟨rfl, rfl⟩)
    · exact .inl hij
    · refine .inr ⟨Nat.le_refl _, Nat.le_refl _, by simp [Heap.newItem], by simp [Heap.newItem], ?_⟩
      rw [Heap.value_newItem_self, Heap.value_newItem_self]
  · rintro i j i' j' (hij | ⟨rfl, rfl⟩) (hij' | ⟨rfl, rfl⟩) hi hi'
    · exact ha.item_iff hij hij'
    · have := ha.item hij
      omega
    · have := ha.item hij'
      omega
    · simp
  · intro j hle hlt
    rw [Heap.newItem, Array.size_push] at hlt
    have hj : j.index = k.items.size := by omega
    exact ⟨_, .inr ⟨rfl, congrArg ItemId.mk hj⟩⟩

/-! ## Contexts -/

theorem newContext (hc : c.id = ⟨h.contexts⟩) (hd : d.id = ⟨k.contexts⟩) (hcd : c.Alike ρ d) :
    Agree (ρ.withContext c d) h.newContext.2 k.newContext.2 ∧
      Confined ρ (ρ.withContext c d) k k.newContext.2 := by
  refine ha.grow .newContext .newContext
    { within := Renaming.within_withContext
      item := .inl
      item_iff := fun hij hij' _ _ => ha.item_iff hij hij'
      scope := fun hst => .inl hst
      scope_iff := fun hst hst' _ _ => ha.scope_iff hst hst'
      graph := id
      context := ?_
      context_id := ?_
      outer := id
      madeItem := fun hle hlt => absurd hlt (Nat.not_lt.mpr hle)
      madeScope := fun hle hlt => absurd hlt (Nat.not_lt.mpr hle)
      rooted := ha.rooted
      rooted' := ha.rooted'
      ranked := ha.ranked }
  · rintro c' d' (hold | ⟨rfl, rfl⟩)
    · exact .inl hold
    · rw [hc, hd]
      exact .inr ⟨Nat.le_refl _, Nat.le_refl _, Nat.lt_succ_self _, Nat.lt_succ_self _,
        hcd.mono Renaming.within_withContext⟩
  · rintro c₁ d₁ c₂ d₂ (hold | ⟨rfl, rfl⟩) (hold' | ⟨rfl, rfl⟩) h₁ h₂ hid
    · exact ha.context_id hold hold' hid
    · have := ha.context hold
      omega
    · have := ha.context hold'
      omega
    · exact ⟨rfl, rfl⟩

/-! ## Scopes -/

theorem updateScope {f g : Scope → Scope} (hst : ρ.scopes s t)
    (hal : (f (h.scope s)).Alike ρ (g (k.scope t)))
    (hup : ∀ p, (f (h.scope s)).parent = some p →
      (h.scope s).parent = some p ∨ p.index < h.scopes.size)
    (hrank : (h.updateScope s f).Ranked ρ.Renames) :
    Agree ρ (h.updateScope s f) (k.updateScope t g) ∧ Confined ρ ρ k (k.updateScope t g) := by
  have hb := ha.scope hst
  constructor
  · exact { ha with
      scope := by
        intro s' t' hst'
        have hb' := ha.scope hst'
        rw [Heap.scopes_size_updateScope, Heap.scopes_size_updateScope]
        refine ⟨hb'.1, hb'.2.1, ?_⟩
        by_cases hs : s' = s
        · have ht : t' = t := (ha.scope_iff hst' hst).mp hs
          rw [hs, ht, Heap.scope_updateScope_self hb.1, Heap.scope_updateScope_self hb.2.1]
          exact hal
        · have ht : t' ≠ t := fun ht => hs ((ha.scope_iff hst' hst).mpr ht)
          rw [Heap.scope_updateScope_ne hs, Heap.scope_updateScope_ne ht]
          exact hb'.2.2
      outer := by
        intro q hq
        rw [Heap.scopes_size_updateScope]
        exact ha.outer hq
      rooted := ha.rooted.updateScope hup
      rooted' := by
        refine ha.rooted'.updateScope fun q hq => .inr ?_
        rcases hal.parent q hq with ⟨p, hpq⟩ | hout
        · exact (ha.scope hpq).2.1
        · exact ha.outer hout
      ranked := hrank }
  · exact { Confined.refl with
      scopes := Nat.le_of_eq Heap.scopes_size_updateScope.symm
      madeScope := fun hle hlt =>
        absurd (Heap.scopes_size_updateScope (s := t) (f := g) ▸ hlt) (Nat.not_lt.mpr hle)
      keptScope := by
        intro t' _ hno
        exact Heap.scope_updateScope_ne fun ht => hno s (ht ▸ hst) }

theorem bindVariable (hst : ρ.scopes s t) (hij : ρ.items i j) (name : String) :
    Agree ρ (h.bindVariable s name i) (k.bindVariable t name j) ∧
      Confined ρ ρ k (k.bindVariable t name j) := by
  have hal := (ha.scope hst).2.2
  exact ha.updateScope hst
    { hal with
      bindings := Bindings.place_same hal.bindings hij
      sorted := hal.sorted.insert }
    (fun _ => .inl) (ha.ranked.updateScope fun _ => id)

theorem unbindVariable (hst : ρ.scopes s t) (name : String) :
    Agree ρ (h.unbindVariable s name) (k.unbindVariable t name) ∧
      Confined ρ ρ k (k.unbindVariable t name) := by
  have hal := (ha.scope hst).2.2
  exact ha.updateScope hst
    { hal with
      bindings := Bindings.filter_same hal.bindings
      sorted := hal.sorted.erase }
    (fun _ => .inl) (ha.ranked.updateScope fun _ => id)

theorem rename (hst : ρ.scopes s t) (name : String) :
    Agree ρ (h.rename s name) (k.rename t name) ∧ Confined ρ ρ k (k.rename t name) := by
  have hal := (ha.scope hst).2.2
  exact ha.updateScope hst { hal with name := rfl } (fun _ => .inl)
    (ha.ranked.updateScope fun _ => id)

theorem setParent {p q : Option ScopeId} (hst : ρ.scopes s t) (hpq : Option.Rel ρ.scopes p q) :
    Agree ρ (h.setParent s p) (k.setParent t q) ∧ Confined ρ ρ k (k.setParent t q) := by
  have hal := (ha.scope hst).2.2
  refine ha.updateScope hst { hal with parent := ?_ } ?_ (ha.ranked.updateScope fun _ => id)
  · intro q' hq'
    change q = some q' at hq'
    subst hq'
    cases hpq with
    | some h => exact .inl ⟨_, h⟩
  · intro p' hp'
    change p = some p' at hp'
    subst hp'
    cases hpq with
    | some h => exact .inr (ha.scope h).1

/-! ## Sub-scopes -/

/-- Some sub-scopes of corresponding scopes, the same on both sides, are kept. -/
theorem keepChildren {cs ds : List ScopeId} (hst : ρ.scopes s t)
    (hcd : List.Forall₂ ρ.scopes cs ds) (hsub : ∀ c ∈ cs, c ∈ (h.scope s).children) :
    Agree ρ (h.updateScope s fun node => { node with children := cs })
        (k.updateScope t fun node => { node with children := ds }) ∧
      Confined ρ ρ k (k.updateScope t fun node => { node with children := ds }) := by
  have hal := (ha.scope hst).2.2
  exact ha.updateScope hst { hal with children := hcd } (fun _ => .inl)
    (ha.ranked.updateScope hsub)

theorem detachAll {cs ds : List ScopeId} (hcd : List.Forall₂ ρ.scopes cs ds) :
    Agree ρ (h.detachAll cs) (k.detachAll ds) ∧ Confined ρ ρ k (k.detachAll ds) := by
  induction hcd generalizing h k with
  | nil => exact ⟨ha, .refl⟩
  | cons hcd _ ih =>
      obtain ⟨ha', hc⟩ := ha.setParent hcd .none
      obtain ⟨ha'', hc'⟩ := ih ha'
      exact ⟨ha'', hc.trans hc'⟩

theorem clearChildren (hst : ρ.scopes s t) :
    Agree ρ (h.clearChildren s).2 (k.clearChildren t).2 ∧
      Confined ρ ρ k (k.clearChildren t).2 := by
  have hal := (ha.scope hst).2.2
  obtain ⟨ha', hc⟩ := ha.keepChildren hst .nil (by simp)
  obtain ⟨ha'', hc'⟩ := ha'.detachAll hal.children
  exact ⟨ha'', hc.trans hc'⟩

theorem removeChild (hst : ρ.scopes s t) (place : Nat) :
    Confined ρ ρ k (k.removeChild t place).2 ∧
      Agree ρ (h.removeChild s place).2 (k.removeChild t place).2 ∧
      Option.Rel ρ.scopes (h.removeChild s place).1 (k.removeChild t place).1 := by
  have hal := (ha.scope hst).2.2
  have hat := forall₂_getElem? hal.children place
  unfold Heap.removeChild
  cases hc : (h.scope s).children[place]? with
  | none =>
      rw [hc] at hat
      cases hd : (k.scope t).children[place]? with
      | none => exact ⟨.refl, ha, .none⟩
      | some d => rw [hd] at hat; cases hat
  | some c =>
      rw [hc] at hat
      cases hd : (k.scope t).children[place]? with
      | none => rw [hd] at hat; cases hat
      | some d =>
          rw [hd] at hat
          cases hat with
          | some hcd =>
              obtain ⟨ha', hconf⟩ := ha.updateScope hst
                (f := fun node => { node with children := node.children.eraseIdx place })
                (g := fun node => { node with children := node.children.eraseIdx place })
                { hal with children := forall₂_eraseIdx hal.children place } (fun _ => .inl)
                (ha.ranked.updateScope fun _ hc => List.mem_of_mem_eraseIdx hc)
              obtain ⟨ha'', hconf'⟩ := ha'.setParent hcd .none
              exact ⟨hconf.trans hconf', ha'', .some hcd⟩

/-- Scopes with nothing in them on both sides, attached to corresponding ones. -/
theorem addEmptyScopes (hst : ρ.scopes s t) (first count : Nat) :
    let ρ' := ρ.withScopes h.scopes.size k.scopes.size count
    let h' := h.addScopes (Heap.emptyScopes first count s)
    let k' := k.addScopes (Heap.emptyScopes first count t)
    Agree ρ' h' k' ∧ Confined ρ ρ' k k' := by
  intro ρ' h' k'
  obtain ⟨hs, ht, hal⟩ := ha.scope hst
  refine ha.grow (.addScopes _) (.addScopes _)
    { within := Renaming.within_withScopes
      item := .inl
      item_iff := fun hij hij' _ _ => ha.item_iff hij hij'
      scope := ?_
      scope_iff := ?_
      graph := id
      context := .inl
      context_id := fun hcd hcd' _ _ => ha.context_id hcd hcd'
      outer := id
      madeItem := fun hle hlt => absurd hlt (Nat.not_lt.mpr hle)
      madeScope := ?_
      rooted := ?_
      rooted' := ?_
      ranked := ?_ }
  · rintro s' t' (hold | ⟨n, hn, rfl, rfl⟩)
    · exact .inl hold
    · refine .inr ⟨Nat.le_add_right .., Nat.le_add_right .., ?_, ?_, ?_⟩
      · simp [h', Heap.scopes_size_addScopes, Heap.emptyScopes, hn]
      · simp [k', Heap.scopes_size_addScopes, Heap.emptyScopes, hn]
      · rw [Heap.scope_emptyScopes hn, Heap.scope_emptyScopes hn]
        refine ⟨rfl, .nil, .nil, .nil, fun q hq => .inl ⟨s, .inl ?_⟩⟩
        cases hq
        exact hst
  -- The new scopes come after the old ones on both sides, in one order.
  · rintro s₁ t₁ s₂ t₂ (hold | ⟨n, hn, rfl, rfl⟩) (hold' | ⟨n', hn', rfl, rfl⟩) h₁ h₂
    · exact ha.scope_iff hold hold'
    · have := ha.scope hold
      omega
    · have := ha.scope hold'
      omega
    · simp
  · intro t' hle hlt
    simp only [k', Heap.scopes_size_addScopes, Heap.emptyScopes, List.length_map,
      List.length_range] at hlt
    have ht' : t'.index = k.scopes.size + (t'.index - k.scopes.size) := by omega
    exact ⟨_, .inr ⟨t'.index - k.scopes.size, by omega, rfl, congrArg ScopeId.mk ht'⟩⟩
  · refine ha.rooted.grow (.addScopes _) fun s' p hs' hp => ?_
    rw [Heap.scopes_size_addScopes]
    rcases Heap.emptyScopes_cases (p := s) hs' with heq | ⟨n, hn, -, heq⟩
    · rw [heq] at hp
      cases hp
    · rw [heq] at hp
      cases hp
      omega
  · refine ha.rooted'.grow (.addScopes _) fun t' q ht' hq => ?_
    rw [Heap.scopes_size_addScopes]
    rcases Heap.emptyScopes_cases (p := t) ht' with heq | ⟨n, hn, -, heq⟩
    · rw [heq] at hq
      cases hq
    · rw [heq] at hq
      cases hq
      omega
  · obtain ⟨rank, hrank⟩ := ha.ranked
    refine ⟨rank, ?_⟩
    rintro s' ⟨t', hold | ⟨n, hn, rfl, -⟩⟩ c hc
    · rw [Heap.scope_addScopes_lt _ (ha.scope hold).1] at hc
      exact hrank s' ⟨t', hold⟩ c hc
    · rw [Heap.scope_emptyScopes hn] at hc
      cases hc

/-- Fresh sub-scopes on both sides. -/
theorem appendFresh (hst : ρ.scopes s t) (count : Nat) :
    let ρ' := ρ.withScopes h.scopes.size k.scopes.size count
    Agree ρ' (h.appendFresh s count) (k.appendFresh t count) ∧
      Confined ρ ρ' k (k.appendFresh t count) := by
  intro ρ'
  obtain ⟨hs, ht, hal⟩ := ha.scope hst
  have hlen : (h.scope s).children.length = (k.scope t).children.length := hal.children.length_eq
  obtain ⟨ha', hconf⟩ := ha.addEmptyScopes hst (h.scope s).children.length count
  have hal' := (ha'.scope (Renaming.within_withScopes.scopes hst)).2.2
  have hids : List.Forall₂ ρ'.scopes
      ((List.range count).map fun n => ScopeId.mk (h.scopes.size + n))
      ((List.range count).map fun n => ScopeId.mk (k.scopes.size + n)) := by
    rw [List.forall₂_map_left_iff, List.forall₂_map_right_iff, List.forall₂_same]
    intro n hn
    exact .inr ⟨n, List.mem_range.mp hn, rfl, rfl⟩
  let attach := fun (g : Heap) (node : Scope) => { node with children := node.children ++
    ((List.range count).map fun n => ScopeId.mk (g.scopes.size + n)) }
  have hranked : ((h.addScopes (Heap.emptyScopes (h.scope s).children.length count s)).updateScope
      s (attach h)).Ranked ρ'.Renames := by
    -- The fresh scopes come lowest, so the others are moved up by one.
    obtain ⟨rank, hrank⟩ := ha.ranked
    refine ⟨fun x => if x.index < h.scopes.size then rank x + 1 else 0, ?_⟩
    have hold : ∀ x y, ρ.scopes x y → ∀ c ∈ (h.scope x).children,
        (if c.index < h.scopes.size then rank c + 1 else 0) < rank x + 1 := by
      intro x y hxy c hc
      have := hrank x ⟨y, hxy⟩ c hc
      split <;> omega
    rintro x ⟨y, hxy | ⟨n, hn, rfl, -⟩⟩ c hc
    · have hx := (ha.scope hxy).1
      dsimp only
      rw [if_pos hx]
      by_cases hxs : x = s
      · subst hxs
        rw [Heap.scope_updateScope_self (by rw [Heap.scopes_size_addScopes]; omega),
          Heap.scope_addScopes_lt _ hx] at hc
        rcases List.mem_append.mp hc with hc | hc
        · exact hold x y hxy c hc
        · obtain ⟨n, -, rfl⟩ := List.mem_map.mp hc
          rw [if_neg (by simp)]
          exact Nat.succ_pos _
      · rw [Heap.scope_updateScope_ne hxs, Heap.scope_addScopes_lt _ hx] at hc
        exact hold x y hxy c hc
    · have hne : (⟨h.scopes.size + n⟩ : ScopeId) ≠ s := by
        rw [ScopeId.ne_iff]
        show h.scopes.size + n ≠ s.index
        omega
      rw [Heap.scope_updateScope_ne hne, Heap.scope_emptyScopes hn] at hc
      cases hc
  obtain ⟨ha'', hconf'⟩ := ha'.updateScope (Renaming.within_withScopes.scopes hst)
    (f := attach h) (g := attach k) { hal' with children := List.rel_append hal'.children hids }
    (fun _ => .inl) hranked
  unfold Heap.appendFresh
  rw [← hlen]
  exact ⟨ha'', hconf.trans hconf'⟩

end Agree

end ScopeFlow
