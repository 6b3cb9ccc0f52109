import ScopeFlow.Proofs.Footprint.Access

/-!
# Sub-scopes where heaps match

The same changes of a list of sub-scopes, on both sides: one removed, all
removed, empty ones appended, a copy of one appended. For the copy, heaps have
to match on all that is below the scope copied; they agree then on the subtree
as a whole (`HeapsMatch.subtree`), for sorted bindings are alike if they are so
name by name, and each part of the one copy stands for the same part of the
other (`HeapsMatch.graft`).
-/

namespace ScopeFlow

/-! ## Changes of sub-scopes -/

namespace Heap.KeepsBut

variable {h : Heap} {s : ScopeId}

/-- Another list of sub-scopes for one scope. -/
theorem relist (l : List ScopeId → List ScopeId) :
    h.KeepsBut {.children s} (h.updateScope s fun node =>
      { node with children := l node.children }) := by
  have hsame : ∀ t, ((h.updateScope s fun node =>
      { node with children := l node.children }).scope t).name = (h.scope t).name ∧
      ((h.updateScope s fun node =>
        { node with children := l node.children }).scope t).bindings = (h.scope t).bindings := by
    intro t
    rw [scope_updateScope]
    split
    · rename_i hand
      rw [hand.1]
      exact ⟨rfl, rfl⟩
    · exact ⟨rfl, rfl⟩
  refine .of_items rfl scopes_size_updateScope (fun t => (hsame t).1) (fun t name _ => ?_)
    fun t hno => ?_
  · rw [Heap.binding?, Heap.binding?, (hsame t).2]
  · rw [scope_updateScope_ne fun hts => hno (congrArg Place.children hts)]

theorem setParent (c : ScopeId) (p : Option ScopeId) {V : Set Place} :
    h.KeepsBut V (h.setParent c p) := by
  have hsame : ∀ t, ((h.setParent c p).scope t).name = (h.scope t).name ∧
      ((h.setParent c p).scope t).bindings = (h.scope t).bindings ∧
      ((h.setParent c p).scope t).children = (h.scope t).children := by
    intro t
    rw [Heap.setParent, scope_updateScope]
    split
    · rename_i hand
      rw [hand.1]
      exact ⟨rfl, rfl, rfl⟩
    · exact ⟨rfl, rfl, rfl⟩
  refine .of_items rfl scopes_size_updateScope (fun t => (hsame t).1) (fun t name _ => ?_)
    fun t _ => (hsame t).2.2
  rw [Heap.binding?, Heap.binding?, (hsame t).2.1]

theorem detachAll (cs : List ScopeId) {V : Set Place} : h.KeepsBut V (h.detachAll cs) := by
  induction cs generalizing h with
  | nil => exact .refl
  | cons c cs ih => exact (setParent c none).trans ih

theorem removeChild (place : Nat) : h.KeepsBut {.children s} (h.removeChild s place).2 := by
  unfold Heap.removeChild
  split
  · exact .refl
  · exact (relist fun cs => cs.eraseIdx place).trans (setParent _ _)

theorem clearChildren : h.KeepsBut {.children s} (h.clearChildren s).2 :=
  (relist fun _ => []).trans (detachAll _)

end Heap.KeepsBut

/-- Appending is making scopes and listing them. -/
theorem Heap.appendFresh_eq (h : Heap) (s : ScopeId) (count : Nat) :
    h.appendFresh s count =
      (h.addScopes (emptyScopes (h.scope s).children.length count s)).updateScope s fun node =>
        { node with children := node.children ++
          (List.range count).map fun i => ScopeId.mk (h.scopes.size + i) } := rfl

theorem Heap.appendFresh_zero (h : Heap) (s : ScopeId) : h.appendFresh s 0 = h := by
  have hid : (fun node : Scope => { node with children := node.children ++ [] }) = id :=
    funext fun node => by rw [List.append_nil]; rfl
  have hmodify : h.scopes.modify s.index id = h.scopes := by
    refine Array.ext (Array.size_modify ..) fun n _ _ => ?_
    rw [Array.getElem_modify]
    split <;> rfl
  show (h.addScopes []).updateScope s (fun node : Scope =>
    { node with children := node.children ++ [] }) = h
  rw [hid, Heap.updateScope, addScopes_scopes, Array.append_empty, hmodify]
  rfl

/-- One pairing and fresh scopes of two heaps, each with the one made at the
same time. -/
def Pairing.withScopes (ρ : Pairing) (m n count : Nat) : Pairing :=
  { ρ with scopes := fun s t => ρ.scopes s t ∨ ∃ i < count, s = ⟨m + i⟩ ∧ t = ⟨n + i⟩ }

namespace HeapsMatch

variable {T W : Set Place} {ρ : Pairing} {h k : Heap} {s t : ScopeId} (hm : HeapsMatch T ρ h k)
include hm

/-- The same sub-scope is removed on both sides, if there is one at the place. -/
theorem removeChild (hf : h.Forest) (hf' : k.Forest) (hst : ρ.scopes s t)
    (hT : .children s ∈ T) (hW : .children s ∈ W) (place : Nat) :
    InStep T W ρ ρ h (h.removeChild s place).2 k (k.removeChild t place).2 ∧
      Option.Rel ρ.scopes (h.removeChild s place).1 (k.removeChild t place).1 := by
  have hchildren := hm.children hst hT
  obtain ⟨hs, ht, -⟩ := hm.scope hst
  have hfound := forall₂_getElem? hchildren place
  cases hc : (h.scope s).children[place]? with
  | none =>
      cases hd : (k.scope t).children[place]? with
      | none =>
          rw [Heap.removeChild, Heap.removeChild, hc, hd]
          exact ⟨hm.still, .none⟩
      | some d =>
          rw [hc, hd] at hfound
          cases hfound
  | some c =>
      cases hd : (k.scope t).children[place]? with
      | none =>
          rw [hc, hd] at hfound
          cases hfound
      | some d =>
          refine ⟨hm.write (.children hst) hW (.removeChild place) (.removeChild place) ?_, ?_⟩
          · rw [Heap.content, Heap.content,
              Heap.scope_removeChild hs hc (hf.child _ _ (List.mem_of_getElem? hc)),
              Heap.scope_removeChild ht hd (hf'.child _ _ (List.mem_of_getElem? hd))]
            dsimp only
            rw [if_pos rfl, if_pos rfl]
            exact .listed (forall₂_eraseIdx hchildren place)
          · rw [hc, hd] at hfound
            rw [Heap.removeChild, Heap.removeChild, hc, hd]
            exact hfound

theorem clearChildren (hf : h.Forest) (hf' : k.Forest) (hst : ρ.scopes s t)
    (hW : .children s ∈ W) :
    InStep T W ρ ρ h (h.clearChildren s).2 k (k.clearChildren t).2 := by
  obtain ⟨hs, ht, -⟩ := hm.scope hst
  refine hm.write (.children hst) hW .clearChildren .clearChildren ?_
  rw [Heap.content, Heap.content, Heap.scope_clearChildren hs (hf.child _),
    Heap.scope_clearChildren ht (hf'.child _)]
  dsimp only
  rw [if_pos rfl, if_pos rfl]
  exact .listed .nil

/-- So many empty scopes are made on both sides. -/
theorem addScopes (first count : Nat) (s t : ScopeId) :
    InStep T W ρ (ρ.withScopes h.scopes.size k.scopes.size count) h
      (h.addScopes (Heap.emptyScopes first count s)) k
      (k.addScopes (Heap.emptyScopes first count t)) := by
  have hlength : ∀ p, (Heap.emptyScopes first count p).length = count := fun p => by
    rw [Heap.emptyScopes, List.length_map, List.length_range]
  have hsize : (h.addScopes (Heap.emptyScopes first count s)).scopes.size =
      h.scopes.size + count := by rw [Heap.scopes_size_addScopes, hlength]
  have hsize' : (k.addScopes (Heap.emptyScopes first count t)).scopes.size =
      k.scopes.size + count := by rw [Heap.scopes_size_addScopes, hlength]
  have hfresh : ∀ {a b}, (ρ.withScopes h.scopes.size k.scopes.size count).scopes a b →
      h.scopes.size ≤ a.index → ∃ i < count, a = ⟨h.scopes.size + i⟩ ∧ b = ⟨k.scopes.size + i⟩ := by
    rintro a b (hab | hnew) ha
    · have := hm.scope hab
      omega
    · exact hnew
  refine hm.advance (V := ∅) ⟨⟨id, .inl⟩, .inl, fun hij _ hi _ => ?_, ?_, ?_⟩ (Set.empty_subset _)
    (.of_kept (.addScopes _)) (.of_kept (.addScopes _)) ?_
  · have := hm.item hij
    omega
  · rintro a b (hab | ⟨i, hi, rfl, rfl⟩)
    · exact .inl hab
    · refine .inr ⟨?_, ?_, ?_⟩
      · simp only [hsize]
        omega
      · simp only [hsize']
        omega
      · rw [Heap.scope_emptyScopes hi, Heap.scope_emptyScopes hi]
  · intro a b a' b' hab hab' ha ha'
    obtain ⟨i, -, rfl, rfl⟩ := hfresh hab ha
    obtain ⟨j, -, rfl, rfl⟩ := hfresh hab' ha'
    simp only [ScopeId.mk.injEq]
    omega
  · rintro x y hxy (hno | hx)
    · cases hxy with
      | binding hst name =>
          obtain ⟨i, hi, rfl, rfl⟩ := hfresh hst (Nat.not_lt.mp hno)
          rw [Heap.content, Heap.content, Heap.binding?, Heap.binding?, Heap.scope_emptyScopes hi,
            Heap.scope_emptyScopes hi]
          exact .bound .none
      | item hij => exact absurd (hm.item hij).1 hno
      | children hst =>
          obtain ⟨i, hi, rfl, rfl⟩ := hfresh hst (Nat.not_lt.mp hno)
          rw [Heap.content, Heap.content, Heap.scope_emptyScopes hi, Heap.scope_emptyScopes hi]
          exact .listed .nil
    · exact absurd hx (Set.notMem_empty x)

theorem appendFresh (hst : ρ.scopes s t) (hT : .children s ∈ T) (hW : .children s ∈ W)
    (count : Nat) : ∃ ρ', InStep T W ρ ρ' h (h.appendFresh s count) k (k.appendFresh t count) := by
  have hchildren := hm.children hst hT
  have hmade := hm.addScopes (W := W) (h.scope s).children.length count s t
  have hm' := hmade.matched
  have hst' := hmade.within.scopes hst
  obtain ⟨hs, ht, -⟩ := hm'.scope hst'
  have hfresh : List.Forall₂ (ρ.withScopes h.scopes.size k.scopes.size count).scopes
      ((List.range count).map fun i => ScopeId.mk (h.scopes.size + i))
      ((List.range count).map fun i => ScopeId.mk (k.scopes.size + i)) := by
    rw [List.forall₂_map_left_iff, List.forall₂_map_right_iff, List.forall₂_same]
    exact fun i hi => .inr ⟨i, List.mem_range.mp hi, rfl, rfl⟩
  rw [Heap.appendFresh_eq, Heap.appendFresh_eq, ← hchildren.length_eq]
  refine ⟨_, hmade.trans (hm'.write (.children hst') hW (.relist fun cs => cs ++ _)
    (.relist fun cs => cs ++ _) ?_)⟩
  rw [Heap.content, Heap.content, Heap.scope_updateScope_self hs, Heap.scope_updateScope_self ht]
  exact .listed (List.rel_append (hm'.children hst' hT) hfresh)

end HeapsMatch

/-! ## Copies -/

namespace Bindings

variable {R : ItemId → ItemId → Prop}

theorem lookup_eq_none {name : String} {l : List (String × ItemId)} (h : ∀ e ∈ l, name < e.1) :
    lookup name l = none := by
  induction l with
  | nil => rfl
  | cons e l ih =>
      have hne : e.1 ≠ name := (String.ne_of_lt (h e List.mem_cons_self)).symm
      rw [lookup, if_neg hne]
      exact ih fun e he => h e (List.mem_cons_of_mem _ he)

/-- Ascending lists are alike if the same names are found in them, bound to what
corresponds. -/
theorem same_of_lookup (l : List (String × ItemId)) :
    ∀ {l'}, (l.map Prod.fst).Pairwise (· < ·) → (l'.map Prod.fst).Pairwise (· < ·) →
      (∀ name, Option.Rel R (lookup name l) (lookup name l')) →
        List.Forall₂ (SameEntry R) l l' := by
  induction l with
  | nil =>
      intro l' _ _ h
      cases l' with
      | nil => exact .nil
      | cons e l' =>
          have hfirst := h e.1
          rw [lookup, lookup, if_pos rfl] at hfirst
          cases hfirst
  | cons e l ih =>
      intro l' hs hs' h
      obtain ⟨n, i⟩ := e
      cases l' with
      | nil =>
          have hfirst := h n
          rw [lookup, lookup, if_pos rfl] at hfirst
          cases hfirst
      | cons e' l' =>
          obtain ⟨m, j⟩ := e'
          obtain ⟨hlow, hrest⟩ := List.pairwise_cons.mp hs
          obtain ⟨hlow', hrest'⟩ := List.pairwise_cons.mp hs'
          have hl : ∀ e ∈ l, n < e.1 := fun e he => hlow _ (List.mem_map_of_mem he)
          have hl' : ∀ e ∈ l', m < e.1 := fun e he => hlow' _ (List.mem_map_of_mem he)
          -- The first names are the same: a lower one would not be found on the other side.
          have hnm : n = m := by
            rcases Std.lt_trichotomy n m with hlt | heq | hgt
            · have hfirst := h n
              rw [lookup, if_pos rfl, lookup_eq_none (l := (m, j) :: l')] at hfirst
              · cases hfirst
              · intro e he
                rcases List.mem_cons.mp he with rfl | he
                · exact hlt
                · exact String.lt_trans hlt (hl' e he)
            · exact heq
            · have hfirst := h m
              rw [lookup_eq_none (l := (n, i) :: l), lookup, if_pos rfl] at hfirst
              · cases hfirst
              · intro e he
                rcases List.mem_cons.mp he with rfl | he
                · exact hgt
                · exact String.lt_trans hgt (hl e he)
          subst hnm
          refine .cons ⟨rfl, ?_⟩ (ih hrest hrest' fun name => ?_)
          · have hfirst := h n
            rw [lookup, lookup, if_pos rfl, if_pos rfl] at hfirst
            cases hfirst with
            | some hij => exact hij
          · by_cases hname : n = name
            · subst hname
              rw [lookup_eq_none hl, lookup_eq_none hl']
              exact .none
            · have hnext := h name
              rw [lookup, lookup, if_neg hname, if_neg hname] at hnext
              exact hnext

end Bindings

namespace HeapsMatch

variable {T W : Set Place} {ρ : Pairing} {h k : Heap} {s t u v : ScopeId}

/-- The part of a pairing that is below a scope. -/
def below (ρ : Pairing) (h k : Heap) (u : ScopeId) : Renaming where
  items i j := ρ.items i j ∧ ∃ a name, h.Below u a ∧ h.binding? a name = some i
  scopes a b := ρ.scopes a b ∧ h.Below u a
  graphs _ _ := False
  contexts _ _ := False
  outer q := q.index < k.scopes.size

/-- Where they match on all that is below a scope, forests agree on it. -/
theorem subtree (hm : HeapsMatch T ρ h k) (hf : h.Forest) (hf' : k.Forest)
    (hT : h.contents u ⊆ T) : Agree (below ρ h k u) h k where
  item := by
    rintro i j ⟨hij, a, name, hbelow, hbound⟩
    have hi : .item i ∈ T := hT ⟨a, hbelow, name, hbound⟩
    exact ⟨(hm.item hij).1, (hm.item hij).2, hm.value hij hi⟩
  item_iff := fun hij hij' => hm.item_iff hij.1 hij'.1
  scope := by
    rintro a b ⟨hab, hbelow⟩
    obtain ⟨ha, hb, hname⟩ := hm.scope hab
    refine ⟨ha, hb, hname, ?_, hf.sorted a, ?_, fun q hq => .inr (hf'.rooted b q hq)⟩
    · refine Bindings.same_of_lookup _ (hf.sorted a) (hf'.sorted b) fun name => ?_
      have hmem : Place.binding a name ∈ h.contents u := ⟨a, hbelow, rfl⟩
      have hrel := hm.binding? hab (hT hmem)
      have hbound : ∀ i, h.binding? a name = some i → ∃ a name, h.Below u a ∧
          h.binding? a name = some i := fun i hi => ⟨a, name, hbelow, hi⟩
      show Option.Rel _ (h.binding? a name) (k.binding? b name)
      generalize h.binding? a name = x at hrel hbound ⊢
      generalize k.binding? b name = y at hrel ⊢
      cases hrel with
      | none => exact .none
      | some hij => exact .some ⟨hij, hbound _ rfl⟩
    · have hmem : Place.children a ∈ h.contents u := ⟨a, hbelow, rfl⟩
      have hrel := hm.children hab (hT hmem)
      exact ((List.forall₂_and_left _ _).mpr ⟨fun c hc => hbelow.child hc, hrel⟩).imp
        fun _ _ => And.symm
  scope_iff := fun hst hst' => hm.scope_iff hst.1 hst'.1
  graph := False.elim
  graph_id := fun h _ _ => h.elim
  context := False.elim
  context_id := fun h _ _ => h.elim
  outer := id
  rooted := hf.rooted
  rooted' := hf'.rooted
  ranked := by
    obtain ⟨rank, hrank⟩ := hf.ranked
    exact ⟨rank, fun a _ => hrank a trivial⟩

end HeapsMatch

/-- The items and scopes of a renaming. -/
def Renaming.pairing (σ : Renaming) : Pairing := ⟨σ.items, σ.scopes⟩

theorem Heap.KeepsBut.attach {h : Heap} {s c : ScopeId} (hs : s.index < h.scopes.size)
    (hc : c.index < h.scopes.size) (place : Nat) :
    h.KeepsBut {.children s} (h.attach s place c) := by
  refine .of_items rfl (scopes_size_attach s place c) (fun t => ?_) (fun t name _ => ?_)
    fun t hno => ?_
  · rw [scope_attach hs hc]
  · rw [Heap.binding?, Heap.binding?, scope_attach hs hc]
  · rw [scope_attach hs hc]
    exact if_neg fun hts => hno (congrArg Place.children hts)

namespace HeapsMatch

variable {T W : Set Place} {ρ : Pairing} {σ : Renaming} {h h' k k' : Heap} {s t u v : ScopeId}

/-- New parts that agree are made on both sides. -/
theorem absorb (hm : HeapsMatch T ρ h k) (ha : Agree σ h' k') (hh : h.Kept h') (hk : k.Kept k')
    (hitem : ∀ {i j}, σ.items i j → ρ.items i j ∨ h.items.size ≤ i.index ∧ k.items.size ≤ j.index)
    (hscope : ∀ {s t}, σ.scopes s t →
      ρ.scopes s t ∨ h.scopes.size ≤ s.index ∧ k.scopes.size ≤ t.index) :
    InStep T W ρ (ρ.join σ.pairing) h h' k k' := by
  have hitem' : ∀ {i j}, (ρ.join σ.pairing).items i j → h.items.size ≤ i.index → σ.items i j := by
    rintro i j (hij | hij) hi
    · have := hm.item hij
      omega
    · exact hij
  have hscope' : ∀ {s t}, (ρ.join σ.pairing).scopes s t → h.scopes.size ≤ s.index → σ.scopes s t := by
    rintro s t (hst | hst) hs
    · have := hm.scope hst
      omega
    · exact hst
  refine hm.advance (V := ∅) ⟨⟨.inl, .inl⟩, ?_, ?_, ?_, ?_⟩ (Set.empty_subset _) (.of_kept hh)
    (.of_kept hk) ?_
  · rintro i j (hij | hij)
    · exact .inl hij
    · obtain ⟨hi, hj, -⟩ := ha.item hij
      exact (hitem hij).imp id fun hle => ⟨⟨hle.1, hi⟩, hle.2, hj⟩
  · exact fun hij hij' hi hi' => ha.item_iff (hitem' hij hi) (hitem' hij' hi')
  · rintro s t (hst | hst)
    · exact .inl hst
    · obtain ⟨hs, ht, halike⟩ := ha.scope hst
      exact (hscope hst).imp id fun hle => ⟨⟨hle.1, hs⟩, ⟨hle.2, ht⟩, halike.name⟩
  · exact fun hst hst' hs hs' => ha.scope_iff (hscope' hst hs) (hscope' hst' hs')
  · rintro x y hxy (hno | hx)
    · cases hxy with
      | binding hst name =>
          have hrel := ha.binding?_alike (hscope' hst (Nat.not_lt.mp hno)) name
          exact .bound (rel_imp .inr hrel)
      | item hij =>
          rw [Heap.content, Heap.content, ha.value_eq (hitem' hij (Nat.not_lt.mp hno))]
          exact .value _
      | children hst =>
          have halike := (ha.scope (hscope' hst (Nat.not_lt.mp hno))).2.2
          exact .listed (halike.children.imp fun _ _ => .inr)
    · exact absurd hx (Set.notMem_empty x)

/-- A copy of a subtree is attached on both sides. -/
theorem graft (hm : HeapsMatch T ρ h k) (hf : h.Forest) (hf' : k.Forest) (hst : ρ.scopes s t)
    (huv : ρ.scopes u v) (hT : h.contents u ⊆ T) (hlist : .children s ∈ T)
    (hW : .children s ∈ W) (name : String) :
    Act.Follows T W ρ (fun _ => Eq)
      (Act.change (fun h => h.copyAlone u.copy) >>= fun x =>
        Act.modify (fun h => h.rename x name) >>= fun _ => Act.commit fun h => h.addChild s x)
      (Act.change (fun k => k.copyAlone v.copy) >>= fun y =>
        Act.modify (fun k => k.rename y name) >>= fun _ => Act.commit fun k => k.addChild t y)
      h k := by
  obtain ⟨hs, ht, -⟩ := hm.scope hst
  have ha := hm.subtree hf hf' hT
  have huv' : (below ρ h k u).scopes u v := ⟨huv, .self⟩
  obtain ⟨σ, hc, hux, hparent⟩ := ScopeId.copyAlone_spec ha.source_closed ⟨v, huv'⟩
  obtain ⟨τ, hd, hvy, hparent'⟩ :=
    ScopeId.copyAlone_spec ha.diagonal.source_closed ⟨v, rfl, u, huv'⟩
  obtain ⟨hcopies, -, -⟩ := ha.copies_below huv' hc hux hd
  obtain ⟨hrenamed, -⟩ := hcopies.rename (.inr ⟨u, v, huv', hux, hvy⟩) name
  have hx := Act.commit_apply (f := fun h => h.copyAlone u.copy)
    (g := fun x h => h.rename x name) (r := fun x h => h.addChild s x)
    (hc.addChild_ok hf.rooted hs hux hparent name)
  have hy := Act.commit_apply (f := fun h => h.copyAlone v.copy)
    (g := fun x h => h.rename x name) (r := fun x h => h.addChild t x)
    (hd.addChild_ok hf'.rooted ht hvy hparent' name)
  generalize h.copyAlone u.copy = copy at hc hux hcopies hrenamed hx
  generalize k.copyAlone v.copy = copy' at hd hvy hcopies hrenamed hy
  obtain ⟨x, h₁⟩ := copy
  obtain ⟨y, k₁⟩ := copy'
  obtain ⟨-, hlex, hltx, -⟩ := hc.scope hux
  obtain ⟨-, hley, hlty, -⟩ := hd.scope hvy
  -- Until the copy is attached, nothing that was there before has changed.
  have hgrown : InStep T W ρ (ρ.join ((below ρ h k u).withCopies σ τ).pairing) h (h₁.rename x name) k
      (k₁.rename y name) := by
    refine hm.absorb hrenamed (hc.kept.updateScope hlex) (hd.kept.updateScope hley) ?_ ?_
    · rintro i j (hij | ⟨i₀, j₀, -, hi, hj⟩)
      · exact .inl hij.1
      · exact .inr ⟨(hc.item hi).2.1, (hd.item hj).2.1⟩
    · rintro a b (hab | ⟨a₀, b₀, -, hac, hbc⟩)
      · exact .inl hab.1
      · exact .inr ⟨(hc.scope hac).2.1, (hd.scope hbc).2.1⟩
  intro a h' hok
  rw [hx] at hok
  cases hok
  refine ⟨ρ.join ((below ρ h k u).withCopies σ τ).pairing, (), _, hy, rfl, hgrown.trans ?_⟩
  have hm' := hgrown.matched
  have hst' := hgrown.within.scopes hst
  obtain ⟨hs', ht', -⟩ := hm'.scope hst'
  have hsize : x.index < (h₁.rename x name).scopes.size := by
    rw [Heap.rename, Heap.scopes_size_updateScope]
    exact hltx
  have hsize' : y.index < (k₁.rename y name).scopes.size := by
    rw [Heap.rename, Heap.scopes_size_updateScope]
    exact hlty
  refine hm'.write (.children hst') hW (.attach hs' hsize _) (.attach ht' hsize' _) ?_
  have hchildren := hm'.children hst' hlist
  rw [Heap.content, Heap.content, Heap.scope_attach hs' hsize, Heap.scope_attach ht' hsize']
  dsimp only
  rw [if_pos rfl, if_pos rfl, ← hchildren.length_eq]
  exact .listed (forall₂_insertIdx hchildren (.inr (.inr ⟨u, v, huv', hux, hvy⟩)) _)

end HeapsMatch

end ScopeFlow
