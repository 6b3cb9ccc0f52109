import ScopeFlow.Proofs.Clone.Copied

/-!
# Copies of subtrees

A scope is registered before its contents are copied, and is busy until they
are. Each level of the recursion registers a scope that was not registered
before, so that the levels allowed are never used up, whatever the shape of
the heap.

`CopyRule` lists the steps of copying, and what all of them keep up is kept up
by the whole (`CopyRule.copyScopeWithin`): in particular `Copied`, where ranks
only come in to show that the top of what is copied is attached to nothing
(`copyScopeWithin_copied`).
-/

namespace ScopeFlow

/-! ## Levels -/

/-- How many of the first `n` scopes have not been copied. -/
def Session.unseen (σ : Session) : Nat → Nat
  | 0 => 0
  | n + 1 => σ.unseen n + if (σ.scopes.lookup ⟨n⟩).isSome then 0 else 1

theorem Session.unseen_le_self (σ : Session) (n : Nat) : σ.unseen n ≤ n := by
  induction n with
  | zero => exact Nat.le_refl _
  | succ n ih =>
      rw [unseen]
      split <;> omega

section

variable {σ τ : Session} (h : ∀ {s t}, σ.scopeTo s t → τ.scopeTo s t)
include h

theorem Session.lookup_isSome_mono {s : ScopeId} (hs : (σ.scopes.lookup s).isSome) :
    (τ.scopes.lookup s).isSome := by
  obtain ⟨t, ht⟩ := Option.isSome_iff_exists.mp hs
  rw [show τ.scopes.lookup s = some t from h ht]
  rfl

theorem Session.unseen_le (n : Nat) : τ.unseen n ≤ σ.unseen n := by
  induction n with
  | zero => exact Nat.le_refl _
  | succ n ih =>
      rw [unseen, unseen]
      by_cases hs : (σ.scopes.lookup ⟨n⟩).isSome
      · rw [if_pos hs, if_pos (lookup_isSome_mono h hs)]
        exact ih
      · rw [if_neg hs]
        split <;> omega

/-- Copying one scope more leaves fewer. -/
theorem Session.unseen_lt {s t : ScopeId} {n : Nat} (hs : s.index < n)
    (hno : σ.scopes.lookup s = none) (hyes : τ.scopeTo s t) : τ.unseen n < σ.unseen n := by
  induction n with
  | zero => omega
  | succ n ih =>
      rw [unseen, unseen]
      by_cases hn : s.index = n
      · have hid : (⟨n⟩ : ScopeId) = s := by
          cases s
          simp_all
        have hle := unseen_le h n
        rw [hid, hno, show τ.scopes.lookup s = some t from hyes]
        simp only [Option.isSome_some, Option.isSome_none, if_true]
        show τ.unseen n + 0 < σ.unseen n + 1
        omega
      · have hlt := ih (by omega)
        by_cases hseen : (σ.scopes.lookup ⟨n⟩).isSome
        · rw [if_pos hseen, if_pos (lookup_isSome_mono h hseen)]
          omega
        · rw [if_neg hseen]
          split <;> omega

end

/-! ## Changes to copies -/

section

variable {P : Region} {φ : OperatorId → OperatorId} {h₀ : Heap} {busy : ScopeId → Prop}
  {c : Copying} {s t : ScopeId} {f : Scope → Scope}

/-- A copy may be changed as long as its original is busy, and its parent
link at any time. -/
theorem Copied.update (hc : Copied P φ h₀ busy c) (hst : c.session.scopeTo s t)
    (hsame : ¬ busy s → (c.heap.scope t).SameContent (f (c.heap.scope t)))
    (hup : ∀ q, (f (c.heap.scope t)).parent = some q →
      (c.heap.scope t).parent = some q ∨ ∃ p, c.session.scopeTo p q) :
    Copied P φ h₀ busy ⟨c.session, c.heap.updateScope t f⟩ := by
  obtain ⟨-, hle, hlt, hparent⟩ := hc.scope hst
  exact { hc with
    kept := hc.kept.updateScope hle
    rooted := by
      refine hc.rooted.updateScope fun q hq => (hup q hq).imp_right ?_
      rintro ⟨p, hp⟩
      exact (hc.scope hp).2.2.1
    scope := by
      intro u v huv
      obtain ⟨hu, hle', hlt', hparent'⟩ := hc.scope huv
      refine ⟨hu, hle', by rw [Heap.scopes_size_updateScope]; exact hlt', ?_⟩
      intro q hq
      by_cases hv : v = t
      · subst hv
        rw [Heap.scope_updateScope_self hlt'] at hq
        rcases hup q hq with hold | hnew
        · exact hparent' q hold
        · exact hnew
      · rw [Heap.scope_updateScope_ne hv] at hq
        exact hparent' q hq
    madeScope := fun hle hlt =>
      hc.madeScope hle (Heap.scopes_size_updateScope (s := t) (f := f) ▸ hlt)
    content := by
      intro u v huv hbusy
      have hold := hc.content huv hbusy
      by_cases hv : v = t
      · subst hv
        obtain rfl := hc.scope_inj huv hst
        show (h₀.scope u).CopiedTo c.session ((c.heap.updateScope v f).scope v)
        rw [Heap.scope_updateScope_self hlt]
        exact hold.congr (hsame hbusy)
      · show (h₀.scope u).CopiedTo c.session ((c.heap.updateScope t f).scope v)
        rw [Heap.scope_updateScope_ne hv]
        exact hold }

theorem Copying.Later.update {own : ScopeId → Prop}
    (hsame : ¬ own t → (c.heap.scope t).SameContent (f (c.heap.scope t))) :
    c.Later own ⟨c.session, c.heap.updateScope t f⟩ where
  item := id
  scope := id
  graphs := rfl
  contexts := rfl
  graphCount := rfl
  contextCount := rfl
  size := Nat.le_of_eq Heap.scopes_size_updateScope.symm
  content := by
    intro u hu hno
    by_cases hut : u = t
    · subst hut
      rw [Heap.scope_updateScope_self hu]
      exact hsame hno
    · rw [Heap.scope_updateScope_ne hut]
      exact .refl

/-! ## Variables -/

theorem copyVariables_cons {name : String} {i : ItemId} {rest : List (String × ItemId)} :
    copyVariables t ((name, i) :: rest) c = copyVariables t rest
      ⟨(i.copy c).2.session, (i.copy c).2.heap.bindVariable t name (i.copy c).1⟩ := rfl

/-- Copying variables leaves sub-scopes and parents alone. -/
theorem copyVariables_shape (t : ScopeId) (l : List (String × ItemId)) : ∀ c : Copying,
    (∀ x, ((copyVariables t l c).2.heap.scope x).children = (c.heap.scope x).children) ∧
      (∀ x, ((copyVariables t l c).2.heap.scope x).parent = (c.heap.scope x).parent) ∧
      (copyVariables t l c).2.session.scopes = c.session.scopes := by
  induction l with
  | nil =>
      intro c
      exact ⟨fun _ => rfl, fun _ => rfl, rfl⟩
  | cons entry rest ih =>
      intro c
      obtain ⟨name, i⟩ := entry
      rw [copyVariables_cons]
      obtain ⟨hheap, hsession⟩ := i.copy_scopes c
      obtain ⟨hchildren, hparent, hrest⟩ := ih
        ⟨(i.copy c).2.session, (i.copy c).2.heap.bindVariable t name (i.copy c).1⟩
      have hscope := Heap.scope_congr hheap
      have hbind : ∀ x, ((i.copy c).2.heap.bindVariable t name (i.copy c).1).scope x =
          { c.heap.scope x with bindings :=
            (((i.copy c).2.heap.bindVariable t name (i.copy c).1).scope x).bindings } := by
        intro x
        rw [Heap.bindVariable, Heap.scope_updateScope, hscope, hscope]
        split
        · rename_i hx
          rw [hx.1]
        · rfl
      refine ⟨fun x => ?_, fun x => ?_, hrest.trans hsession⟩
      · rw [hchildren x, hbind x]
      · rw [hparent x, hbind x]

/-- In their order, copies of all variables are bound. -/
theorem copyVariables_binds (rest : List (String × ItemId)) :
    ∀ (done : List (String × ItemId)) (c : Copying), t.index < c.heap.scopes.size →
      List.Forall₂ (SameEntry c.session.itemTo) done (c.heap.scope t).bindings.entries →
      ((done ++ rest).map Prod.fst).Pairwise (· < ·) →
      c.Later (· = t) (copyVariables t rest c).2 ∧
        ∃ b : Bindings,
          (copyVariables t rest c).2.heap.scope t = { c.heap.scope t with bindings := b } ∧
          List.Forall₂ (SameEntry (copyVariables t rest c).2.session.itemTo) (done ++ rest)
            b.entries := by
  induction rest with
  | nil =>
      intro done c _ hdone _
      rw [List.append_nil]
      exact ⟨.refl, _, rfl, hdone⟩
  | cons entry rest ih =>
      intro done c ht hdone hsorted
      obtain ⟨name, i⟩ := entry
      obtain ⟨hlater₁, hto⟩ := i.copy_later c
      have hscopes := (i.copy_scopes c).1
      rw [copyVariables_cons]
      generalize (i.copy c).1 = j at hto ⊢
      generalize (i.copy c).2 = c₁ at hlater₁ hto hscopes ⊢
      have hscope := Heap.scope_congr hscopes
      have hlt₁ : t.index < c₁.heap.scopes.size := by rwa [hscopes]
      have hlater₂ : c₁.Later (· = t) ⟨c₁.session, c₁.heap.bindVariable t name j⟩ :=
        .update fun hno => absurd rfl hno
      -- The names come in order, so each one goes to the end.
      have hlast : ∀ x ∈ (c.heap.scope t).bindings.entries, x.1 < name := by
        intro x hx
        obtain ⟨y, hy, hxy⟩ := forall₂_mem hdone.flip hx
        rw [List.map_append, List.pairwise_append] at hsorted
        rw [← hxy.1]
        exact hsorted.2.2 y.1 (List.mem_map_of_mem hy) name (by simp)
      have hbind : (c₁.heap.bindVariable t name j).scope t = { c.heap.scope t with
          bindings := ⟨(c.heap.scope t).bindings.entries ++ [(name, j)]⟩ } := by
        rw [Heap.bindVariable, Heap.scope_updateScope_self hlt₁, hscope, Bindings.insert,
          Bindings.place_last hlast]
      have hdone₂ : List.Forall₂ (SameEntry c₁.session.itemTo) (done ++ [(name, i)])
          ((c.heap.scope t).bindings.entries ++ [(name, j)]) :=
        List.rel_append (hdone.imp fun _ _ he => ⟨he.1, hlater₁.item he.2⟩)
          (.cons ⟨rfl, hto⟩ .nil)
      obtain ⟨hlater₃, b, hb, hall⟩ := ih (done ++ [(name, i)])
        ⟨c₁.session, c₁.heap.bindVariable t name j⟩ (Nat.lt_of_lt_of_le hlt₁ hlater₂.size)
        (by rw [hbind]; exact hdone₂) (by rw [List.append_assoc]; exact hsorted)
      refine ⟨?_, b, ?_, ?_⟩
      · exact ((hlater₁.mono fun _ => False.elim).trans hlater₂ fun _ _ => id).trans hlater₃
          fun _ _ => id
      · rw [hbind] at hb
        exact hb
      · rw [List.append_assoc] at hall
        exact hall

/-- Copies of the variables of a busy scope may be bound. -/
theorem copyVariables_keeps (hP : P.Closed h₀) (hbusy : busy s) (rest : List (String × ItemId)) :
    ∀ c : Copying, Copied P φ h₀ busy c → c.session.scopeTo s t →
      (∀ entry ∈ rest, P.items entry.2) → Copied P φ h₀ busy (copyVariables t rest c).2 := by
  induction rest with
  | nil => exact fun c hc _ _ => hc
  | cons entry rest ih =>
      intro c hc hst hin
      obtain ⟨name, i⟩ := entry
      obtain ⟨hc₁, hlater₁, -, -⟩ := ItemId.copy_copied hP hc (hin _ List.mem_cons_self)
      rw [copyVariables_cons]
      generalize (i.copy c).1 = j
      generalize (i.copy c).2 = c₁ at hc₁ hlater₁ ⊢
      have hst₁ := hlater₁.scope hst
      refine ih ⟨c₁.session, c₁.heap.bindVariable t name j⟩ ?_ hst₁
        fun e he => hin e (List.mem_cons_of_mem _ he)
      exact hc₁.update hst₁ (fun hno => absurd hbusy hno) fun _ => .inl

/-! ## Adopting and registering -/

theorem adopt_eq {p q : ScopeId} : (adopt p q c).2 = ⟨c.session,
    (c.heap.setParent q (some p)).updateScope p fun node =>
      { node with children := node.children ++ [q] }⟩ := rfl

/-- What becomes of each scope when one is adopted by another. -/
theorem adopt_scope {v : ScopeId} (ht : t.index < c.heap.scopes.size)
    (hv : v.index < c.heap.scopes.size) (x : ScopeId) :
    (adopt t v c).2.heap.scope x = { c.heap.scope x with
      children := if x = t then (c.heap.scope t).children ++ [v] else (c.heap.scope x).children
      parent := if x = v then some t else (c.heap.scope x).parent } := by
  rw [adopt_eq]
  show ((c.heap.setParent v (some t)).updateScope t _).scope x = _
  rw [Heap.scope_updateScope, Heap.setParent, Heap.scopes_size_updateScope,
    Heap.scope_updateScope, Heap.scope_updateScope]
  by_cases hxt : x = t
  · subst hxt
    by_cases hxv : x = v
    · subst hxv
      simp [ht]
    · simp [ht, hxv]
  · by_cases hxv : x = v
    · subst hxv
      simp [hv, hxt]
    · simp [hxv, hxt]

/-- Adopting changes the content of the one that adopts, alone. -/
theorem adopt_later (t v : ScopeId) (c : Copying) : c.Later (· = t) (adopt t v c).2 := by
  rw [adopt_eq]
  have hlink : c.Later (· = t) ⟨c.session, c.heap.setParent v (some t)⟩ :=
    .update fun _ => ⟨rfl, rfl, rfl⟩
  have hlist : Copying.Later (· = t) ⟨c.session, c.heap.setParent v (some t)⟩
      ⟨c.session, (c.heap.setParent v (some t)).updateScope t fun node =>
        { node with children := node.children ++ [v] }⟩ := .update fun hno => absurd rfl hno
  exact hlink.trans hlist fun _ _ => id

/-- The copy of a busy scope may adopt a copy. -/
theorem adopt_copied (hc : Copied P φ h₀ busy c) (hst : c.session.scopeTo s t) (hbusy : busy s)
    {u v : ScopeId} (huv : c.session.scopeTo u v) : Copied P φ h₀ busy (adopt t v c).2 := by
  rw [adopt_eq]
  have hc₁ : Copied P φ h₀ busy ⟨c.session, c.heap.setParent v (some t)⟩ := by
    refine hc.update huv (fun _ => ⟨rfl, rfl, rfl⟩) fun q hq => .inr ⟨s, ?_⟩
    cases hq
    exact hst
  exact hc₁.update hst (fun hno => absurd hbusy hno) fun _ => .inl

/-- A copying after registering a fresh scope for one that has none. -/
def Copying.register (c : Copying) (s : ScopeId) (name : String) : Copying :=
  ⟨{ c.session with scopes := (s, ⟨c.heap.scopes.size⟩) :: c.session.scopes },
    (c.heap.newScope name).2⟩

/-- Registering leaves sub-scopes and parents alone. -/
theorem register_shape (c : Copying) (s : ScopeId) (name : String) (x : ScopeId) :
    ((c.register s name).heap.scope x).children = (c.heap.scope x).children ∧
      ((c.register s name).heap.scope x).parent = (c.heap.scope x).parent := by
  obtain ⟨title, heq⟩ := Heap.scope_newScope (h := c.heap) name x
  rw [show (c.register s name).heap.scope x = _ from heq]
  exact ⟨rfl, rfl⟩

/-- The session has the scope from then on. -/
theorem register_later (hno : c.session.scopes.lookup s = none) (name : String) :
    c.Later (fun _ => False) (c.register s name) ∧
      (c.register s name).session.scopeTo s ⟨c.heap.scopes.size⟩ := by
  have hne : ∀ {u v}, c.session.scopeTo u v → u ≠ s := by
    rintro u v h rfl
    rw [Session.scopeTo, hno] at h
    cases h
  exact ⟨{ (Copying.Later.refl : c.Later (fun _ => False) c) with
    scope := fun h => lookup_cons_iff.mpr (.inr ⟨hne h, h⟩)
    size := by simp [Copying.register, Heap.newScope]
    content := fun ht _ => by
      rw [show (c.register s name).heap.scope _ = _ from Heap.scope_newScope_lt ht]
      exact .refl }, lookup_cons_iff.mpr (.inl ⟨rfl, rfl⟩)⟩

theorem register_copied (hc : Copied P φ h₀ busy c) (hs : P.scopes s)
    (hno : c.session.scopes.lookup s = none) (name : String) :
    Copied P φ h₀ (fun u => u = s ∨ busy u) (c.register s name) := by
  obtain ⟨hlater, -⟩ := register_later hno name
  have hparent := fun x => (register_shape c s name x).2
  exact { hc with
    kept := hc.kept.trans .newScope
    rooted := by
      intro u p hp
      rw [hparent] at hp
      exact Nat.lt_of_lt_of_le (hc.rooted u p hp) hlater.size
    scope := by
      intro u v huv
      rcases lookup_cons_iff.mp huv with ⟨rfl, rfl⟩ | ⟨-, huv'⟩
      · refine ⟨hs, hc.kept.scopes, by simp [Copying.register, Heap.newScope], fun q hq => ?_⟩
        rw [hparent] at hq
        rw [Heap.scope_of_le (s := ⟨c.heap.scopes.size⟩) (Nat.le_refl _)] at hq
        cases hq
      · obtain ⟨hu, hle, hlt, hup⟩ := hc.scope huv'
        refine ⟨hu, hle, Nat.lt_of_lt_of_le hlt hlater.size, fun q hq => ?_⟩
        rw [hparent] at hq
        exact (hup q hq).imp fun _ => hlater.scope
    scope_inj := by
      intro u u' v hu hu'
      rcases lookup_cons_iff.mp hu with ⟨rfl, rfl⟩ | ⟨-, hold⟩
      · rcases lookup_cons_iff.mp hu' with ⟨rfl, -⟩ | ⟨-, hold'⟩
        · rfl
        · exact absurd (hc.scope hold').2.2.1 (Nat.lt_irrefl _)
      · rcases lookup_cons_iff.mp hu' with ⟨rfl, rfl⟩ | ⟨-, hold'⟩
        · exact absurd (hc.scope hold).2.2.1 (Nat.lt_irrefl _)
        · exact hc.scope_inj hold hold'
    madeScope := by
      intro t hle hlt
      by_cases ht : t.index < c.heap.scopes.size
      · exact (hc.madeScope hle ht).imp fun _ => hlater.scope
      · rw [Copying.register, Heap.newScope, Array.size_push] at hlt
        have ht' : t.index = c.heap.scopes.size := by omega
        exact ⟨s, lookup_cons_iff.mpr (.inl ⟨rfl, congrArg ScopeId.mk ht'.symm⟩)⟩
    scopeKeys := List.nodup_cons.mpr ⟨not_mem_keys hno, hc.scopeKeys⟩
    content := by
      intro u v huv hb
      rcases lookup_cons_iff.mp huv with ⟨rfl, -⟩ | ⟨-, huv'⟩
      · exact absurd (.inl rfl) hb
      · rw [show (c.register s name).heap.scope v = _ from
          Heap.scope_newScope_lt (hc.scope huv').2.2.1]
        exact hlater.copiedTo (hc.content huv' fun hb' => hb (.inr hb')) }

/-- A scope is busy no longer once its copy has all that it has. -/
theorem Copied.finish (hc : Copied P φ h₀ (fun u => u = s ∨ busy u) c)
    (hst : c.session.scopeTo s t) (hcopied : (h₀.scope s).CopiedTo c.session (c.heap.scope t)) :
    Copied P φ h₀ busy c :=
  { hc with
    content := by
      intro u v huv hb
      by_cases hus : u = s
      · subst hus
        obtain rfl : t = v := Option.some.inj (hst.symm.trans huv)
        exact hcopied
      · exact hc.content huv fun hb' => hb'.elim hus hb }

theorem copyChildren_cons {one : ScopeId → Copy ScopeId} {u : ScopeId} {rest : List ScopeId} :
    copyChildren one t (u :: rest) c =
      copyChildren one t rest (adopt t (one u c).1 (one u c).2).2 := rfl

theorem copyScopeWithin_found {levels : Nat} (h : c.session.scopeTo s t) :
    copyScopeWithin (levels + 1) s c = (t, c) := by
  rw [Session.scopeTo] at h
  rw [copyScopeWithin, Copy.bind_apply]
  simp only [Copy.session_apply, h]
  rfl

/-- A copying after a fresh scope has been registered and the variables have
been copied. -/
def Copying.opened (c : Copying) (s : ScopeId) (node : Scope) : Copying :=
  (copyVariables ⟨c.heap.scopes.size⟩ node.bindings.entries (c.register s node.name)).2

theorem copyScopeWithin_fresh {levels : Nat} {node : Scope}
    (h : c.session.scopes.lookup s = none) (hnode : node.SameContent (c.heap.scope s)) :
    copyScopeWithin (levels + 1) s c =
      (⟨c.heap.scopes.size⟩,
        (copyChildren (copyScopeWithin levels) ⟨c.heap.scopes.size⟩ node.children
          (c.opened s node)).2) := by
  rw [copyScopeWithin, Copy.bind_apply, Copying.opened, hnode.name, hnode.bindings, hnode.children]
  simp only [Copy.session_apply, h]
  rfl

end

/-! ## Rules -/

/-- What has come of copying a scope, where something has been kept up. -/
structure Copying.Makes (c : Copying) (I : Copying → Prop) (s : ScopeId)
    (made : ScopeId × Copying) : Prop where
  inv : I made.2
  later : c.Later (fun _ => False) made.2
  found : made.2.session.scopeTo s made.1

/-- What the steps of copying keep up, while scopes of a kind are copied from a
heap. It may depend on which scopes are busy: those that have been registered
and whose contents are being copied. -/
structure CopyRule (h₀ : Heap) (Of : ScopeId → Prop)
    (I : (ScopeId → Prop) → Copying → Prop) : Prop where
  there : ∀ {s}, Of s → s.index < h₀.scopes.size
  sorted : ∀ {s}, Of s → (h₀.scope s).bindings.Sorted
  source : ∀ {busy c s}, I busy c → Of s → (h₀.scope s).SameContent (c.heap.scope s)
  child : ∀ {busy c s}, I busy c → Of s → c.session.scopes.lookup s = none →
    ∀ u ∈ (h₀.scope s).children, Of u
  bounded : ∀ {busy c s t}, I busy c → c.session.scopeTo s t → t.index < c.heap.scopes.size
  register : ∀ {busy c s}, I busy c → Of s → c.session.scopes.lookup s = none →
    I (fun u => u = s ∨ busy u) (c.register s (h₀.scope s).name)
  binds : ∀ {busy c s t}, I busy c → Of s → busy s → c.session.scopeTo s t →
    (c.heap.scope t).bindings = .empty →
      I busy (copyVariables t (h₀.scope s).bindings.entries c).2
  adopt : ∀ {busy c s t u v done rest}, I busy c → Of s → busy s → c.session.scopeTo s t →
    c.session.scopeTo u v → (h₀.scope s).children = done ++ u :: rest →
      List.Forall₂ c.session.scopeTo done (c.heap.scope t).children → I busy (adopt t v c).2
  finish : ∀ {busy c s t}, I (fun u => u = s ∨ busy u) c → Of s → c.session.scopeTo s t →
    (h₀.scope s).CopiedTo c.session (c.heap.scope t) → I busy c

namespace CopyRule

variable {h₀ : Heap} {Of : ScopeId → Prop} {I : (ScopeId → Prop) → Copying → Prop}
  {busy : ScopeId → Prop} {c : Copying} {s t u : ScopeId} {done rest : List ScopeId}

/-- A scope is registered, and its variables are copied. -/
theorem opens (hr : CopyRule h₀ Of I) (hc : I busy c) (hs : Of s)
    (hno : c.session.scopes.lookup s = none) :
    I (fun u => u = s ∨ busy u) (c.opened s (h₀.scope s)) ∧
      c.Later (fun _ => False) (c.opened s (h₀.scope s)) ∧
      (c.opened s (h₀.scope s)).session.scopeTo s ⟨c.heap.scopes.size⟩ ∧
      (c.opened s (h₀.scope s)).session.unseen h₀.scopes.size <
        c.session.unseen h₀.scopes.size ∧
      ∃ b : Bindings, (c.opened s (h₀.scope s)).heap.scope ⟨c.heap.scopes.size⟩ =
          { Scope.named (h₀.scope s).name with bindings := b } ∧
        List.Forall₂ (SameEntry (c.opened s (h₀.scope s)).session.itemTo)
          (h₀.scope s).bindings.entries b.entries := by
  unfold Copying.opened
  have hc₁ := hr.register hc hs hno
  obtain ⟨hlater₁, hst₁⟩ := register_later hno (h₀.scope s).name
  have hself : (c.register s (h₀.scope s).name).heap.scope ⟨c.heap.scopes.size⟩ =
      .named (h₀.scope s).name := Heap.scope_newScope_self
  generalize c.register s (h₀.scope s).name = c₁ at hc₁ hlater₁ hst₁ hself ⊢
  have hc₂ := hr.binds hc₁ hs (.inl rfl) hst₁ (by rw [hself]; rfl)
  obtain ⟨hlater₂, b, hb, hbound⟩ := copyVariables_binds (h₀.scope s).bindings.entries [] c₁
    (hr.bounded hc₁ hst₁) (by rw [hself]; exact .nil) (hr.sorted hs)
  rw [hself] at hb
  have hst₂ := hlater₂.scope hst₁
  refine ⟨hc₂, hlater₁.trans hlater₂ ?_, hst₂, ?_, b, hb, hbound⟩
  · rintro t ht rfl
    exact absurd ht (Nat.lt_irrefl _)
  · exact Session.unseen_lt (fun h => hlater₂.scope (hlater₁.scope h)) (hr.there hs) hno hst₂

/-- One sub-scope is copied and attached. -/
theorem attaches (hr : CopyRule h₀ Of I) {made : ScopeId × Copying} (hc : I busy c)
    (hmade : c.Makes (I busy) u made) (hs : Of s) (hbusy : busy s) (hst : c.session.scopeTo s t)
    (hall : (h₀.scope s).children = done ++ u :: rest)
    (hdone : List.Forall₂ c.session.scopeTo done (c.heap.scope t).children) :
    I busy (ScopeFlow.adopt t made.1 made.2).2 ∧
      c.Later (· = t) (ScopeFlow.adopt t made.1 made.2).2 ∧
      ((ScopeFlow.adopt t made.1 made.2).2.heap.scope t).name = (c.heap.scope t).name ∧
      ((ScopeFlow.adopt t made.1 made.2).2.heap.scope t).bindings = (c.heap.scope t).bindings ∧
      List.Forall₂ (ScopeFlow.adopt t made.1 made.2).2.session.scopeTo (done ++ [u])
        ((ScopeFlow.adopt t made.1 made.2).2.heap.scope t).children := by
  obtain ⟨v, c₁⟩ := made
  obtain ⟨hc₁, hlater₁, hto⟩ := hmade
  have hst₁ := hlater₁.scope hst
  have hsame := hlater₁.content (hr.bounded hc hst) id
  have hdone₁ : List.Forall₂ c₁.session.scopeTo done (c₁.heap.scope t).children := by
    rw [← hsame.children]
    exact hdone.imp fun _ _ => hlater₁.scope
  have hlater₂ := adopt_later t v c₁
  have htop := adopt_scope (hr.bounded hc₁ hst₁) (hr.bounded hc₁ hto) t
  rw [if_pos rfl] at htop
  refine ⟨hr.adopt hc₁ hs hbusy hst₁ hto hall hdone₁, ?_, ?_, ?_, ?_⟩
  · exact (hlater₁.mono fun _ => False.elim).trans hlater₂ fun _ _ => id
  · rw [htop, hsame.name]
  · rw [htop, hsame.bindings]
  · rw [htop]
    exact List.rel_append (hdone₁.imp fun _ _ => hlater₂.scope) (.cons (hlater₂.scope hto) .nil)

/-- Copying sub-scopes in order attaches copies of all of them. -/
theorem children (hr : CopyRule h₀ Of I) {levels : Nat} {one : ScopeId → Copy ScopeId}
    (hone : ∀ u c, I busy c → Of u → c.session.unseen h₀.scopes.size < levels →
      c.Makes (I busy) u (one u c))
    (hs : Of s) (hbusy : busy s) (hin : ∀ u ∈ (h₀.scope s).children, Of u)
    (rest : List ScopeId) :
    ∀ (done : List ScopeId) (c : Copying), (h₀.scope s).children = done ++ rest → I busy c →
      c.session.scopeTo s t → c.session.unseen h₀.scopes.size < levels →
      List.Forall₂ c.session.scopeTo done (c.heap.scope t).children →
      I busy (copyChildren one t rest c).2 ∧
        c.Later (· = t) (copyChildren one t rest c).2 ∧
        ((copyChildren one t rest c).2.heap.scope t).name = (c.heap.scope t).name ∧
        ((copyChildren one t rest c).2.heap.scope t).bindings = (c.heap.scope t).bindings ∧
        List.Forall₂ (copyChildren one t rest c).2.session.scopeTo (h₀.scope s).children
          ((copyChildren one t rest c).2.heap.scope t).children := by
  induction rest with
  | nil =>
      intro done c hall hc _ _ hdone
      rw [hall, List.append_nil]
      exact ⟨hc, .refl, rfl, rfl, hdone⟩
  | cons u rest ih =>
      intro done c hall hc hst hlevels hdone
      have hmade := hone u c hc (hin u (by simp [hall])) hlevels
      obtain ⟨hc₁, hlater₁, hname₁, hbindings₁, hdone₁⟩ :=
        hr.attaches hc hmade hs hbusy hst hall hdone
      obtain ⟨hc₂, hlater₂, hname₂, hbindings₂, hchildren⟩ := ih (done ++ [u]) _
        (by rw [hall, List.append_assoc]; rfl) hc₁ (hlater₁.scope hst)
        (Nat.lt_of_le_of_lt (Session.unseen_le hlater₁.scope _) hlevels) hdone₁
      rw [copyChildren_cons]
      exact ⟨hc₂, hlater₁.trans hlater₂ fun _ _ => id, hname₂.trans hname₁,
        hbindings₂.trans hbindings₁, hchildren⟩

/-- What every step keeps up is kept up by the copying of subtrees, which makes
a copy and changes the content of none that was made before. -/
theorem copyScopeWithin (hr : CopyRule h₀ Of I) (levels : Nat) :
    ∀ busy s c, I busy c → Of s → c.session.unseen h₀.scopes.size < levels →
      c.Makes (I busy) s (copyScopeWithin levels s c) := by
  induction levels with
  | zero =>
      intro busy s c _ _ hlevels
      omega
  | succ levels ih =>
      intro busy s c hc hs hlevels
      cases hfound : c.session.scopes.lookup s with
      | some t =>
          rw [copyScopeWithin_found hfound]
          exact ⟨hc, .refl, hfound⟩
      | none =>
          rw [copyScopeWithin_fresh hfound (hr.source hc hs)]
          obtain ⟨hc₁, hlater₁, hst₁, hunseen, b, hb, hbound⟩ := hr.opens hc hs hfound
          have hin := hr.child hc hs hfound
          generalize c.opened s (h₀.scope s) = c₁ at hc₁ hlater₁ hst₁ hunseen hb hbound ⊢
          obtain ⟨hc₂, hlater₂, hname, hbindings, hchildren⟩ := hr.children (ih _) hs (.inl rfl)
            hin (h₀.scope s).children [] c₁ rfl hc₁ hst₁ (by omega) (by rw [hb]; exact .nil)
          have hst₂ := hlater₂.scope hst₁
          refine ⟨hr.finish hc₂ hs hst₂ ⟨?_, ?_, hchildren⟩, hlater₁.trans hlater₂ ?_, hst₂⟩
          · rw [hname, hb]
            rfl
          · rw [hbindings, hb]
            exact hbound.imp fun _ _ he => ⟨he.1, hlater₂.item he.2⟩
          · rintro t ht rfl
            exact absurd ht (Nat.lt_irrefl _)

/-- Copying sub-scopes in two ways that do the same to each of them. -/
theorem children_congr (hr : CopyRule h₀ Of I) (levels : Nat) {one other : ScopeId → Copy ScopeId}
    (hone : ∀ u c, I busy c → Of u → c.session.unseen h₀.scopes.size < levels →
      c.Makes (I busy) u (one u c) ∧ one u c = other u c)
    (hs : Of s) (hbusy : busy s) (hin : ∀ u ∈ (h₀.scope s).children, Of u)
    (rest : List ScopeId) :
    ∀ (done : List ScopeId) (c : Copying), (h₀.scope s).children = done ++ rest → I busy c →
      c.session.scopeTo s t → c.session.unseen h₀.scopes.size < levels →
      List.Forall₂ c.session.scopeTo done (c.heap.scope t).children →
      copyChildren one t rest c = copyChildren other t rest c := by
  induction rest with
  | nil =>
      intro done c _ _ _ _ _
      rfl
  | cons u rest ih =>
      intro done c hall hc hst hlevels hdone
      obtain ⟨hmade, heq⟩ := hone u c hc (hin u (by simp [hall])) hlevels
      obtain ⟨hc₁, hlater₁, -, -, hdone₁⟩ := hr.attaches hc hmade hs hbusy hst hall hdone
      rw [copyChildren_cons, copyChildren_cons, ← heq]
      exact ih (done ++ [u]) _ (by rw [hall, List.append_assoc]; rfl) hc₁ (hlater₁.scope hst)
        (Nat.lt_of_le_of_lt (Session.unseen_le hlater₁.scope _) hlevels) hdone₁

/-- More levels than scopes that are left to copy change nothing. -/
theorem copyScopeWithin_eq (hr : CopyRule h₀ Of I) (n : Nat) :
    ∀ m busy s c, I busy c → Of s → c.session.unseen h₀.scopes.size < n →
      c.session.unseen h₀.scopes.size < m →
      ScopeFlow.copyScopeWithin n s c = ScopeFlow.copyScopeWithin m s c := by
  induction n with
  | zero =>
      intro m busy s c _ _ hn _
      omega
  | succ n ih =>
      intro m busy s c hc hs hn hm
      obtain ⟨m, rfl⟩ : ∃ k, m = k + 1 := ⟨m - 1, by omega⟩
      cases hfound : c.session.scopes.lookup s with
      | some t => rw [copyScopeWithin_found hfound, copyScopeWithin_found hfound]
      | none =>
          have hsame := hr.source hc hs
          rw [copyScopeWithin_fresh hfound hsame, copyScopeWithin_fresh hfound hsame]
          obtain ⟨hc₁, -, hst₁, hunseen, b, hb, -⟩ := hr.opens hc hs hfound
          have hrest := hr.children_congr (min n m)
            (fun u c hc hu hlevels => ⟨hr.copyScopeWithin n _ u c hc hu (by omega),
              ih m _ u c hc hu (by omega) (by omega)⟩) hs (.inl rfl) (hr.child hc hs hfound)
            (h₀.scope s).children [] _ rfl hc₁ hst₁ (by omega) (by rw [hb]; exact .nil)
          rw [hrest]

/-- What depends on how scopes are tied together is kept up as well if
adopting does. -/
theorem along (hr : CopyRule h₀ Of I) {J : Copying → Prop}
    (hsame : ∀ {c c' : Copying}, J c →
      (∀ {p q}, c.session.scopeTo p q → c'.session.scopeTo p q) →
      (∀ x, (c'.heap.scope x).children = (c.heap.scope x).children) →
      (∀ x, (c'.heap.scope x).parent = (c.heap.scope x).parent) → J c')
    (hadopt : ∀ {busy c s t u v done rest}, I busy c → J c → Of s → c.session.scopeTo s t →
      c.session.scopeTo u v → (h₀.scope s).children = done ++ u :: rest →
        List.Forall₂ c.session.scopeTo done (c.heap.scope t).children →
          J (ScopeFlow.adopt t v c).2) :
    CopyRule h₀ Of fun busy c => I busy c ∧ J c where
  there := hr.there
  sorted := hr.sorted
  source := fun hc => hr.source hc.1
  child := fun hc => hr.child hc.1
  bounded := fun hc => hr.bounded hc.1
  register := by
    intro busy c s hc hs hno
    have hshape := register_shape c s (h₀.scope s).name
    exact ⟨hr.register hc.1 hs hno, hsame hc.2 (register_later hno _).1.scope
      (fun x => (hshape x).1) fun x => (hshape x).2⟩
  binds := by
    intro busy c s t hc hs hbusy hst hempty
    obtain ⟨hchildren, hparent, hsession⟩ := copyVariables_shape t (h₀.scope s).bindings.entries c
    refine ⟨hr.binds hc.1 hs hbusy hst hempty, hsame hc.2 (fun hpq => ?_) hchildren hparent⟩
    rwa [Session.scopeTo, hsession]
  adopt := fun hc hs hbusy hst huv hall hdone =>
    ⟨hr.adopt hc.1 hs hbusy hst huv hall hdone, hadopt hc.1 hc.2 hs hst huv hall hdone⟩
  finish := fun hc hs hst hcopied => ⟨hr.finish hc.1 hs hst hcopied, hc.2⟩

end CopyRule

/-! ## Subtrees -/

section

variable {P : Region} {φ : OperatorId → OperatorId} {h₀ : Heap} {busy : ScopeId → Prop}
  {c : Copying} {s t : ScopeId}

/-- What a copy of a scope comes to. Only copies of what is below the scope
get another parent. -/
structure ScopeCopied (P : Region) (φ : OperatorId → OperatorId) (h₀ : Heap)
    (rank : ScopeId → Nat) (busy : ScopeId → Prop) (s : ScopeId) (c : Copying)
    (made : ScopeId × Copying) : Prop where
  copied : Copied P φ h₀ busy made.2
  later : c.Later (fun _ => False) made.2
  found : made.2.session.scopeTo s made.1
  parent : ∀ {v}, (∀ u, made.2.session.scopeTo u v → rank s ≤ rank u) →
    (made.2.heap.scope v).parent = (c.heap.scope v).parent

/-- The invariant is kept up while scopes of the region are copied. -/
theorem Copied.rule (hP : P.Closed h₀) {Of : ScopeId → Prop} (hOf : ∀ s, Of s → P.scopes s)
    (hchild : ∀ s, Of s → ∀ u ∈ (h₀.scope s).children, Of u) :
    CopyRule h₀ Of (Copied P φ h₀) where
  there := fun hs => hP.scope (hOf _ hs)
  sorted := fun hs => hP.sorted (hOf _ hs)
  source := by
    intro busy c s hc hs
    rw [hc.kept.scope (hP.scope (hOf s hs))]
    exact .refl
  child := fun _ hs _ => hchild _ hs
  bounded := fun hc hst => (hc.scope hst).2.2.1
  register := fun hc hs hno => register_copied hc (hOf _ hs) hno _
  binds := fun hc hs hbusy hst _ =>
    copyVariables_keeps hP hbusy _ _ hc hst (hP.bound (hOf _ hs))
  adopt := fun hc _ hbusy hst huv _ _ => adopt_copied hc hst hbusy huv
  finish := fun hc _ => hc.finish

theorem copyScopeWithin_copied (hP : P.Closed h₀) {rank : ScopeId → Nat}
    (hrank : ∀ s, P.scopes s → ∀ u ∈ (h₀.scope s).children, rank u < rank s) (levels : Nat)
    (hc : Copied P φ h₀ busy c) (hs : P.scopes s)
    (hlevels : c.session.unseen h₀.scopes.size < levels) :
    ScopeCopied P φ h₀ rank busy s c (copyScopeWithin levels s c) := by
  have hbelow : ∀ x, P.scopes x ∧ rank x ≤ rank s → ∀ u ∈ (h₀.scope x).children,
      P.scopes u ∧ rank u ≤ rank s := by
    intro x hx u hu
    have := hrank x hx.1 u hu
    exact ⟨hP.child hx.1 u hu, by omega⟩
  have hr := (Copied.rule (φ := φ) hP (fun _ hx => hx.1) hbelow).along
    (J := fun c' => ∀ v, (∀ u, c'.session.scopeTo u v → rank s ≤ rank u) →
      (c'.heap.scope v).parent = (c.heap.scope v).parent)
    (fun hj hscope _ hparent v hv => by
      rw [hparent]
      exact hj v fun u huv => hv u (hscope huv))
    (fun {_ c' x t u v done rest} hc' hj hx hst huv hall _ y hy => by
      -- What is adopted is the copy of a scope that ranks lower.
      have hne : y ≠ v := by
        rintro rfl
        have := hy u huv
        have := hrank x hx.1 u (by simp [hall])
        have := hx.2
        omega
      rw [adopt_scope (hc'.scope hst).2.2.1 (hc'.scope huv).2.2.1]
      exact (if_neg hne).trans (hj y hy))
  obtain ⟨⟨hcopied, hparent⟩, hlater, hfound⟩ :=
    hr.copyScopeWithin levels busy s c ⟨hc, fun _ _ => rfl⟩ ⟨hs, Nat.le_refl _⟩ hlevels
  exact ⟨hcopied, hlater, hfound, fun hv => hparent _ hv⟩

/-- The copy of a scope of the region with all that is below it. -/
theorem ScopeId.copy_copied (hP : P.Closed h₀) {rank : ScopeId → Nat}
    (hrank : ∀ s, P.scopes s → ∀ u ∈ (h₀.scope s).children, rank u < rank s)
    (hc : Copied P φ h₀ busy c) (hs : P.scopes s) :
    ScopeCopied P φ h₀ rank busy s c (s.copy c) := by
  refine copyScopeWithin_copied hP hrank (c.heap.scopes.size + 1) hc hs ?_
  have := Session.unseen_le_self c.session h₀.scopes.size
  have := hc.kept.scopes
  omega

end

end ScopeFlow
