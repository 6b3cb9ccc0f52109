import ScopeFlow.Proofs.Operator.BuiltIn
import ScopeFlow.Proofs.Scope.Aliasing

/-!
# What an execution leaves alone

Work in a context reaches no further than the context: variables are bound and
unbound in scopes that the context searches, only items seen there get another
value, and only the bound scope gets other sub-scopes. `Context.Local` says so
of a heap and what has become of it, scope by scope and item by item;
`Context.execute_local` says it of every execution.

Most operators do less. Composites look at the heap and change nothing in it
(`Heap.Untouched`), and of the others none but the counter gives an item that
was there another value (`Heap.ItemsKept`).
-/

namespace ScopeFlow

open Relation (ReflTransGen)

/-! ## Within a context -/

/-- What has become of a heap by work in a context. -/
structure Context.Local (ctx : Context) (h h' : Heap) : Prop where
  items : h.items.size ≤ h'.items.size
  scopes : h.scopes.size ≤ h'.scopes.size
  name : ∀ {t : ScopeId}, t.index < h.scopes.size → (h'.scope t).name = (h.scope t).name
  bindings : ∀ {t : ScopeId}, t.index < h.scopes.size → t ∉ ctx.scopeChain →
    (h'.scope t).bindings = (h.scope t).bindings
  children : ∀ {t : ScopeId}, t.index < h.scopes.size → t ≠ ctx.scope →
    (h'.scope t).children = (h.scope t).children
  /-- Among the scopes that were there, only sub-scopes of the bound scope are
  detached, and none is attached. -/
  parent : ∀ {t : ScopeId}, t.index < h.scopes.size →
    (h'.scope t).parent = (h.scope t).parent ∨
      t ∈ (h.scope ctx.scope).children ∧ (h'.scope t).parent = none
  value : ∀ {i : ItemId}, i.index < h.items.size → ¬ ctx.Sees h i → h'.value i = h.value i
  /-- What gets bound is fresh. -/
  bound : ∀ {t : ScopeId} {name : String} {i : ItemId}, h'.binding? t name = some i →
    h.binding? t name = some i ∨ h.items.size ≤ i.index
  /-- What gets attached is fresh. -/
  attached : ∀ {t c : ScopeId}, c ∈ (h'.scope t).children →
    c ∈ (h.scope t).children ∨ h.scopes.size ≤ c.index

/-- Attaching is not refused only where it attaches. -/
theorem Heap.addChild_attach {h h' : Heap} {s c : ScopeId} (hadd : h.addChild s c = .ok h') :
    h' = h.attach s (h.scope s).children.length c := by
  rcases h.insertChild_cases s (h.scope s).children.length c with
    ⟨-, message, herr⟩ | ⟨-, -, -, heq⟩
  · rw [Heap.addChild, herr] at hadd
    cases hadd
  · rw [Heap.addChild, heq] at hadd
    exact (Except.ok.inj hadd).symm

namespace Context.Local

variable {ctx : Context} {h h' h'' : Heap} {s c : ScopeId} {f : Scope → Scope}

theorem refl : ctx.Local h h where
  items := Nat.le_refl _
  scopes := Nat.le_refl _
  name := fun _ => rfl
  bindings := fun _ _ => rfl
  children := fun _ _ => rfl
  parent := fun _ => .inl rfl
  value := fun _ _ => rfl
  bound := .inl
  attached := .inl

theorem trans (h₁ : ctx.Local h h') (h₂ : ctx.Local h' h'') : ctx.Local h h'' where
  items := Nat.le_trans h₁.items h₂.items
  scopes := Nat.le_trans h₁.scopes h₂.scopes
  name := fun ht => (h₂.name (Nat.lt_of_lt_of_le ht h₁.scopes)).trans (h₁.name ht)
  bindings := fun ht hno =>
    (h₂.bindings (Nat.lt_of_lt_of_le ht h₁.scopes) hno).trans (h₁.bindings ht hno)
  children := fun ht hne =>
    (h₂.children (Nat.lt_of_lt_of_le ht h₁.scopes) hne).trans (h₁.children ht hne)
  parent := by
    intro t ht
    rcases h₂.parent (Nat.lt_of_lt_of_le ht h₁.scopes) with hsame | ⟨hc, hnone⟩
    · exact (h₁.parent ht).imp hsame.trans fun ⟨hc, hnone⟩ => ⟨hc, hsame.trans hnone⟩
    · rcases h₁.attached hc with hc | hfresh
      · exact .inr ⟨hc, hnone⟩
      · omega
  value := by
    intro i hi hno
    -- What is not seen does not come to be seen, for what gets bound is fresh.
    have hno' : ¬ ctx.Sees h' i := by
      rintro ⟨s, name, hs, hbound⟩
      rcases h₁.bound hbound with hbound | hfresh
      · exact hno ⟨s, name, hs, hbound⟩
      · omega
    exact (h₂.value (Nat.lt_of_lt_of_le hi h₁.items) hno').trans (h₁.value hi hno)
  bound := by
    intro t name i hi
    rcases h₂.bound hi with hi | hfresh
    · exact h₁.bound hi
    · exact .inr (Nat.le_trans h₁.items hfresh)
  attached := by
    intro t c hc
    rcases h₂.attached hc with hc | hfresh
    · exact h₁.attached hc
    · exact .inr (Nat.le_trans h₁.scopes hfresh)

/-! ## Changes of items and of single scopes -/

theorem of_scopes (hsame : h'.scopes = h.scopes) (hitems : h.items.size ≤ h'.items.size)
    (hvalue : ∀ {i : ItemId}, i.index < h.items.size → ¬ ctx.Sees h i → h'.value i = h.value i) :
    ctx.Local h h' := by
  have hscope := Heap.scope_congr hsame
  refine ⟨hitems, by rw [hsame], ?_, ?_, ?_, ?_, hvalue, ?_, ?_⟩
  all_goals simp +contextual [Heap.binding?, hscope]

theorem newItem (v : Value) : ctx.Local h (h.newItem v).2 :=
  of_scopes rfl (by simp [Heap.newItem]) fun hi _ => Heap.value_newItem_lt hi

/-- A further change of one scope: what it may be if the scope was there, and
if it is one that the context binds or searches. -/
theorem updateScope (hl : ctx.Local h h')
    (hname : s.index < h.scopes.size → (f (h'.scope s)).name = (h'.scope s).name)
    (hbindings : s.index < h.scopes.size → s ∉ ctx.scopeChain →
      (f (h'.scope s)).bindings = (h'.scope s).bindings)
    (hchildren : s.index < h.scopes.size → s ≠ ctx.scope →
      (f (h'.scope s)).children = (h'.scope s).children)
    (hparent : s.index < h.scopes.size → (f (h'.scope s)).parent = (h'.scope s).parent ∨
      s ∈ (h.scope ctx.scope).children ∧ (f (h'.scope s)).parent = none)
    (hbound : ∀ name i, (f (h'.scope s)).bindings.find? name = some i →
      (h'.scope s).bindings.find? name = some i ∨ h.items.size ≤ i.index)
    (hattached : ∀ c ∈ (f (h'.scope s)).children,
      c ∈ (h'.scope s).children ∨ h.scopes.size ≤ c.index) :
    ctx.Local h (h'.updateScope s f) := by
  refine ⟨hl.items, ?_, ?_, ?_, ?_, ?_, hl.value, ?_, ?_⟩
  · rw [Heap.scopes_size_updateScope]
    exact hl.scopes
  -- Where `t` is the scope that changes, the change is added to what was before.
  all_goals
    intro t
    simp only [Heap.binding?, Heap.scope_updateScope]
    split
  · next hts =>
    obtain ⟨rfl, -⟩ := hts
    exact fun ht => (hname ht).trans (hl.name ht)
  · exact hl.name
  · next hts =>
    obtain ⟨rfl, -⟩ := hts
    exact fun ht hno => (hbindings ht hno).trans (hl.bindings ht hno)
  · exact hl.bindings
  · next hts =>
    obtain ⟨rfl, -⟩ := hts
    exact fun ht hne => (hchildren ht hne).trans (hl.children ht hne)
  · exact hl.children
  · next hts =>
    obtain ⟨rfl, -⟩ := hts
    intro ht
    rcases hparent ht with hsame | hdetached
    · rw [hsame]
      exact hl.parent ht
    · exact .inr hdetached
  · exact hl.parent
  · next hts =>
    obtain ⟨rfl, -⟩ := hts
    intro name i hi
    exact (hbound name i hi).elim hl.bound .inr
  · exact hl.bound
  · next hts =>
    obtain ⟨rfl, -⟩ := hts
    intro c hc
    exact (hattached c hc).elim hl.attached .inr
  · exact hl.attached

/-- Variables of a scope that is searched. -/
theorem rebind (hl : ctx.Local h h') (hs : s ∈ ctx.scopeChain) {b : Bindings → Bindings}
    (hbound : ∀ name i, (b (h'.scope s).bindings).find? name = some i →
      (h'.scope s).bindings.find? name = some i ∨ h.items.size ≤ i.index) :
    ctx.Local h (h'.updateScope s fun node => { node with bindings := b node.bindings }) :=
  hl.updateScope (fun _ => rfl) (fun _ hno => absurd hs hno) (fun _ _ => rfl) (fun _ => .inl rfl)
    hbound fun _ hc => .inl hc

/-- Sub-scopes of the bound scope. -/
theorem relist (hl : ctx.Local h h') {l : List ScopeId → List ScopeId}
    (hattached : ∀ c ∈ l (h'.scope ctx.scope).children,
      c ∈ (h'.scope ctx.scope).children ∨ h.scopes.size ≤ c.index) :
    ctx.Local h (h'.updateScope ctx.scope fun node =>
      { node with children := l node.children }) :=
  hl.updateScope (fun _ => rfl) (fun _ _ => rfl) (fun _ hne => absurd rfl hne)
    (fun _ => .inl rfl) (fun _ _ hi => .inl hi) hattached

/-- A scope that has been made meanwhile may get another name or parent. -/
theorem settle (hl : ctx.Local h h') (hs : h.scopes.size ≤ s.index)
    (hbindings : ∀ node, (f node).bindings = node.bindings)
    (hchildren : ∀ node, (f node).children = node.children) :
    ctx.Local h (h'.updateScope s f) := by
  have hno : ¬ s.index < h.scopes.size := by omega
  refine hl.updateScope (fun ht => absurd ht hno) (fun ht => absurd ht hno)
    (fun ht => absurd ht hno) (fun ht => absurd ht hno) ?_ ?_
  · intro name i hi
    rw [hbindings] at hi
    exact .inl hi
  · intro c hc
    rw [hchildren] at hc
    exact .inl hc

theorem rename (hl : ctx.Local h h') (hs : h.scopes.size ≤ s.index) (name : String) :
    ctx.Local h (h'.rename s name) :=
  hl.settle hs (fun _ => rfl) fun _ => rfl

/-- A scope that has been made meanwhile may be attached to the bound scope. -/
theorem addChild (hl : ctx.Local h h') (hc : h.scopes.size ≤ c.index)
    (hadd : h'.addChild ctx.scope c = .ok h'') : ctx.Local h h'' := by
  obtain rfl := Heap.addChild_attach hadd
  have hset : ctx.Local h (h'.setParent c (some ctx.scope)) :=
    hl.settle hc (fun _ => rfl) fun _ => rfl
  refine hset.relist (l := fun cs => cs.insertIdx _ c) fun d hd => ?_
  rcases List.eq_or_mem_of_mem_insertIdx hd with rfl | hd
  · exact .inr hc
  · exact .inl hd

theorem detach (hl : ctx.Local h h') (hc : c ∈ (h.scope ctx.scope).children) :
    ctx.Local h (h'.setParent c none) :=
  hl.updateScope (fun _ => rfl) (fun _ _ => rfl) (fun _ _ => rfl) (fun _ => .inr ⟨hc, rfl⟩)
    (fun _ _ hi => .inl hi) fun _ hc => .inl hc

theorem detachAll {cs : List ScopeId} (hl : ctx.Local h h')
    (hcs : ∀ c ∈ cs, c ∈ (h.scope ctx.scope).children) : ctx.Local h (h'.detachAll cs) := by
  induction cs generalizing h' with
  | nil => exact hl
  | cons c cs ih =>
      have hhead := hl.detach (hcs c List.mem_cons_self)
      exact ih hhead fun d hd => hcs d (List.mem_cons_of_mem c hd)

/-! ## New scopes -/

/-- A heap that has only grown, by scopes that list and bind what is new. -/
theorem of_kept (hk : h.Kept h')
    (hbound : ∀ {t : ScopeId} {name i}, h.scopes.size ≤ t.index →
      h'.binding? t name = some i → h.items.size ≤ i.index)
    (hattached : ∀ {t c : ScopeId}, h.scopes.size ≤ t.index → c ∈ (h'.scope t).children →
      h.scopes.size ≤ c.index) : ctx.Local h h' := by
  refine ⟨hk.items, hk.scopes, ?_, ?_, ?_, ?_, fun hi _ => hk.value hi, ?_, ?_⟩
  · intro t ht
    rw [hk.scope ht]
  · intro t ht _
    rw [hk.scope ht]
  · intro t ht _
    rw [hk.scope ht]
  · intro t ht
    rw [hk.scope ht]
    exact .inl rfl
  · intro t name i hi
    by_cases ht : t.index < h.scopes.size
    · rw [Heap.binding?, hk.scope ht] at hi
      exact .inl hi
    · exact .inr (hbound (by omega) hi)
  · intro t c hc
    by_cases ht : t.index < h.scopes.size
    · rw [hk.scope ht] at hc
      exact .inl hc
    · exact .inr (hattached (by omega) hc)

theorem appendFresh (count : Nat) : ctx.Local h (h.appendFresh ctx.scope count) := by
  have hempty : ctx.Local h
      (h.addScopes (Heap.emptyScopes (h.scope ctx.scope).children.length count ctx.scope)) := by
    apply of_kept (.addScopes _)
    · intro t name i ht hi
      rcases Heap.emptyScopes_cases (p := ctx.scope) ht with heq | ⟨n, -, -, heq⟩
      all_goals
        rw [Heap.binding?, heq] at hi
        simp [Scope.named] at hi
    · intro t c ht hc
      rcases Heap.emptyScopes_cases (p := ctx.scope) ht with heq | ⟨n, -, -, heq⟩
      all_goals
        rw [heq] at hc
        simp [Scope.named] at hc
  refine hempty.relist (l := fun cs => cs ++ (List.range count).map fun k =>
    ScopeId.mk (h.scopes.size + k)) fun c hc => ?_
  rcases List.mem_append.mp hc with hc | hc
  · exact .inl hc
  · obtain ⟨k, -, rfl⟩ := List.mem_map.mp hc
    exact .inr (Nat.le_add_right ..)

end Context.Local

/-- All that a copy of a subtree lists and binds is new. -/
theorem Heap.Forest.copyAlone_local {h : Heap} {s : ScopeId} (hf : h.Forest) (ctx : Context)
    (hs : s.index < h.scopes.size) :
    ctx.Local h (h.copyAlone s.copy).2 ∧ h.scopes.size ≤ (h.copyAlone s.copy).1.index := by
  obtain ⟨P, hP, -, hscopes⟩ := hf.toSound.region
  obtain ⟨σ, hc, hfound, -⟩ := ScopeId.copyAlone_spec hP (hscopes hs)
  generalize h.copyAlone s.copy = r at hc hfound ⊢
  obtain ⟨copy, h'⟩ := r
  refine ⟨.of_kept hc.kept ?_ ?_, (hc.scope hfound).2.1⟩
  · intro t name i ht hi
    dsimp only at hi ⊢
    by_cases hlt : t.index < h'.scopes.size
    · obtain ⟨u, hut⟩ := hc.madeScope ht hlt
      have hsame := Bindings.lookup_same (hc.content hut id).bindings name
      change Option.Rel σ.itemTo (h.binding? u name) (h'.binding? t name) at hsame
      rw [hi] at hsame
      generalize h.binding? u name = x at hsame
      cases hsame with
      | some hji => exact (hc.item hji).2.1
    · rw [Heap.binding?, Heap.scope_of_le (by omega)] at hi
      cases hi
  · intro t c ht hmem
    dsimp only at hmem ⊢
    by_cases hlt : t.index < h'.scopes.size
    · obtain ⟨u, hut⟩ := hc.madeScope ht hlt
      obtain ⟨d, -, hdc⟩ := forall₂_mem (hc.content hut id).children.flip hmem
      exact (hc.scope hdc).2.1
    · rw [Heap.scope_of_le (by omega)] at hmem
      cases hmem

namespace Context

variable {ctx : Context} {h h' : Heap}

/-! ## Edits and executions -/

/-- Every edit stays within its context. -/
theorem Edit.local (he : ctx.Edit h h') (hf : h.Forest) : ctx.Local h h' := by
  cases he with
  | item v => exact .newItem v
  | bind hs name v =>
      refine (Local.newItem v).rebind hs (b := fun bs => bs.insert name ⟨h.items.size⟩)
        fun other i hi => ?_
      rw [Bindings.find?_insert] at hi
      split at hi
      · cases hi
        exact .inr (Nat.le_refl _)
      · exact .inl hi
  | @write s name i hs hi v =>
      refine .of_scopes rfl (by simp [Heap.setValue]) fun {j} _ hno => Heap.value_setValue_ne ?_
      rintro rfl
      exact hno ⟨s, name, hs, hi⟩
  | unbind name =>
      refine Local.refl.rebind ctx.scope_mem_scopeChain (b := fun bs => bs.erase name)
        fun other i hi => .inl ?_
      rw [Bindings.find?_erase] at hi
      split at hi
      · cases hi
      · exact hi
  | «context» => exact .of_scopes rfl (Nat.le_refl _) fun _ _ => rfl
  | append count => exact .appendFresh count
  | remove place =>
      unfold Heap.removeChild
      split
      · exact .refl
      · next c hc =>
        have hlisted : ctx.Local h (h.updateScope ctx.scope fun node =>
            { node with children := node.children.eraseIdx place }) :=
          Local.refl.relist (l := fun cs => cs.eraseIdx place) fun d hd =>
            .inl (List.mem_of_mem_eraseIdx hd)
        exact hlisted.detach (List.mem_of_getElem? hc)
  | clear =>
      have hlisted : ctx.Local h
          (h.updateScope ctx.scope fun node => { node with children := [] }) :=
        Local.refl.relist (l := fun _ => []) fun _ hc => absurd hc List.not_mem_nil
      exact hlisted.detachAll fun c hc => hc
  | duplicate hsource name =>
      obtain ⟨hcopied, hcopy⟩ := hf.copyAlone_local ctx (hf.child _ _ hsource)
      exact hcopied.rename hcopy name
  | graft hsource name hadd =>
      obtain ⟨hcopied, hcopy⟩ := hf.copyAlone_local ctx (hf.child _ _ hsource)
      exact (hcopied.rename hcopy name).addChild hcopy hadd

/-- A row of edits does, and leaves a forest in which the context is still
within. -/
theorem Edit.row_local (hrow : ReflTransGen ctx.Edit h h') (hf : h.Forest) (hctx : ctx.Within h) :
    ctx.Local h h' ∧ h'.Forest := by
  induction hrow with
  | refl => exact ⟨.refl, hf⟩
  | tail _ he ih =>
      obtain ⟨hlocal, hforest⟩ := ih
      have hwithin : ctx.Within _ := fun s hs => Nat.lt_of_lt_of_le (hctx s hs) hlocal.scopes
      exact ⟨hlocal.trans (he.local hforest), he.forest hforest hwithin⟩

theorem execute_local {w : World} (hf : w.heap.Forest) (hctx : ctx.Within w.heap)
    (setting : Setting) : ctx.Local w.heap (ctx.execute setting w).2.heap :=
  (Edit.row_local (ctx.execute_along setting w) hf hctx).1

end Context

/-! ## What most operators leave alone -/

namespace Heap

variable {h h' h'' : Heap} {s : ScopeId}

/-- Every item that was there has the value that it had. -/
structure ItemsKept (h h' : Heap) : Prop where
  size : h.items.size ≤ h'.items.size
  value : ∀ {i : ItemId}, i.index < h.items.size → h'.value i = h.value i

/-- Nothing that was there has changed, scopes or items. -/
structure Untouched (h h' : Heap) : Prop extends h.ItemsKept h' where
  scopes : h'.scopes = h.scopes

theorem ItemsKept.refl : h.ItemsKept h := ⟨Nat.le_refl _, fun _ => rfl⟩

theorem ItemsKept.trans (h₁ : h.ItemsKept h') (h₂ : h'.ItemsKept h'') : h.ItemsKept h'' where
  size := Nat.le_trans h₁.size h₂.size
  value := fun hi => (h₂.value (Nat.lt_of_lt_of_le hi h₁.size)).trans (h₁.value hi)

theorem ItemsKept.newItem (v : Value) : h.ItemsKept (h.newItem v).2 :=
  ⟨by simp [Heap.newItem], value_newItem_lt⟩

/-- Changes of scopes leave items alone. -/
theorem ItemsKept.of_items (hsame : h'.items = h.items) : h.ItemsKept h' :=
  ⟨by rw [hsame], fun _ => value_congr hsame _⟩

theorem ItemsKept.attach {c : ScopeId} (place : Nat) : h.ItemsKept (h.attach s place c) :=
  .of_items rfl

theorem ItemsKept.removeChild (place : Nat) : h.ItemsKept (h.removeChild s place).2 := by
  unfold Heap.removeChild
  split
  · exact .refl
  · exact .of_items rfl

theorem ItemsKept.detachAll (cs : List ScopeId) : h.ItemsKept (h.detachAll cs) := by
  induction cs generalizing h with
  | nil => exact .refl
  | cons c cs ih =>
      have hfirst : h.ItemsKept (h.setParent c none) := .of_items rfl
      exact hfirst.trans ih

theorem ItemsKept.clearChildren : h.ItemsKept (h.clearChildren s).2 := by
  have hfirst : h.ItemsKept (h.updateScope s fun node => { node with children := [] }) :=
    .of_items rfl
  exact hfirst.trans (.detachAll _)

theorem Untouched.of_row (hrow : ReflTransGen Look h h') : h.Untouched h' := by
  induction hrow with
  | refl => exact ⟨.refl, rfl⟩
  | tail _ hlook ih =>
      cases hlook with
      | item v => exact ⟨ih.toItemsKept.trans (.newItem v), ih.scopes⟩
      | «context» => exact ⟨ih.toItemsKept.trans (.of_items rfl), ih.scopes⟩

theorem Untouched.forest (hu : h.Untouched h') (hf : h.Forest) : h'.Forest := by
  have hscope := Heap.scope_congr hu.scopes
  refine hf.of_same ?_ ?_ ?_ hu.size (by rw [hu.scopes])
  all_goals simp [hscope]

end Heap

/-- Is this one of the kinds that run other operators? -/
def OperatorKind.isComposite : OperatorKind → Bool
  | sequential _ | subScopes _ | uniformSubScopes _ _ | conditional _ _ | loop _ _ | placeholder =>
    true
  | _ => false

/-- Composites only look at the heap. -/
theorem Operator.work_looks {op : Operator} (hop : op.kind.isComposite = true) (cancelled : Bool)
    (ctx : Context) : (op.work cancelled ctx).Along Heap.Look := by
  unfold work
  cases hkind : op.kind with
  | sequential ids => exact Context.runInOrder_along ids
  | subScopes ids => exact Context.runOnSubScopes_along ids
  | uniformSubScopes body depth => exact Context.runBelow_along body depth
  | conditional onTrue onFalse => exact Context.runBranch_along onTrue onFalse
  | loop body terminator => exact Context.runLoop_along body terminator
  | placeholder => exact Context.runChosen_along
  | _ => simp [hkind, OperatorKind.isComposite] at hop

namespace Act

variable {σ α β : Type} {x : Act Heap α} {f : α → Act Heap β}

/-- The act leaves the items that are there alone. -/
def KeepsItems (x : Act Heap α) : Prop := ∀ h : Heap, h.ItemsKept (x h).2

theorem KeepsItems.bind (hx : x.KeepsItems) (hf : ∀ a, (f a).KeepsItems) :
    (x >>= f).KeepsItems := by
  intro h
  have hfirst := hx h
  rw [bind_apply]
  rcases hs : x h with ⟨e | a, h'⟩
  · rw [hs] at hfirst
    exact hfirst
  · rw [hs] at hfirst
    exact hfirst.trans (hf a h')

theorem Along.keepsItems (hx : x.Along Heap.Look) : x.KeepsItems :=
  fun h => (Heap.Untouched.of_row (hx h)).toItemsKept

end Act

namespace Context

variable {ctx : Context} {h : Heap} {name : String}

theorem setFresh_keepsItems (parameter : String) (v : Heap → Value) :
    (Act.change (fun h => h.newItem (v h)) >>= ctx.setItem parameter).KeepsItems := by
  refine Act.KeepsItems.bind (fun h => .newItem (v h)) fun i h => ?_
  rcases ctx.setItem_spec parameter i h with hsame | ⟨s, name, -, hbound⟩
  · rw [hsame]
    exact .refl
  · rw [hbound]
    exact .of_items rfl

theorem assign_keepsItems : ctx.assign.KeepsItems :=
  get_along.keepsItems.bind fun right => setFresh_keepsItems "Left" fun h => h.value right

theorem compare_keepsItems (relation : Comparison) : (ctx.compare name relation).KeepsItems := by
  refine value_along.keepsItems.bind fun left => value_along.keepsItems.bind fun right => ?_
  cases left.compare? right with
  | none => exact fun h => .refl
  | some o => exact setFresh_keepsItems "Result" fun _ => .bool (relation.holds o)

theorem createVariables_keepsItems (ps : List Parameter) :
    (ctx.createVariables ps).KeepsItems := by
  induction ps with
  | nil => exact fun h => .refl
  | cons p rest ih =>
      refine Act.KeepsItems.bind (fun h => .refl) fun resolution => ?_
      cases resolution with
      | fixed value type => exact ih
      | «variable» name default type =>
          cases default with
          | none => exact ih
          | some initial =>
              refine Act.KeepsItems.bind (fun h => ?_) fun _ => ih
              rw [Act.modify_apply]
              dsimp only
              split
              · exact .refl
              · exact .trans (.newItem _) (.of_items rfl)

theorem createSubScopes_keepsItems (cancelled : Bool) :
    (ctx.createSubScopes name cancelled).KeepsItems := by
  refine (typed_along _ _).keepsItems.bind fun n => ?_
  split
  · exact fun h => .refl
  · refine (checkCancelled_along _).keepsItems.bind fun _ h => ?_
    exact .of_items rfl

theorem removeSubScope_keepsItems : (ctx.removeSubScope name).KeepsItems := by
  refine (typed_along _ _).keepsItems.bind fun index => ?_
  dsimp only
  split
  · exact fun h => .refl
  · refine Act.KeepsItems.bind (fun h => .removeChild _) fun removed => ?_
    cases removed <;> exact fun h => .refl

theorem graft_keepsItems {source : ScopeId} (hf : h.Forest)
    (hsource : source ∈ (h.scope ctx.scope).children) :
    h.ItemsKept ((do
      let copy ← Act.change fun h => h.copyAlone source.copy
      Act.modify fun h => h.rename copy name
      Act.commit fun h => h.addChild ctx.scope copy : Act Heap Unit) h).2 := by
  have hkept := (hf.copyAlone_kept (hf.child _ _ hsource)).1
  have hcopied : h.ItemsKept (h.copyAlone source.copy).2 := ⟨hkept.items, hkept.value⟩
  rw [Act.bind_apply, Act.change_apply]
  dsimp only
  rw [Act.bind_apply, Act.modify_apply]
  dsimp only [Act.commit]
  generalize h.copyAlone source.copy = r at hcopied ⊢
  have hnamed : h.ItemsKept (r.2.rename r.1 name) := hcopied.trans (.of_items rfl)
  cases hadd : (r.2.rename r.1 name).addChild ctx.scope r.1 with
  | error e => exact hnamed
  | ok h' =>
      obtain rfl := Heap.addChild_attach hadd
      exact hnamed.trans (.attach _)

/-- A copy of a sub-scope brings items of its own. -/
theorem duplicateSubScope_keepsItems (cancelled : Bool) (hf : h.Forest) :
    h.ItemsKept (ctx.duplicateSubScope name cancelled h).2 := by
  unfold duplicateSubScope
  rw [Act.bind_apply, Act.see_apply]
  dsimp only
  have hread : h.Untouched (ctx.typed "SubScopeIndex" .int Value.int? h).2 :=
    .of_row (typed_along .int Value.int? h)
  rw [Act.bind_apply, getInt]
  generalize ctx.typed "SubScopeIndex" .int Value.int? h = r at hread ⊢
  obtain ⟨e | index, h'⟩ := r
  · exact hread.toItemsKept
  · dsimp only at hread ⊢
    cases hpick : pickSubScope (h.scope ctx.scope).children index.toInt with
    | none => exact hread.toItemsKept
    | some source =>
        have hsource : source ∈ (h'.scope ctx.scope).children := by
          rw [Heap.scope, hread.scopes]
          exact pickSubScope_mem hpick
        dsimp only [checkCancelled]
        split
        · exact hread.toItemsKept
        · exact hread.toItemsKept.trans (graft_keepsItems (hread.forest hf) hsource)

/-! ## The counter -/

/-- The item is that of the variable that a parameter stands for. -/
def StandsFor (ctx : Context) (h : Heap) (parameter : String) (i : ItemId) : Prop :=
  ∃ name default type s, ctx.resolve parameter = .ok (.variable name default type) ∧
    s ∈ ctx.scopeChain ∧ ctx.find? h name = some (s, i)

theorem find?_scopes {h' : Heap} (hsame : h'.scopes = h.scopes) (name : String) :
    ctx.find? h' name = ctx.find? h name := by
  have hin : ∀ scopes, h'.findIn name scopes = h.findIn name scopes := by
    intro scopes
    induction scopes with
    | nil => rfl
    | cons s rest ih => simp only [Heap.findIn, Heap.binding?, Heap.scope, hsame, ih]
  exact hin ctx.scopeChain

theorem getVariable_standsFor {parameter : String} {i : ItemId}
    (hi : (ctx.getVariable parameter h).1 = .ok (some i)) : ctx.StandsFor h parameter i := by
  unfold getVariable at hi
  rw [Act.bind_apply, Act.ofExcept_apply] at hi
  cases hres : ctx.resolve parameter with
  | error e => simp [hres] at hi
  | ok resolution =>
      rw [hres] at hi
      cases resolution with
      | fixed value type => simp at hi
      | «variable» name default type =>
          dsimp only at hi
          rw [Act.bind_apply, Act.see_apply] at hi
          cases hfind : ctx.find? h name with
          | none => simp [hfind] at hi
          | some found =>
              obtain ⟨s, j⟩ := found
              rw [hfind] at hi
              dsimp only at hi
              rw [Act.bind_apply, Act.look_apply] at hi
              cases hcheck : h.checkType parameter type j with
              | error e => simp [hcheck] at hi
              | ok _ =>
                  rw [hcheck] at hi
                  cases hi
                  exact ⟨name, default, type, s, hres, (binding_of_findIn hfind).1, hfind⟩

theorem count_spec (ctx : Context) (h : Heap) : h.items.size ≤ (ctx.count h).2.items.size ∧
    ∀ {i : ItemId}, i.index < h.items.size →
      (ctx.count h).2.value i = h.value i ∨ ctx.StandsFor h "Value" i := by
  have hread : h.Untouched (ctx.typed "Increment" .int Value.int? h).2 :=
    .of_row (typed_along .int Value.int? h)
  unfold count
  rw [Act.bind_apply, getInt]
  generalize ctx.typed "Increment" .int Value.int? h = r at hread ⊢
  obtain ⟨e | increment, h'⟩ := r
  · exact ⟨hread.size, fun hi => .inl (hread.value hi)⟩
  · dsimp only at hread ⊢
    obtain ⟨hsame, -⟩ := ctx.getVariable_spec "Value" h'
    have hstands : ∀ j, (ctx.getVariable "Value" h').1 = .ok (some j) →
        ctx.StandsFor h "Value" j := by
      intro j hj
      obtain ⟨name, default, type, s, hres, hs, hfind⟩ := getVariable_standsFor hj
      exact ⟨name, default, type, s, hres, hs, (find?_scopes hread.scopes name) ▸ hfind⟩
    rw [Act.bind_apply]
    rcases hget : ctx.getVariable "Value" h' with ⟨e | j?, h''⟩
    all_goals
      rw [hget] at hsame hstands
      obtain rfl : h'' = h' := hsame
    · exact ⟨hread.size, fun hi => .inl (hread.value hi)⟩
    · dsimp only
      cases j? with
      | none =>
          -- The variable is made, and whatever is there stays as it is.
          have hmade : Act.KeepsItems (do
              let default ← ctx.getOptional "Value"
              let start ← Act.see fun h => (default.bind fun i => (h.value i).int?).getD 0
              ctx.set "Value" (.int (start + increment))) := by
            refine getOptional_along.keepsItems.bind fun default => ?_
            refine Act.KeepsItems.bind (fun h => .refl) fun start => ?_
            exact setFresh_keepsItems "Value" fun _ => .int (start + increment)
          have hkept := hread.toItemsKept.trans (hmade h'')
          exact ⟨hkept.size, fun hi => .inl (hkept.value hi)⟩
      | some j =>
          refine ⟨by simpa [Heap.setValue] using hread.size, fun {i} hi => ?_⟩
          by_cases hij : i = j
          · exact .inr (hij ▸ hstands j rfl)
          · exact .inl ((Heap.value_setValue_ne hij).trans (hread.value hi))

end Context

/-- Of the built-in operators none but the counter writes to an item that was
there, and it only to the item of its variable. -/
theorem Operator.work_value {op : Operator} (hop : op.kind.isBuiltIn = true) (cancelled : Bool)
    {ctx : Context} {h : Heap} (hf : h.Forest) {i : ItemId} (hi : i.index < h.items.size) :
    (op.work cancelled ctx h).2.value i = h.value i ∨
      op.kind = .counter ∧ ctx.StandsFor h "Value" i := by
  have hsuccessor : ∀ {x : Act Heap Unit}, h.items.size ≤ (x h).2.items.size →
      ((x >>= fun _ => ctx.successor) h).2.value i = (x h).2.value i := by
    intro x hx
    rw [Act.bind_apply]
    rcases hs : x h with ⟨e | u, h'⟩
    · rfl
    · rw [hs] at hx
      exact (Context.successor_along.keepsItems h').value (Nat.lt_of_lt_of_le hi hx)
  have hthen : ∀ {x : Act Heap Unit}, h.ItemsKept (x h).2 →
      ((x >>= fun _ => ctx.successor) h).2.value i = h.value i :=
    fun hx => (hsuccessor hx.size).trans (hx.value hi)
  by_cases hcomposite : op.kind.isComposite = true
  · exact .inl ((work_looks hcomposite cancelled ctx).keepsItems h |>.value hi)
  · unfold work
    cases hkind : op.kind with
    | leaf program => simp [hkind, OperatorKind.isBuiltIn] at hop
    | empty => exact .inl (Context.successor_along.keepsItems h |>.value hi)
    | assigner => exact .inl (hthen (Context.assign_keepsItems h))
    | comparator relation => exact .inl (hthen (Context.compare_keepsItems relation h))
    | variableCreator => exact .inl (hthen (Context.createVariables_keepsItems _ h))
    | subScopesCreator => exact .inl (hthen (Context.createSubScopes_keepsItems cancelled h))
    | subScopesRemover all =>
        cases all with
        | true => exact .inl (hthen .clearChildren)
        | false => exact .inl (hthen (Context.removeSubScope_keepsItems h))
    | subScopeDuplicator => exact .inl (hthen (Context.duplicateSubScope_keepsItems cancelled hf))
    | counter =>
        obtain ⟨hsize, hcount⟩ := ctx.count_spec h
        show ((ctx.count >>= fun _ => ctx.successor) h).2.value i = _ ∨ _
        rw [hsuccessor hsize]
        exact (hcount hi).imp_right fun hstands => ⟨rfl, hstands⟩
    | _ => simp [hkind, OperatorKind.isComposite] at hcomposite

/-! ## The effects of an execution -/

/-- What becomes of a heap by the execution of a built-in operator. -/
structure Context.Effects (ctx : Context) (op : Operator) (h h' : Heap) : Prop where
  within : ctx.Local h h'
  /-- An item that was there keeps its value, unless it is what a counter
  counts with. -/
  value : ∀ i : ItemId, i.index < h.items.size →
    h'.value i = h.value i ∨ op.kind = .counter ∧ ctx.StandsFor h "Value" i
  composite : op.kind.isComposite = true → h.Untouched h'

theorem Context.execute_effects {ctx : Context} {op : Operator} {w : World}
    (hop : ctx.operator = .ok op) (hbuilt : op.kind.isBuiltIn = true) (hf : w.heap.Forest)
    (hctx : ctx.Within w.heap) (setting : Setting) :
    ctx.Effects op w.heap (ctx.execute setting w).2.heap := by
  have hwork : (ctx.execute setting w).2.heap =
      (op.work (w.isCancelled setting.token) ctx w.heap).2 := by
    unfold Context.execute
    rw [Act.bind_apply, Act.ofExcept_apply, hop]
    dsimp only
    rw [op.execute_builtIn hbuilt]
    rfl
  refine ⟨execute_local hf hctx setting, ?_, ?_⟩
  all_goals rw [hwork]
  · exact fun i hi => op.work_value hbuilt _ hf hi
  · exact fun hcomposite => .of_row (op.work_looks hcomposite _ ctx w.heap)

end ScopeFlow
