import ScopeFlow.Proofs.Footprint.Pairing
import ScopeFlow.Proofs.Operator.Locality

/-!
# Access where heaps match

An act follows another if, wherever that one succeeds, it does so too, with an
answer that is paired, and the heaps stay in step. Reads through a parameter do
so if the heaps match on what is looked up and read (`Context.gets`), and writes
if the place that is bound is among those that may change (`Context.sets`).
-/

namespace ScopeFlow

open Act

/-! ## Acts -/

/-- Where the first act succeeds, the second one does so in step. -/
def Act.Follows {α β : Type} (T W : Set Place) (ρ : Pairing) (R : Pairing → α → β → Prop)
    (x : Act Heap α) (y : Act Heap β) (h k : Heap) : Prop :=
  ∀ a h', x h = (.ok a, h') →
    ∃ ρ' b k', y k = (.ok b, k') ∧ R ρ' a b ∧ InStep T W ρ ρ' h h' k k'

namespace Act.Follows

variable {α β γ δ : Type} {T W : Set Place} {ρ ρ' : Pairing} {R : Pairing → α → β → Prop}
  {S : Pairing → γ → δ → Prop} {x : Act Heap α} {y : Act Heap β} {h h' k k' : Heap}

theorem fail {e : Failure} : Follows T W ρ R (Act.fail e) y h k := by
  intro a h' hx
  cases hx

theorem pure (hm : HeapsMatch T ρ h k) {a : α} {b : β} (hab : R ρ a b) :
    Follows T W ρ R (Pure.pure a) (Pure.pure b) h k := by
  intro a' h' hx
  cases hx
  exact ⟨ρ, b, k, rfl, hab, hm.still⟩

theorem bind {f : α → Act Heap γ} {g : β → Act Heap δ} (hxy : Follows T W ρ R x y h k)
    (hfg : ∀ ρ' a b h' k', x h = (.ok a, h') → y k = (.ok b, k') → InStep T W ρ ρ' h h' k k' →
      R ρ' a b → Follows T W ρ' S (f a) (g b) h' k') : Follows T W ρ S (x >>= f) (y >>= g) h k := by
  intro c h₂ hc
  obtain ⟨a, h₁, hx, hf⟩ := Act.bind_eq_ok hc
  obtain ⟨ρ₁, b, k₁, hy, hab, hstep⟩ := hxy a h₁ hx
  obtain ⟨ρ₂, d, k₂, hg, hcd, hstep'⟩ := hfg ρ₁ a b h₁ k₁ hx hy hstep hab c h₂ hf
  refine ⟨ρ₂, d, k₂, ?_, hcd, hstep.trans hstep'⟩
  rw [Act.bind_apply, hy]
  exact hg

/-- A change that cannot fail. -/
theorem modify {f g : Heap → Heap} (hs : InStep T W ρ ρ' h (f h) k (g k)) :
    Follows T W ρ (fun _ => Eq) (Act.modify f) (Act.modify g) h k := by
  intro a h' hx
  cases hx
  exact ⟨ρ', (), g k, rfl, rfl, hs⟩

/-- A change that answers. -/
theorem change {f : Heap → α × Heap} {g : Heap → β × Heap}
    (hs : InStep T W ρ ρ' h (f h).2 k (g k).2) (hab : R ρ' (f h).1 (g k).1) :
    Follows T W ρ R (Act.change f) (Act.change g) h k := by
  intro a h' hx
  cases hx
  exact ⟨ρ', (g k).1, (g k).2, rfl, hab, hs⟩

/-- An answer that depends on no heap, and what is done with it. -/
theorem ofExcept {r : Except Failure α} {f : α → Act Heap γ} {g : α → Act Heap δ}
    (hfg : ∀ a, r = .ok a → Follows T W ρ S (f a) (g a) h k) :
    Follows T W ρ S (Act.ofExcept r >>= f) (Act.ofExcept r >>= g) h k := by
  intro c h' hc
  obtain ⟨a, h₁, hx, hf⟩ := Act.bind_eq_ok hc
  obtain ⟨rfl, rfl⟩ := Prod.mk.inj hx
  exact hfg a rfl c h' hf

/-- What is read off the heaps, and what is done with it. -/
theorem see {u : Heap → α} {v : Heap → β} {f : α → Act Heap γ} {g : β → Act Heap δ}
    (hfg : Follows T W ρ S (f (u h)) (g (v k)) h k) :
    Follows T W ρ S (Act.see u >>= f) (Act.see v >>= g) h k := hfg

/-- A check that comes out the same on both sides. -/
theorem look {l m : Heap → Except Failure Unit} {f : Unit → Act Heap γ} {g : Unit → Act Heap δ}
    (hlm : l h = m k) (hfg : Follows T W ρ S (f ()) (g ()) h k) :
    Follows T W ρ S (Act.look l >>= f) (Act.look m >>= g) h k := by
  intro c h' hc
  obtain ⟨a, h₁, hx, hf⟩ := Act.bind_eq_ok hc
  obtain ⟨hl, rfl⟩ := Prod.mk.inj hx
  obtain ⟨ρ', d, k', hg, hcd, hstep⟩ := hfg c h' hf
  refine ⟨ρ', d, k', ?_, hcd, hstep⟩
  rw [Act.bind_apply, Act.look_apply, ← hlm, hl]
  exact hg

end Act.Follows

/-! ## Footprints -/

section

variable {h h' : Heap} (hsame : h'.scopes = h.scopes)
include hsame

theorem Heap.binding?_scopes (s : ScopeId) (name : String) :
    h'.binding? s name = h.binding? s name := by
  rw [Heap.binding?, Heap.binding?, Heap.scope, Heap.scope, hsame]

theorem Heap.searched_scopes (name : String) (ss : List ScopeId) :
    h'.searched name ss = h.searched name ss := by
  induction ss with
  | nil => rfl
  | cons s rest ih => rw [searched, searched, ih, binding?_scopes hsame]

namespace Context

variable (ctx : Context) (parameter : String)

/-- What is looked up and read depends on scopes only. -/
theorem gets_scopes : ctx.gets h' parameter = ctx.gets h parameter := by
  unfold gets lookups
  simp only [find?_scopes hsame, Heap.searched_scopes hsame]

theorem seeks_scopes : ctx.seeks h' parameter = ctx.seeks h parameter := by
  unfold seeks lookups
  simp only [Heap.searched_scopes hsame]

theorem sets_scopes : ctx.sets h' parameter = ctx.sets h parameter := by
  unfold sets target
  simp only [find?_scopes hsame]

end Context

end

/-- A look leaves all scopes alone. -/
theorem Act.Along.scopes_eq {α : Type} {x : Act Heap α} {h h' : Heap} {a : Except Failure α}
    (hx : x.Along Heap.Look) (heq : x h = (a, h')) : h'.scopes = h.scopes := by
  have hscopes := (Heap.Untouched.of_row (hx h)).scopes
  rwa [heq] at hscopes

/-- A name is bound in one of the scopes searched. -/
theorem Context.target_mem_scopeChain (ctx : Context) (h : Heap) (name : String) :
    ctx.target h name ∈ ctx.scopeChain := by
  unfold target
  cases hfind : ctx.find? h name with
  | none => exact ctx.scope_mem_scopeChain
  | some found => exact (binding_of_findIn hfind).1

/-- A resolution that succeeds comes to items of declarations. -/
theorem Context.resolve_ok_held {ctx : Context} {parameter : String} {r : Resolution}
    (hr : ctx.resolve parameter = .ok r) :
    Resolution.HeldIn ctx.graph.graph.held (.ok r) := by
  unfold resolve at hr
  cases hps : ctx.parameters with
  | error e => rw [hps] at hr; cases hr
  | ok ps =>
      rw [hps] at hr
      dsimp only at hr
      cases hp : ps.get? parameter with
      | none => rw [hp] at hr; cases hr
      | some p =>
          rw [hp] at hr
          exact ctx.follow_ok_held (fun i hi => by cases hi) hr

namespace Heap.KeepsBut

variable {h : Heap} {s : ScopeId} {name : String} {i : ItemId} {v : Value}

theorem bindVariable (hs : s.index < h.scopes.size) :
    h.KeepsBut {.binding s name} (h.bindVariable s name i) := by
  refine .of_items rfl (Array.size_modify ..) (fun t => ?_) (fun t other hno => ?_) fun t _ => ?_
  · by_cases ht : t = s
    · subst ht
      rw [Heap.bindVariable, scope_updateScope_self hs]
    · rw [Heap.bindVariable, scope_updateScope_ne ht]
  · rw [binding?_bindVariable hs, if_neg]
    rintro ⟨rfl, rfl⟩
    exact hno rfl
  · by_cases ht : t = s
    · subst ht
      rw [Heap.bindVariable, scope_updateScope_self hs]
    · rw [Heap.bindVariable, scope_updateScope_ne ht]

theorem setValue : h.KeepsBut {.item i} (h.setValue i v) :=
  .of_scopes rfl (by simp [Heap.setValue]) fun {j} _ hno => value_setValue_ne fun hji =>
    hno (congrArg Place.item hji)

end Heap.KeepsBut

/-! ## Looking things up -/

namespace HeapsMatch

variable {T W : Set Place} {ρ : Pairing} {h k : Heap} {c d : Context} {i j : ItemId}
  {s t : ScopeId} {name parameter : String} (hm : HeapsMatch T ρ h k)
include hm

theorem binding? (hst : ρ.scopes s t) (hT : .binding s name ∈ T) :
    Option.Rel ρ.items (h.binding? s name) (k.binding? t name) := by
  cases hm.content (.binding hst name) hT with
  | bound hij => exact hij

theorem value (hij : ρ.items i j) (hT : .item i ∈ T) : h.value i = k.value j := by
  have hsame := hm.content (.item hij) hT
  rw [Heap.content, Heap.content] at hsame
  generalize h.value i = v at hsame ⊢
  generalize k.value j = v' at hsame ⊢
  cases hsame
  rfl

theorem children (hst : ρ.scopes s t) (hT : .children s ∈ T) :
    List.Forall₂ ρ.scopes (h.scope s).children (k.scope t).children := by
  cases hm.content (.children hst) hT with
  | listed hcd => exact hcd

theorem checkType (hij : ρ.items i j) (hT : .item i ∈ T) (parameter : String) (type : ValueType) :
    h.checkType parameter type i = k.checkType parameter type j := by
  rw [Heap.checkType, Heap.checkType, hm.value hij hT]

theorem findIn {ss ts : List ScopeId} (hst : List.Forall₂ ρ.scopes ss ts)
    (hT : h.searched name ss ⊆ T) :
    Option.Rel (fun x y => ρ.scopes x.1 y.1 ∧ ρ.items x.2 y.2) (h.findIn name ss)
      (k.findIn name ts) := by
  induction hst with
  | nil => exact .none
  | @cons s t ss ts hst _ ih =>
      have hbound := hm.binding? hst (hT (.inl rfl))
      rw [Heap.searched] at hT
      rw [Heap.findIn, Heap.findIn]
      generalize h.binding? s name = x at hT hbound ⊢
      generalize k.binding? t name = y at hbound ⊢
      cases hbound with
      | none => exact ih fun x hx => hT (.inr hx)
      | some hij => exact .some ⟨hst, hij⟩

theorem find? (hcd : c.Moved ρ d) (hT : c.lookups h name ⊆ T) :
    Option.Rel (fun x y => ρ.scopes x.1 y.1 ∧ ρ.items x.2 y.2) (c.find? h name)
      (d.find? k name) :=
  hm.findIn (hm.scopeChain hcd) hT

theorem copyItem (hij : ρ.items i j) (hT : .item i ∈ T) :
    ∃ ρ', (ρ'.items (h.copyItem i).1 (k.copyItem j).1 ∧ .item (h.copyItem i).1 ∈ T) ∧
      InStep T W ρ ρ' h (h.copyItem i).2 k (k.copyItem j).2 := by
  have hstep := hm.newItem (W := W) (h.value i)
  rw [Heap.copyItem, Heap.copyItem, ← hm.value hij hT]
  exact ⟨ρ.withItem _ _, ⟨.inr ⟨rfl, rfl⟩, hm.unmade (Nat.lt_irrefl _)⟩, hstep⟩

/-! ## Changes -/

theorem bindVariable (hst : ρ.scopes s t) (hij : ρ.items i j) (hW : .binding s name ∈ W) :
    InStep T W ρ ρ h (h.bindVariable s name i) k (k.bindVariable t name j) := by
  obtain ⟨hs, ht, -⟩ := hm.scope hst
  refine hm.write (.binding hst name) hW (.bindVariable hs) (.bindVariable ht) ?_
  rw [Heap.content, Heap.content, Heap.binding?_bindVariable hs, Heap.binding?_bindVariable ht]
  simp only [and_self, if_true]
  exact .bound (.some hij)

theorem setValue (hij : ρ.items i j) (hW : .item i ∈ W) (v : Value) :
    InStep T W ρ ρ h (h.setValue i v) k (k.setValue j v) := by
  obtain ⟨hi, hj⟩ := hm.item hij
  refine hm.write (.item hij) hW .setValue .setValue ?_
  rw [Heap.content, Heap.content, Heap.value_setValue_self hi, Heap.value_setValue_self hj]
  exact .value v

/-! ## Reading -/

/-- A copy of an item, or the same failure. -/
theorem detached (hij : ρ.items i j) (hT : .item i ∈ T) (parameter : String) (type : ValueType) :
    ∃ ρ', Answers (fun i' j' => ρ'.items i' j' ∧ .item i' ∈ T)
        (Context.detached parameter type i h).1 (Context.detached parameter type j k).1 ∧
      InStep T W ρ ρ' h (Context.detached parameter type i h).2 k
        (Context.detached parameter type j k).2 := by
  unfold Context.detached
  rw [Act.bind_apply, Act.bind_apply, Act.look_apply, Act.look_apply,
    ← hm.checkType hij hT parameter type]
  cases h.checkType parameter type i with
  | error e => exact ⟨ρ, .error e, hm.still⟩
  | ok _ =>
      obtain ⟨ρ', hnew, hstep⟩ := hm.copyItem (W := W) hij hT
      exact ⟨ρ', .ok hnew, hstep⟩

/-- What a parameter stands for, or the same failure. -/
theorem get (hcd : c.Moved ρ d) (hT : c.gets h parameter ⊆ T) :
    ∃ ρ', Answers (fun i j => ρ'.items i j ∧ .item i ∈ T) (c.get parameter h).1
        (d.get parameter k).1 ∧
      InStep T W ρ ρ' h (c.get parameter h).2 k (d.get parameter k).2 := by
  have hheld := hcd.same.2.2.1
  unfold Context.gets at hT
  unfold Context.get
  rw [Act.bind_apply, Act.bind_apply, Act.ofExcept_apply, Act.ofExcept_apply,
    ← hcd.resolve parameter]
  cases hr : c.resolve parameter with
  | error e => exact ⟨ρ, .error e, hm.still⟩
  | ok r =>
      have hitems := Context.resolve_ok_held hr
      rw [hr] at hT
      cases r with
      | fixed value type => exact hm.detached (hheld value hitems) (hT rfl) parameter type
      | «variable» name default type =>
          have hfind := hm.find? hcd fun x hx => hT (.inl hx)
          dsimp only
          rw [Act.bind_apply, Act.bind_apply, Act.see_apply, Act.see_apply]
          dsimp only at hT ⊢
          generalize c.find? h name = x at hT hfind ⊢
          generalize d.find? k name = y at hfind ⊢
          cases hfind with
          | @some x y hxy =>
              obtain ⟨s, i⟩ := x
              obtain ⟨t, j⟩ := y
              have hi : .item i ∈ T := hT (.inr rfl)
              dsimp only
              rw [Act.bind_apply, Act.bind_apply, Act.look_apply, Act.look_apply,
                ← hm.checkType hxy.2 hi parameter type]
              cases h.checkType parameter type i with
              | error e => exact ⟨ρ, .error e, hm.still⟩
              | ok _ => exact ⟨ρ, .ok ⟨hxy.2, hi⟩, hm.still⟩
          | none =>
              cases default with
              | none => exact ⟨ρ, .error _, hm.still⟩
              | some value =>
                  exact hm.detached (hheld value (hitems value rfl)) (hT (.inr rfl)) parameter type

theorem get_follows (hcd : c.Moved ρ d) (hT : c.gets h parameter ⊆ T) :
    Follows T W ρ (fun ρ' i j => ρ'.items i j ∧ .item i ∈ T) (c.get parameter) (d.get parameter)
      h k := by
  intro i h' hx
  obtain ⟨ρ', hanswer, hstep⟩ := hm.get (W := W) hcd hT
  rw [hx] at hanswer hstep
  generalize d.get parameter k = y at hanswer hstep ⊢
  obtain ⟨r, k'⟩ := y
  cases hanswer with
  | ok hij => exact ⟨ρ', _, k', rfl, hij, hstep⟩

theorem value_follows (hcd : c.Moved ρ d) (hT : c.gets h parameter ⊆ T) :
    Follows T W ρ (fun _ => Eq) (c.value parameter) (d.value parameter) h k := by
  unfold Context.value
  refine (hm.get_follows hcd hT).bind fun ρ' i j h' k' _ _ hstep hij => ?_
  intro v h'' hv
  cases hv
  exact ⟨ρ', _, k', rfl, hstep.matched.value hij.1 hij.2, hstep.matched.still⟩

theorem typed_follows {α : Type} (hcd : c.Moved ρ d) (hT : c.gets h parameter ⊆ T)
    (type : ValueType) (as? : Value → Option α) :
    Follows T W ρ (fun _ => Eq) (c.typed parameter type as?) (d.typed parameter type as?) h k := by
  unfold Context.typed
  refine (hm.value_follows hcd hT).bind fun ρ' v v' h' k' _ _ hstep hv => ?_
  subst hv
  cases as? v with
  | none => exact .fail
  | some a => exact .pure hstep.matched rfl

/-- The variable that a parameter stands for, or none on both sides. -/
theorem getVariable_follows (hcd : c.Moved ρ d) (hT : c.gets h parameter ⊆ T) :
    Follows T W ρ (fun ρ' => Option.Rel fun i j => ρ'.items i j ∧ .item i ∈ T)
      (c.getVariable parameter) (d.getVariable parameter) h k := by
  unfold Context.gets at hT
  unfold Context.getVariable
  rw [← hcd.resolve parameter]
  refine .ofExcept fun r hr => ?_
  rw [hr] at hT
  cases r with
  | fixed value type => exact .pure hm .none
  | «variable» name default type =>
      have hfind := hm.find? hcd fun x hx => hT (.inl hx)
      dsimp only at hT ⊢
      refine .see ?_
      generalize c.find? h name = x at hT hfind ⊢
      generalize d.find? k name = y at hfind ⊢
      cases hfind with
      | none => exact .pure hm .none
      | @some x y hxy =>
          obtain ⟨s, i⟩ := x
          obtain ⟨t, j⟩ := y
          have hi : .item i ∈ T := hT (.inr rfl)
          exact .look (hm.checkType hxy.2 hi parameter type) (.pure hm (.some ⟨hxy.2, hi⟩))

/-- An item that is read for another reason than to be written. -/
theorem getOptional_follows (hcd : c.Moved ρ d) (hT : c.gets h parameter ⊆ T) :
    Follows T W ρ (fun ρ' => Option.Rel fun i j => ρ'.items i j ∧ .item i ∈ T)
      (c.getOptional parameter) (d.getOptional parameter) h k := by
  obtain ⟨ρ', hanswer, hstep⟩ := hm.get (W := W) hcd hT
  intro a h' hx
  unfold Context.getOptional at hx ⊢
  rw [Act.bind_apply] at hx ⊢
  unfold Act.attempt at hx ⊢
  generalize c.get parameter h = x at hx hanswer hstep
  generalize d.get parameter k = y at hanswer hstep ⊢
  obtain ⟨x, h₁⟩ := x
  obtain ⟨y, k₁⟩ := y
  cases hanswer with
  | ok hij =>
      cases hx
      exact ⟨ρ', _, k₁, rfl, .some hij, hstep⟩
  | error e =>
      cases e with
      | unknownVariable name =>
          cases hx
          exact ⟨ρ', _, k₁, rfl, .none, hstep⟩
      | _ => cases hx

/-! ## Writing -/

theorem setItem_follows (hcd : c.Moved ρ d) (hij : ρ.items i j) (hi : .item i ∈ T)
    (hT : c.seeks h parameter ⊆ T) (hW : c.sets h parameter ⊆ W) :
    Follows T W ρ (fun _ => Eq) (c.setItem parameter i) (d.setItem parameter j) h k := by
  unfold Context.seeks at hT
  unfold Context.sets Context.target at hW
  unfold Context.setItem
  rw [← hcd.resolve parameter]
  refine .ofExcept fun r hr => ?_
  rw [hr] at hT hW
  cases r with
  | fixed value type => exact .fail
  | «variable» name default type =>
      refine .look (hm.checkType hij hi parameter type) ?_
      have hfind := hm.find? hcd hT
      refine .modify (show InStep T W ρ ρ h _ k _ from ?_)
      dsimp only at hW ⊢
      have hbind : ∀ {s t}, ρ.scopes s t → .binding s name ∈ W →
          InStep T W ρ ρ h (h.bindVariable s name i) k (k.bindVariable t name j) :=
        fun hst hmem => hm.bindVariable hst hij hmem
      generalize c.find? h name = x at hW hfind ⊢
      generalize d.find? k name = y at hfind ⊢
      cases hfind with
      | none => exact hbind hcd.scope (hW rfl)
      | some hxy => exact hbind hxy.1 (hW rfl)

/-- A fresh item is written. -/
theorem set_follows (hcd : c.Moved ρ d) (hT : c.seeks h parameter ⊆ T)
    (hW : c.sets h parameter ⊆ W) (v : Value) :
    Follows T W ρ (fun _ => Eq) (c.set parameter v) (d.set parameter v) h k := by
  unfold Context.set
  have hnew : Follows T W ρ (fun ρ' i j => ρ'.items i j ∧ .item i ∈ T)
      (Act.change fun h => h.newItem v) (Act.change fun h => h.newItem v) h k :=
    .change (hm.newItem v) ⟨.inr ⟨rfl, rfl⟩, hm.unmade (Nat.lt_irrefl _)⟩
  refine hnew.bind fun ρ' i j h' k' hx _ hstep hij => ?_
  have hsame : h'.scopes = h.scopes := by cases hx; rfl
  refine hstep.matched.setItem_follows (hcd.mono hstep.within) hij.1 hij.2 ?_ ?_
  · rw [Context.seeks_scopes hsame]
    exact hT
  · rw [Context.sets_scopes hsame]
    exact hW

end HeapsMatch

end ScopeFlow
