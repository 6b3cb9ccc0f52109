import ScopeFlow.Proofs.Clone.Copied
import ScopeFlow.Proofs.Scope.Forest

/-!
# What a region holds

`Heap.HoldsOnly K R held` says that the variables in a region `R` of scopes,
and some further items, have values of which `K` holds; the region is closed
downwards and takes in every scope made from now on. Such a region stays one
under every change that writes only such values and attaches only scopes of
the region, copies of subtrees included (`HoldsOnly.copyAlone`).
-/

namespace ScopeFlow

/-- What is listed after a name has been bound. -/
theorem Bindings.mem_place_entry {name : String} {i : ItemId} {l : List (String × ItemId)}
    {entry : String × ItemId} (he : entry ∈ place name i l) : entry = (name, i) ∨ entry ∈ l := by
  induction l with
  | nil => exact .inl (List.mem_singleton.mp he)
  | cons first rest ih =>
      rw [place] at he
      split at he
      · exact (List.mem_cons.mp he).imp_right (List.mem_cons_of_mem first)
      · split at he
        · exact List.mem_cons.mp he
        · rcases List.mem_cons.mp he with rfl | he
          · exact .inr List.mem_cons_self
          · exact (ih he).imp_right (List.mem_cons_of_mem first)

/-- What is found is listed. -/
theorem Bindings.mem_of_lookup {name : String} {i : ItemId} {l : List (String × ItemId)}
    (hfound : lookup name l = some i) : (name, i) ∈ l := by
  induction l with
  | nil => cases hfound
  | cons entry rest ih =>
      obtain ⟨n, j⟩ := entry
      rw [lookup] at hfound
      split at hfound
      · next hn =>
        obtain rfl := Option.some.inj hfound
        rw [hn]
        exact List.mem_cons_self
      · exact List.mem_cons_of_mem _ (ih hfound)

namespace Heap

/-- The variables of a region and some items hold only values of a kind. -/
structure HoldsOnly (K : Value → Prop) (R : ScopeId → Prop) (held : List ItemId) (h : Heap) :
    Prop where
  fresh : ∀ t : ScopeId, h.scopes.size ≤ t.index → R t
  child : ∀ {t c}, R t → c ∈ (h.scope t).children → R c
  bound : ∀ {t entry}, R t → entry ∈ (h.scope t).bindings.entries → K (h.value entry.2)
  held : ∀ {i}, i ∈ held → K (h.value i)

namespace HoldsOnly

/-- The region takes in all that is below its scopes. -/
theorem below {K : Value → Prop} {R : ScopeId → Prop} {held : List ItemId} {h : Heap} {s t : ScopeId}
    (hh : h.HoldsOnly K R held) (hs : R s) (ht : h.Below s t) : R t := by
  induction ht with
  | self => exact hs
  | child _ hc ih => exact hh.child ih hc

variable {K : Value → Prop} {R : ScopeId → Prop} {held : List ItemId} {h h' : Heap}
  {s child : ScopeId} {f : Scope → Scope} {i : ItemId} {v : Value} {name : String}

/-! ## Items -/

theorem of_values (hh : h.HoldsOnly K R held) (hscopes : h'.scopes = h.scopes)
    (hvalue : ∀ i, h'.value i = h.value i ∨ K (h'.value i)) : h'.HoldsOnly K R held := by
  have hscope := Heap.scope_congr hscopes
  have hkeep : ∀ {i}, K (h.value i) → K (h'.value i) := by
    intro i hi
    rcases hvalue i with heq | hnew
    · rwa [heq]
    · exact hnew
  refine ⟨fun t ht => hh.fresh t (hscopes ▸ ht), fun ht hc => ?_, fun ht he => ?_, fun hi => ?_⟩
  · rw [hscope] at hc
    exact hh.child ht hc
  · rw [hscope] at he
    exact hkeep (hh.bound ht he)
  · exact hkeep (hh.held hi)

theorem newItem (hh : h.HoldsOnly K R held) (hv : K v) : (h.newItem v).2.HoldsOnly K R held := by
  refine hh.of_values rfl fun i => ?_
  simp only [Heap.newItem, value, Array.getElem?_push]
  split
  · exact .inr hv
  · exact .inl rfl

theorem setValue (hh : h.HoldsOnly K R held) (hv : K v) :
    (h.setValue i v).HoldsOnly K R held := by
  refine hh.of_values rfl fun j => ?_
  by_cases hj : j = i
  · subst hj
    by_cases hlt : j.index < h.items.size
    · rw [value_setValue_self hlt]
      exact .inr hv
    · simp [Heap.setValue, value, Array.setIfInBounds, hlt]
  · exact .inl (value_setValue_ne hj)

theorem newContext (hh : h.HoldsOnly K R held) : h.newContext.2.HoldsOnly K R held :=
  hh.of_values rfl fun _ => .inl rfl

/-! ## Scopes -/

theorem of_scopes (hh : h.HoldsOnly K R held) (hitems : h'.items = h.items)
    (hsize : h.scopes.size ≤ h'.scopes.size)
    (hscope : ∀ t, h'.scope t = h.scope t ∨ h.scopes.size ≤ t.index ∧
      (h'.scope t).bindings = .empty ∧ (h'.scope t).children = []) : h'.HoldsOnly K R held := by
  have hvalue := Heap.value_congr hitems
  refine ⟨fun t ht => hh.fresh t (by omega), fun {t c} ht hc => ?_, fun {t entry} ht he => ?_,
    fun hi => ?_⟩
  · rcases hscope t with heq | ⟨-, -, hnone⟩
    · rw [heq] at hc
      exact hh.child ht hc
    · rw [hnone] at hc
      cases hc
  · rw [hvalue]
    rcases hscope t with heq | ⟨-, hnone, -⟩
    · rw [heq] at he
      exact hh.bound ht he
    · rw [hnone] at he
      cases he
  · rw [hvalue]
    exact hh.held hi

theorem newScope (hh : h.HoldsOnly K R held) (name : String) :
    (h.newScope name).2.HoldsOnly K R held := by
  refine hh.of_scopes rfl (by simp [Heap.newScope]) fun t => ?_
  rcases Nat.lt_trichotomy t.index h.scopes.size with hlt | heq | hgt
  · exact .inl (scope_newScope_lt hlt)
  · obtain rfl : t = ⟨h.scopes.size⟩ := by rw [← heq]
    rw [scope_newScope_self]
    exact .inr ⟨Nat.le_refl _, rfl, rfl⟩
  · rw [scope_of_le (by simp [Heap.newScope]; omega)]
    exact .inr ⟨by omega, rfl, rfl⟩

/-- One scope changes: what it now lists is of the region, and what it now
binds has a value of the kind. -/
theorem updateScope (hh : h.HoldsOnly K R held)
    (hchildren : ∀ c ∈ (f (h.scope s)).children, c ∈ (h.scope s).children ∨ R c)
    (hbindings : ∀ entry ∈ (f (h.scope s)).bindings.entries,
      entry ∈ (h.scope s).bindings.entries ∨ K (h.value entry.2)) :
    (h.updateScope s f).HoldsOnly K R held := by
  refine ⟨?_, fun {t c} ht hc => ?_, fun {t entry} ht he => ?_, hh.held⟩
  · intro t ht
    rw [scopes_size_updateScope] at ht
    exact hh.fresh t ht
  · rw [scope_updateScope] at hc
    split at hc
    · next hts =>
      obtain rfl := hts.1
      exact (hchildren c hc).elim (hh.child ht) id
    · exact hh.child ht hc
  · show K (h.value entry.2)
    rw [scope_updateScope] at he
    split at he
    · next hts =>
      obtain rfl := hts.1
      exact (hbindings entry he).elim (hh.bound ht) id
    · exact hh.bound ht he

theorem rename (hh : h.HoldsOnly K R held) (s : ScopeId) (name : String) :
    (h.rename s name).HoldsOnly K R held :=
  hh.updateScope (fun _ => .inl) fun _ => .inl

theorem setParent (hh : h.HoldsOnly K R held) (s : ScopeId) (parent : Option ScopeId) :
    (h.setParent s parent).HoldsOnly K R held :=
  hh.updateScope (fun _ => .inl) fun _ => .inl

theorem bindVariable (hh : h.HoldsOnly K R held) (s : ScopeId) (name : String)
    (hi : K (h.value i)) : (h.bindVariable s name i).HoldsOnly K R held := by
  refine hh.updateScope (fun _ => .inl) fun entry he => ?_
  rcases Bindings.mem_place_entry he with rfl | he
  · exact .inr hi
  · exact .inl he

theorem appendFresh (hh : h.HoldsOnly K R held) (s : ScopeId) (count : Nat) :
    (h.appendFresh s count).HoldsOnly K R held := by
  have hadd : (h.addScopes (emptyScopes (h.scope s).children.length count s)).HoldsOnly
      K R held := by
    refine hh.of_scopes rfl ?_ fun t => ?_
    · rw [scopes_size_addScopes]
      omega
    · by_cases ht : t.index < h.scopes.size
      · exact .inl (scope_addScopes_lt _ ht)
      · have hle : h.scopes.size ≤ t.index := Nat.not_lt.mp ht
        rcases emptyScopes_cases hle with heq | ⟨n, -, -, heq⟩
        · rw [heq]
          exact .inr ⟨hle, rfl, rfl⟩
        · rw [heq]
          exact .inr ⟨hle, rfl, rfl⟩
  refine hadd.updateScope (fun c hc => ?_) fun _ => .inl
  rcases List.mem_append.mp hc with hc | hc
  · exact .inl hc
  · obtain ⟨k, -, rfl⟩ := List.mem_map.mp hc
    exact .inr (hh.fresh _ (Nat.le_add_right ..))

theorem detachAll (hh : h.HoldsOnly K R held) (cs : List ScopeId) :
    (h.detachAll cs).HoldsOnly K R held := by
  induction cs generalizing h with
  | nil => exact hh
  | cons c cs ih => exact ih (hh.setParent c none)

theorem removeChild (hh : h.HoldsOnly K R held) (s : ScopeId) (place : Nat) :
    (h.removeChild s place).2.HoldsOnly K R held := by
  unfold Heap.removeChild
  split
  · exact hh
  · refine setParent (hh.updateScope (fun c hc => .inl ?_) fun _ => .inl) _ none
    exact List.mem_of_mem_eraseIdx hc

theorem clearChildren (hh : h.HoldsOnly K R held) (s : ScopeId) :
    (h.clearChildren s).2.HoldsOnly K R held :=
  detachAll (hh.updateScope (by simp) fun _ => .inl) _

theorem addChild (hh : h.HoldsOnly K R held) (hc : R child) (hadd : h.addChild s child = .ok h') :
    h'.HoldsOnly K R held := by
  unfold Heap.addChild insertChild at hadd
  split at hadd
  · cases hadd
  · split at hadd
    · cases hadd
    · dsimp only at hadd
      split at hadd
      · cases hadd
      · cases hadd
        refine (hh.setParent child (some s)).updateScope (fun c hmem => ?_) fun _ => .inl
        rcases List.eq_or_mem_of_mem_insertIdx hmem with rfl | hmem
        · exact .inr hc
        · exact .inl hmem

end HoldsOnly

end Heap

/-! ## Copies -/

/-- A heap in the course of copying whose region holds only such values, and
so does what has been copied: it is of the region and of the kind. -/
structure Copying.HoldsOnly (K : Value → Prop) (R : ScopeId → Prop) (held : List ItemId)
    (contexts : Nat) (c : Copying) : Prop where
  heap : c.heap.HoldsOnly K R held
  item : ∀ {i j}, c.session.itemTo i j → K (c.heap.value j)
  scope : ∀ {s t}, c.session.scopeTo s t → R t
  operators : c.session.operators = []
  /-- No context is made. -/
  contexts : c.heap.contexts = contexts

section Copies

variable {K : Value → Prop} {R : ScopeId → Prop} {held : List ItemId} {n : Nat} {c : Copying}

theorem ItemId.copy_holdsOnly (hc : c.HoldsOnly K R held n) {i : ItemId} (hi : K (c.heap.value i)) :
    (i.copy c).2.HoldsOnly K R held n ∧ K ((i.copy c).2.heap.value (i.copy c).1) ∧
      ∀ j, K (c.heap.value j) → K ((i.copy c).2.heap.value j) := by
  cases hfound : c.session.items.lookup i with
  | some j =>
      rw [copy_found hfound]
      exact ⟨hc, hc.item hfound, fun _ hj => hj⟩
  | none =>
      have hid : (c.heap.value i).mapOperator c.session.operator = c.heap.value i := by
        have hop : c.session.operator = id := by
          funext o
          rw [Session.operator, hc.operators]
          rfl
        rw [hop, Value.mapOperator_id]
      rw [copy_fresh hfound, hid]
      have hkeep : ∀ j, K (c.heap.value j) → K ((c.heap.newItem (c.heap.value i)).2.value j) := by
        intro j hj
        simp only [Heap.newItem, Heap.value, Array.getElem?_push]
        split
        · exact hi
        · exact hj
      have hself : K ((c.heap.newItem (c.heap.value i)).2.value ⟨c.heap.items.size⟩) := by
        rw [Heap.value_newItem_self]
        exact hi
      refine ⟨⟨hc.heap.newItem hi, fun {a b} hab => ?_, hc.scope, hc.operators, hc.contexts⟩,
        hself, hkeep⟩
      rcases lookup_cons_iff.mp hab with ⟨-, rfl⟩ | ⟨-, hab⟩
      · exact hself
      · exact hkeep _ (hc.item hab)

theorem copyVariables_holdsOnly {target : ScopeId} {entries : List (String × ItemId)}
    (hc : c.HoldsOnly K R held n) (hentries : ∀ entry ∈ entries, K (c.heap.value entry.2)) :
    (copyVariables target entries c).2.HoldsOnly K R held n := by
  induction entries generalizing c with
  | nil => exact hc
  | cons entry rest ih =>
      obtain ⟨name, i⟩ := entry
      obtain ⟨hcopy, hvalue, hkeep⟩ := i.copy_holdsOnly hc (hentries (name, i) List.mem_cons_self)
      refine ih (c := ⟨(i.copy c).2.session,
        (i.copy c).2.heap.bindVariable target name (i.copy c).1⟩) ?_ ?_
      · exact { hcopy with heap := hcopy.heap.bindVariable target name hvalue }
      · exact fun entry hmem => hkeep _ (hentries entry (List.mem_cons_of_mem _ hmem))

theorem adopt_holdsOnly {parent child : ScopeId} (hc : c.HoldsOnly K R held n) (hchild : R child) :
    (adopt parent child c).2.HoldsOnly K R held n := by
  refine { hc with heap := ?_ }
  refine (hc.heap.setParent child (some parent)).updateScope (fun x hx => ?_) fun _ => .inl
  rcases List.mem_append.mp hx with hx | hx
  · exact .inl hx
  · obtain rfl := List.mem_singleton.mp hx
    exact .inr hchild

theorem copyChildren_holdsOnly {copyOne : ScopeId → Copy ScopeId}
    (hone : ∀ {s c}, Copying.HoldsOnly K R held n c → R s →
      (copyOne s c).2.HoldsOnly K R held n ∧ R (copyOne s c).1) {target : ScopeId}
    {children : List ScopeId} (hc : c.HoldsOnly K R held n) (hchildren : ∀ s ∈ children, R s) :
    (copyChildren copyOne target children c).2.HoldsOnly K R held n := by
  induction children generalizing c with
  | nil => exact hc
  | cons s rest ih =>
      obtain ⟨hcopy, hs⟩ := hone hc (hchildren s List.mem_cons_self)
      exact ih (adopt_holdsOnly hcopy hs) fun t ht => hchildren t (List.mem_cons_of_mem _ ht)

theorem copyScopeWithin_holdsOnly (levels : Nat) : ∀ {s : ScopeId} {c : Copying},
    c.HoldsOnly K R held n → R s → (copyScopeWithin levels s c).2.HoldsOnly K R held n ∧
      R (copyScopeWithin levels s c).1 := by
  induction levels with
  | zero => exact fun hc hs => ⟨hc, hs⟩
  | succ levels ih =>
      intro s c hc hs
      rw [copyScopeWithin, Copy.bind_apply]
      dsimp only [Copy.session_apply]
      cases hfound : c.session.scopes.lookup s with
      | some t => exact ⟨hc, hc.scope hfound⟩
      | none =>
          have hnew : R ⟨c.heap.scopes.size⟩ := hc.heap.fresh _ (Nat.le_refl _)
          have hstart : Copying.HoldsOnly K R held n
              ⟨{ c.session with scopes := (s, ⟨c.heap.scopes.size⟩) :: c.session.scopes },
                (c.heap.newScope (c.heap.scope s).name).2⟩ := by
            refine ⟨hc.heap.newScope _, hc.item, fun {a b} hab => ?_, hc.operators, hc.contexts⟩
            rcases lookup_cons_iff.mp hab with ⟨-, rfl⟩ | ⟨-, hab⟩
            · exact hnew
            · exact hc.scope hab
          refine ⟨copyChildren_holdsOnly ih (copyVariables_holdsOnly hstart ?_) ?_, hnew⟩
          · exact fun entry he => hc.heap.bound hs he
          · exact fun t ht => hc.heap.child hs ht

/-- The copy of a subtree, in a session of its own. -/
theorem Heap.HoldsOnly.copied {h : Heap} (hh : h.HoldsOnly K R held) {s : ScopeId} (hs : R s) :
    (h.copyAlone s.copy).2.HoldsOnly K R held ∧ R (h.copyAlone s.copy).1 ∧
      (h.copyAlone s.copy).2.contexts = h.contexts := by
  have hstart : Copying.HoldsOnly K R held h.contexts ⟨.empty, h⟩ := ⟨hh, nofun, nofun, rfl, rfl⟩
  obtain ⟨hc, hcopy⟩ := copyScopeWithin_holdsOnly (h.scopes.size + 1) hstart hs
  exact ⟨hc.heap, hcopy, hc.contexts⟩

end Copies

theorem Heap.HoldsOnly.copyAlone {K : Value → Prop} {R : ScopeId → Prop} {held : List ItemId}
    {h : Heap} (hh : h.HoldsOnly K R held) {s : ScopeId} (hs : R s) :
    (h.copyAlone s.copy).2.HoldsOnly K R held ∧ R (h.copyAlone s.copy).1 :=
  ⟨(hh.copied hs).1, (hh.copied hs).2.1⟩

/-- Every heap holds only values of the kind of all values. -/
theorem Heap.contexts_copyAlone (h : Heap) (s : ScopeId) :
    (h.copyAlone s.copy).2.contexts = h.contexts := by
  have hall : h.HoldsOnly (fun _ => True) (fun _ => True) [] :=
    ⟨fun _ _ => trivial, fun _ _ => trivial, fun _ _ => trivial, fun _ => trivial⟩
  exact (hall.copied trivial).2.2

end ScopeFlow
