import ScopeFlow.Proofs.Operator.Counting
import ScopeFlow.Proofs.Operator.Locality

/-!
# One variable all along

An operator that keeps account of something in a variable writes to the item of
the variable in place. Where there is no variable, the first execution makes it
in the bound scope, and the later ones find it there.

* `Heap.Rewritten` says that an item has got another value and that nothing else
  has changed, `Heap.Gained` that a scope has got one variable more;
* both go on under further writes to the item (`Rewritten.trans`,
  `Gained.rewrite`), so that many executions come to what one would;
* `Context.set_of_unbound` says that a write through a parameter whose name is
  unbound makes the variable, `Context.set_of_refused` and `Context.set_of_fixed`
  when it fails.
-/

namespace ScopeFlow

variable {ctx : Context} {h h' h'' : Heap} {ss : List ScopeId} {s t : ScopeId}
  {name other parameter : String} {i x : ItemId} {u v : Value} {default : Option ItemId}
  {type : ValueType}

namespace Heap

/-- An item that is not there reads as false. -/
theorem lt_of_value (hv : h.value i ≠ .bool false) : i.index < h.items.size := by
  by_contra hle
  exact hv (by simp [value, Array.getElem?_eq_none (Nat.le_of_not_lt hle)])

/-! ## Heaps that have only been read -/

namespace Untouched

theorem refl : h.Untouched h := ⟨.refl, rfl⟩

theorem trans (hu : h.Untouched h') (hu' : h'.Untouched h'') : h.Untouched h'' :=
  ⟨hu.toItemsKept.trans hu'.toItemsKept, hu'.scopes.trans hu.scopes⟩

theorem newItem (v : Value) : h.Untouched (h.newItem v).2 := ⟨.newItem v, rfl⟩

theorem binding? (hu : h.Untouched h') (t : ScopeId) (name : String) :
    h'.binding? t name = h.binding? t name :=
  binding?_scopes hu.scopes t name

theorem nearest (hu : h.Untouched h') (hn : h.Nearest name ss s i) : h'.Nearest name ss s i :=
  hn.congr fun t _ => hu.binding? t name

theorem unbound (hu : h.Untouched h') (hn : h.Unbound name ss) : h'.Unbound name ss :=
  hn.congr fun t _ => hu.binding? t name

/-- A value that is there is still there. -/
theorem value_eq (hu : h.Untouched h') (hv : h.value i = v) (hne : v ≠ .bool false) :
    h'.value i = v :=
  (hu.value (lt_of_value (hv ▸ hne))).trans hv

end Untouched

/-! ## An item written to in place -/

/-- An item has got another value; all scopes, and all other items that were
there, are as they were. -/
structure Rewritten (h h' : Heap) (x : ItemId) (v : Value) : Prop where
  scopes : h'.scopes = h.scopes
  size : h.items.size ≤ h'.items.size
  value : h'.value x = v
  other : ∀ i : ItemId, i.index < h.items.size → i ≠ x → h'.value i = h.value i

namespace Rewritten

theorem refl (hx : h.value x = v) : h.Rewritten h x v :=
  ⟨rfl, Nat.le_refl _, hx, fun _ _ _ => rfl⟩

theorem setValue (hx : x.index < h.items.size) : h.Rewritten (h.setValue x v) x v :=
  ⟨rfl, by simp [Heap.setValue], value_setValue_self hx, fun _ _ => value_setValue_ne⟩

theorem trans (hw : h.Rewritten h' x u) (hw' : h'.Rewritten h'' x v) : h.Rewritten h'' x v where
  scopes := hw'.scopes.trans hw.scopes
  size := Nat.le_trans hw.size hw'.size
  value := hw'.value
  other := fun i hi hne =>
    (hw'.other i (Nat.lt_of_lt_of_le hi hw.size) hne).trans (hw.other i hi hne)

theorem nearest (hw : h.Rewritten h' x v) (hn : h.Nearest name ss s i) : h'.Nearest name ss s i :=
  hn.congr fun t _ => binding?_scopes hw.scopes t name

end Rewritten

/-- Reading before a write leaves no trace. -/
theorem Untouched.rewrite (hu : h.Untouched h') (hw : h'.Rewritten h'' x v) :
    h.Rewritten h'' x v where
  scopes := hw.scopes.trans hu.scopes
  size := Nat.le_trans hu.size hw.size
  value := hw.value
  other := fun i hi hne => (hw.other i (Nat.lt_of_lt_of_le hi hu.size) hne).trans (hu.value hi)

/-! ## A variable made -/

/-- A scope has got one variable more, with an item of its own; all other
bindings, the tree, and all items that were there are as they were. -/
structure Gained (h h' : Heap) (s : ScopeId) (name : String) (x : ItemId) (v : Value) : Prop
    extends h.ItemsKept h' where
  fresh : h.items.size ≤ x.index
  holds : h'.value x = v
  binding : ∀ t other,
    h'.binding? t other = if t = s ∧ other = name then some x else h.binding? t other
  /-- Names of scopes and the tree are left alone. -/
  shape : ∀ t, (h'.scope t).name = (h.scope t).name ∧ (h'.scope t).children = (h.scope t).children ∧
    (h'.scope t).parent = (h.scope t).parent

namespace Gained

theorem setVariable (hs : s.index < h.scopes.size) :
    h.Gained (h.setVariable s name v) s name ⟨h.items.size⟩ v :=
  have hb : (h.newItem v).2.Rebound (h.setVariable s name v) s name (some ⟨h.items.size⟩) :=
    rebound_bindVariable hs
  { ItemsKept.trans (.newItem v) (.of_items hb.items) with
    fresh := Nat.le_refl _
    holds := by rw [Heap.value, hb.items]; exact value_newItem_self
    binding := hb.binding
    shape := hb.shape }

/-- The item has been made since, so that a write to it is all that comes of it. -/
theorem rewrite (hg : h.Gained h' s name x u) (hw : h'.Rewritten h'' x v) :
    h.Gained h'' s name x v where
  size := Nat.le_trans hg.size hw.size
  value := by
    intro i hi
    have hne : i ≠ x := ItemId.ne_iff.mpr (Nat.ne_of_lt (Nat.lt_of_lt_of_le hi hg.fresh))
    exact (hw.other i (Nat.lt_of_lt_of_le hi hg.size) hne).trans (hg.value hi)
  fresh := hg.fresh
  holds := hw.value
  binding := fun t other => (binding?_scopes hw.scopes t other).trans (hg.binding t other)
  shape := by
    intro t
    rw [scope_congr hw.scopes]
    exact hg.shape t

/-- A variable made in the bound scope is the nearest of its name. -/
theorem nearest (hg : h.Gained h' ctx.scope name x v) :
    h'.Nearest name ctx.scopes ctx.scope x := by
  obtain ⟨above, habove⟩ := ctx.exists_scopes_eq
  exact ⟨[], above, habove, nofun, by simp [hg.binding]⟩

end Gained

theorem Untouched.gain (hu : h.Untouched h') (hg : h'.Gained h'' s name x v) :
    h.Gained h'' s name x v :=
  { hu.toItemsKept.trans hg.toItemsKept with
    fresh := Nat.le_trans hu.size hg.fresh
    holds := hg.holds
    binding := fun t other => by rw [hg.binding, hu.binding?]
    shape := by
      intro t
      rw [← scope_congr hu.scopes]
      exact hg.shape t }

end Heap

namespace Context

/-- Reading a number leaves the heap as it is, up to copies. -/
theorem getInt_untouched (ctx : Context) (parameter : String) (h : Heap) :
    h.Untouched (ctx.getInt parameter h).2 :=
  .of_row (typed_along .int Value.int? h)

/-- A name that is bound nowhere gets bound in the bound scope. -/
theorem target_of_unbound (hn : h.Unbound name ctx.scopes) : ctx.target h name = ctx.scope := by
  rcases ctx.target_cases h name with ⟨old, hnearest⟩ | ⟨-, htarget⟩
  · exact absurd hn hnearest.not_unbound
  · exact htarget

/-- A write through a parameter whose name is bound nowhere makes the variable. -/
theorem set_of_unbound (hres : ctx.resolve parameter = .ok (.variable name default type))
    (hn : h.Unbound name ctx.scopes) (haccepts : type.accepts v.type) :
    ctx.set parameter v h = (.ok (), h.setVariable ctx.scope name v) := by
  have hn' : (h.newItem v).2.Unbound name ctx.scopes := (Heap.Untouched.newItem v).unbound hn
  rw [set, Act.bind_apply, Act.change_apply]
  show ctx.setItem parameter ⟨h.items.size⟩ (h.newItem v).2 = _
  rw [setItem_of_variable hres, Heap.value_newItem_self, if_pos haccepts, target_of_unbound hn']
  rfl

/-- A value of a type that is not accepted is not written. -/
theorem set_of_refused (hres : ctx.resolve parameter = .ok (.variable name default type))
    (hrefused : type.accepts v.type = false) :
    ctx.set parameter v h = (.error (.typeMismatch parameter type v.type), (h.newItem v).2) := by
  rw [set, Act.bind_apply, Act.change_apply]
  show ctx.setItem parameter ⟨h.items.size⟩ (h.newItem v).2 = _
  rw [setItem_of_variable hres, Heap.value_newItem_self, if_neg (by simp [hrefused])]

/-- Nor is a fixed value written to. -/
theorem set_of_fixed (hres : ctx.resolve parameter = .ok (.fixed i type)) :
    ctx.set parameter v h = (.error (.readOnlyParameter parameter), (h.newItem v).2) := by
  rw [set, Act.bind_apply, Act.change_apply]
  exact setItem_of_fixed hres

end Context

end ScopeFlow
