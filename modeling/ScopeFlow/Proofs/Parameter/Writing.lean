import ScopeFlow.Proofs.Parameter.Reading
import ScopeFlow.Proofs.Scope.Aliasing

/-!
# Writing through parameters

A write looks for the variable where a read does, so that a read after it finds
what was written, and no other read can tell.

* `Heap.Rebound` says that one name in one scope has come to be bound to
  another item, or to none, and that nothing else has changed;
* `Context.setItem_rebinds` and `Context.remove_rebinds` say which name and
  scope that is, `Context.get_of_rebound` that parameters which stand for other
  names are read as before;
* `Context.writes_then_reads` puts the two sides together.

A removal looks at the bound scope alone. What is read after it is what the
scopes of the frames bind elsewhere, or else the default.
-/

namespace ScopeFlow

variable {ctx c : Context} {h h' : Heap} {ss : List ScopeId} {s t : ScopeId}
  {name other parameter q : String} {i j : ItemId} {now default : Option ItemId} {type : ValueType}
  {e : Failure} {resolution : Except Failure Resolution} {r : Referent}

/-! ## One binding changed -/

namespace Heap

/-- A name in a scope is bound to another item, or to none; all else is as it
was. -/
structure Rebound (h h' : Heap) (s : ScopeId) (name : String) (now : Option ItemId) : Prop where
  items : h'.items = h.items
  binding : ∀ t other, h'.binding? t other = if t = s ∧ other = name then now else h.binding? t other
  /-- Names of scopes and the tree are left alone. -/
  shape : ∀ t, (h'.scope t).name = (h.scope t).name ∧ (h'.scope t).children = (h.scope t).children ∧
    (h'.scope t).parent = (h.scope t).parent

theorem rebound_bindVariable (hs : s.index < h.scopes.size) :
    h.Rebound (h.bindVariable s name i) s name (some i) where
  items := rfl
  binding := by
    intro t other
    rw [binding?_bindVariable hs]
    simp only [eq_comm]
  shape := by
    intro t
    rw [bindVariable, scope_updateScope]
    split
    · rename_i hts
      rw [hts.1]
      exact ⟨rfl, rfl, rfl⟩
    · exact ⟨rfl, rfl, rfl⟩

/-- A scope that is not there binds nothing, so that nothing is lost with it. -/
theorem rebound_unbindVariable : h.Rebound (h.unbindVariable s name) s name none where
  items := rfl
  binding := by
    intro t other
    rw [unbindVariable, binding?, scope_updateScope]
    by_cases hs : s.index < h.scopes.size
    · by_cases ht : t = s
      · subst ht
        simp only [hs, and_self, if_true, true_and, Bindings.find?_erase, eq_comm, binding?]
      · simp [ht, binding?]
    · by_cases ht : t = s
      · subst ht
        simp [hs, binding?, scope_of_le (Nat.le_of_not_lt hs), Scope.named]
      · simp [ht, binding?]
  shape := by
    intro t
    rw [unbindVariable, scope_updateScope]
    split
    · rename_i hts
      rw [hts.1]
      exact ⟨rfl, rfl, rfl⟩
    · exact ⟨rfl, rfl, rfl⟩

namespace Rebound

theorem binding_self (hb : h.Rebound h' s name now) : h'.binding? s name = now := by
  rw [hb.binding]
  simp

theorem binding_of_ne_scope (hb : h.Rebound h' s name now) (ht : t ≠ s) :
    h'.binding? t other = h.binding? t other := by
  rw [hb.binding]
  simp [ht]

theorem binding_of_ne_name (hb : h.Rebound h' s name now) (hother : other ≠ name) :
    h'.binding? t other = h.binding? t other := by
  rw [hb.binding]
  simp [hother]

/-- The nearest scope that has a variable stays so when the variable gets
another item: the scopes before it are other scopes. -/
theorem nearest (hb : h.Rebound h' s name (some i)) (hn : h.Nearest name ss s j) :
    h'.Nearest name ss s i := by
  have hs := hn.binding
  obtain ⟨before, after, rfl, hbefore, -⟩ := hn
  refine ⟨before, after, rfl, ?_, hb.binding_self⟩
  intro t ht
  have hne : t ≠ s := by
    intro heq
    have hnone := hbefore t ht
    rw [heq, hs] at hnone
    cases hnone
  rw [hb.binding_of_ne_scope hne]
  exact hbefore t ht

/-- A variable created in the first scope is nearest there. -/
theorem nearest_head (hb : h.Rebound h' s name (some i)) : h'.Nearest name (s :: ss) s i :=
  ⟨[], ss, rfl, by simp, hb.binding_self⟩

/-- Without a binding in `s`, the name is looked up in the other scopes. -/
theorem findIn_eq (hb : h.Rebound h' s name none) (ss : List ScopeId) :
    h'.findIn name ss = h.findIn name (ss.filter fun t => t ≠ s) := by
  induction ss with
  | nil => rfl
  | cons t rest ih =>
    by_cases ht : t = s
    · subst ht
      simpa [Heap.findIn, hb.binding_self] using ih
    · simp [Heap.findIn, ht, hb.binding_of_ne_scope ht, ih]

/-- So that a parameter refers to what it does without that scope. -/
theorem refers_of_filter (hb : h.Rebound h' s name none)
    (hr : h.Refers (ss.filter fun t => t ≠ s) (.ok (.variable name default type)) r) :
    h'.Refers ss (.ok (.variable name default type)) r := by
  have hfind := hb.findIn_eq ss
  cases hr with
  | bound hn => exact .bound (Heap.findIn_eq_some_iff.mp (hfind.trans hn.findIn_eq))
  | default hn => exact .default (Heap.findIn_eq_none_iff.mp (hfind.trans hn.findIn_eq))
  | missing hn => exact .missing (Heap.findIn_eq_none_iff.mp (hfind.trans hn.findIn_eq))

end Rebound

end Heap

namespace Context

/-! ## Writing -/

/-- The variable that is bound by a write: in the nearest scope that has it, or
else in the bound scope. -/
theorem target_cases (ctx : Context) (h : Heap) (name : String) :
    (∃ old, h.Nearest name ctx.scopes (ctx.target h name) old) ∨
      h.Unbound name ctx.scopes ∧ ctx.target h name = ctx.scope := by
  unfold target
  rw [find?_eq]
  rcases h.nearest_or_unbound name ctx.scopes with ⟨s, old, hn⟩ | hn
  · rw [hn.findIn_eq]
    exact .inl ⟨old, hn⟩
  · rw [hn.findIn_eq]
    exact .inr ⟨hn, rfl⟩

theorem setItem_of_variable (hres : ctx.resolve parameter = .ok (.variable name default type)) :
    ctx.setItem parameter i h =
      if type.accepts (h.value i).type then (.ok (), h.bindVariable (ctx.target h name) name i)
      else (.error (.typeMismatch parameter type (h.value i).type), h) := by
  unfold setItem
  rw [Act.bind_apply, Act.ofExcept_apply, hres]
  exact Act.check_bind_apply

theorem setItem_of_fixed (hres : ctx.resolve parameter = .ok (.fixed j type)) :
    ctx.setItem parameter i h = (.error (.readOnlyParameter parameter), h) := by
  unfold setItem
  rw [Act.bind_apply, Act.ofExcept_apply, hres]
  rfl

theorem setItem_of_error (hres : ctx.resolve parameter = .error e) :
    ctx.setItem parameter i h = (.error e, h) := by
  unfold setItem
  rw [Act.bind_apply, Act.ofExcept_apply, hres]

/-- A write succeeds for a variable and an item of an accepted type. -/
theorem setItem_eq_ok_iff : (ctx.setItem parameter i h).1 = .ok () ↔ ∃ name default type,
    ctx.resolve parameter = .ok (.variable name default type) ∧ type.accepts (h.value i).type := by
  constructor
  · intro hok
    cases hres : ctx.resolve parameter with
    | error e =>
      rw [setItem_of_error hres] at hok
      cases hok
    | ok resolution =>
      cases resolution with
      | fixed j type =>
        rw [setItem_of_fixed hres] at hok
        cases hok
      | «variable» name default type =>
        refine ⟨name, default, type, rfl, ?_⟩
        rw [setItem_of_variable hres] at hok
        split at hok
        · assumption
        · cases hok
  · intro ⟨name, default, type, hres, haccepts⟩
    rw [setItem_of_variable hres, if_pos haccepts]

/-- It then binds the variable where the next read finds it. -/
theorem setItem_rebinds (hctx : ctx.Within h)
    (hres : ctx.resolve parameter = .ok (.variable name default type))
    (haccepts : type.accepts (h.value i).type) :
    ∃ h', ctx.setItem parameter i h = (.ok (), h') ∧
      h.Rebound h' (ctx.target h name) name (some i) ∧
      h'.Nearest name ctx.scopes (ctx.target h name) i := by
  have hin := hctx _ (ctx.target_mem_scopeChain h name)
  have hb : h.Rebound (h.bindVariable (ctx.target h name) name i) (ctx.target h name) name
      (some i) := Heap.rebound_bindVariable hin
  refine ⟨_, (setItem_of_variable hres).trans (if_pos haccepts), hb, ?_⟩
  rcases ctx.target_cases h name with ⟨old, hn⟩ | ⟨-, htarget⟩
  · exact hb.nearest hn
  · obtain ⟨above, habove⟩ := ctx.exists_scopes_eq
    rw [habove, ← htarget]
    exact hb.nearest_head

/-- A write that fails changes nothing. -/
theorem setItem_error (he : ctx.setItem parameter i h = (.error e, h')) : h' = h ∧
    ((∃ op, e = .unknownOperator op) ∨ e = .unknownParameter ctx.operatorName parameter ∨
      (∃ names, e = .aliasCycle parameter names) ∨ e = .readOnlyParameter parameter ∨
      ∃ expected, e = .typeMismatch parameter expected (h.value i).type) := by
  cases hres : ctx.resolve parameter with
  | error e' =>
    rw [setItem_of_error hres] at he
    cases he
    have hcases := resolve_error_cases hres
    exact ⟨rfl, by grind⟩
  | ok resolution =>
    cases resolution with
    | fixed j type =>
      rw [setItem_of_fixed hres] at he
      cases he
      simp
    | «variable» name default type =>
      rw [setItem_of_variable hres] at he
      split at he
      · cases he
      · cases he
        simp

/-! ## Reading after a change -/

/-- Through a parameter that stands for another name, everything is as before. -/
theorem get_of_rebound (hb : h.Rebound h' s name now)
    (hother : ∀ default type, c.resolve q ≠ .ok (.variable name default type)) :
    (c.get q h').1 = (c.get q h).1 ∧ (c.get q h').2.items = (c.get q h).2.items ∧
      (c.getVariable q h').1 = (c.getVariable q h).1 := by
  refine get_congr c q hb.items fun other default type hres t _ => hb.binding_of_ne_name ?_
  intro heq
  exact hother default type (heq ▸ hres)

/-! ## Removal -/

theorem remove_of_variable (hres : ctx.resolve parameter = .ok (.variable name default type)) :
    ctx.remove parameter h =
      (.ok (h.binding? ctx.scope name), h.unbindVariable ctx.scope name) := by
  unfold remove
  rw [Act.bind_apply, Act.ofExcept_apply, hres]
  rfl

theorem remove_of_fixed (hres : ctx.resolve parameter = .ok (.fixed j type)) :
    ctx.remove parameter h = (.error (.readOnlyParameter parameter), h) := by
  unfold remove
  rw [Act.bind_apply, Act.ofExcept_apply, hres]
  rfl

theorem remove_of_error (hres : ctx.resolve parameter = .error e) :
    ctx.remove parameter h = (.error e, h) := by
  unfold remove
  rw [Act.bind_apply, Act.ofExcept_apply, hres]

/-- A removal unbinds the name in the bound scope, and what is read after it is
what the parameter refers to in the other scopes. -/
theorem remove_rebinds (hres : ctx.resolve parameter = .ok (.variable name default type)) :
    ∃ h', ctx.remove parameter h = (.ok (h.binding? ctx.scope name), h') ∧
      h.Rebound h' ctx.scope name none ∧
      ∃ r, h.Refers (ctx.scopes.filter fun t => t ≠ ctx.scope) (ctx.resolve parameter) r ∧
        ctx.get parameter h' = r.get parameter h' := by
  have hb : h.Rebound (h.unbindVariable ctx.scope name) ctx.scope name none :=
    Heap.rebound_unbindVariable
  obtain ⟨r, hr⟩ := h.exists_refers (ctx.scopes.filter fun t => t ≠ ctx.scope)
    (ctx.resolve parameter)
  refine ⟨_, remove_of_variable hres, hb, r, hr, ?_⟩
  rw [hres] at hr
  have hr' := hb.refers_of_filter hr
  rw [← hres] at hr'
  exact hr'.get

end Context

/-- **Writes are read.** A write through a parameter succeeds exactly if the
parameter stands for a variable and the item is of an accepted type. Whoever
asks after it, for an item or for a variable, gets that very item. The one
binding that has changed is that of the name in the nearest scope that had it,
or in the bound scope if none did; no item has changed, and every parameter of
every context that stands for another name is read as before. A write that
fails changes nothing. A removal of a variable unbinds the name in the bound
scope alone, and what is read after it is what the other scopes of the frames,
and then the default, come to; a removal that fails, as one of a fixed value
does, changes nothing. -/
theorem Context.writes_then_reads (parameter : String) (i : ItemId) (hctx : ctx.Within h) :
    ((ctx.setItem parameter i h).1 = .ok () ↔ ∃ name default type,
      ctx.resolve parameter = .ok (.variable name default type) ∧
        type.accepts (h.value i).type) ∧
    (∀ h', ctx.setItem parameter i h = (.ok (), h') →
      ctx.get parameter h' = (.ok i, h') ∧ ctx.getVariable parameter h' = (.ok (some i), h') ∧
      ∃ name default type s, ctx.resolve parameter = .ok (.variable name default type) ∧
        ((∃ old, h.Nearest name ctx.scopes s old) ∨ h.Unbound name ctx.scopes ∧ s = ctx.scope) ∧
        h.Rebound h' s name (some i) ∧
        ∀ (c : Context) (q : String), (∀ default type, c.resolve q ≠ .ok (.variable name default type)) →
          (c.get q h').1 = (c.get q h).1 ∧ (c.get q h').2.items = (c.get q h).2.items ∧
          (c.getVariable q h').1 = (c.getVariable q h).1 ∧
          (c.getOptional q h').1 = (c.getOptional q h).1) ∧
    (∀ e h', ctx.setItem parameter i h = (.error e, h') → h' = h ∧
      ((∃ op, e = .unknownOperator op) ∨ e = .unknownParameter ctx.operatorName parameter ∨
        (∃ names, e = .aliasCycle parameter names) ∨ e = .readOnlyParameter parameter ∨
        ∃ expected, e = .typeMismatch parameter expected (h.value i).type)) ∧
    (∀ name default type, ctx.resolve parameter = .ok (.variable name default type) →
      ∃ h', ctx.remove parameter h = (.ok (h.binding? ctx.scope name), h') ∧
        h.Rebound h' ctx.scope name none ∧
        ∃ r, h.Refers (ctx.scopes.filter fun t => t ≠ ctx.scope) (ctx.resolve parameter) r ∧
          ctx.get parameter h' = r.get parameter h') ∧
    (∀ value type, ctx.resolve parameter = .ok (.fixed value type) →
      ctx.remove parameter h = (.error (.readOnlyParameter parameter), h)) ∧
    ∀ e, ctx.resolve parameter = .error e → ctx.remove parameter h = (.error e, h) := by
  refine ⟨setItem_eq_ok_iff, ?_, fun e h' => setItem_error, fun name default type => remove_rebinds,
    fun value type => remove_of_fixed, fun e => remove_of_error⟩
  intro h' hset
  have hok : (ctx.setItem parameter i h).1 = .ok () := by rw [hset]
  obtain ⟨name, default, type, hres, haccepts⟩ := setItem_eq_ok_iff.mp hok
  obtain ⟨after, hset', hb, hn⟩ := setItem_rebinds hctx hres haccepts
  obtain rfl : after = h' := by
    rw [hset] at hset'
    exact (Prod.mk.inj hset').2.symm
  have hvalue := Heap.value_congr hb.items i
  have hvariable : (ctx.getVariable parameter after).1 = .ok (some i) :=
    getVariable_eq_some_iff.mpr ⟨name, default, type, _, hres, hn, hvalue.symm ▸ haccepts⟩
  obtain ⟨hgetVariable, hget⟩ := get_of_getVariable hvariable
  refine ⟨hget, hgetVariable, name, default, type, _, hres, ctx.target_cases h name, hb, ?_⟩
  intro c q hother
  obtain ⟨hanswer, hitems, hvariable⟩ := get_of_rebound hb hother
  refine ⟨hanswer, hitems, hvariable, ?_⟩
  rw [getOptional_eq, getOptional_eq, hanswer]

namespace Sample

/-- A write through `Value` rebinds `Cell` in the first scope, two frames up. -/
theorem writes_then_reads_probe :
    probeContext.Within probeHeap ∧
    (probeContext.setItem "Value" ⟨0⟩ probeHeap).1 = .ok () ∧
      (probeContext.get "Value" (probeHeap.bindVariable ⟨0⟩ "Cell" ⟨0⟩)).1 = .ok ⟨0⟩ := by
  have hctx : probeContext.Within probeHeap := by
    have hchain : probeContext.scopeChain = [⟨1⟩, ⟨0⟩] := by rfl
    intro s hs
    rw [hchain] at hs
    show s.index < 2
    simp at hs
    rcases hs with rfl | rfl <;> decide
  have hset : probeContext.setItem "Value" ⟨0⟩ probeHeap =
      (.ok (), probeHeap.bindVariable ⟨0⟩ "Cell" ⟨0⟩) := by rfl
  have hwrite := Context.writes_then_reads "Value" ⟨0⟩ hctx
  exact ⟨hctx, by rw [hset], by rw [(hwrite.2.1 _ hset).1]⟩

end Sample

end ScopeFlow
