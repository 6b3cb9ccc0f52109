import ScopeFlow.Proofs.Operator.Accumulating
import ScopeFlow.Proofs.Operator.Drawing

/-!
# Values of another kind

A counter needs an integer and a draw a random source, but their parameters may
be declared so that values of other kinds pass the check of types. Most of
these are told apart in time, and the execution fails with nothing changed.
Some are not.

* `Context.Overlooks` says when a counter takes a value that is no integer for
  zero; `Context.counter_on_others` says that it then writes an integer over it,
  or makes a variable beside it, and that in all other cases it fails without a
  trace;
* `Context.Misfit` says when a default becomes a variable before it is found to
  be no source; `Context.failed_draws` says that this is the one trace that a
  failed draw leaves.
-/

namespace ScopeFlow

variable {α : Type} {ctx : Context} {h h' : Heap} {w : World} {s : ScopeId} {j x : ItemId}
  {name parameter : String} {default : Option ItemId} {type : ValueType} {r : Referent}
  {e : Failure} {i : Int64}

/-- What is declared as an integer takes integers only. -/
theorem Value.int?_of_accepts {v : Value} (haccepts : ValueType.int.accepts v.type) :
    v.int? ≠ none := by
  cases v <;> first | exact Option.some_ne_none _ | cases haccepts

/-- What is declared as a source takes sources only. -/
theorem Value.random?_of_accepts {v : Value} (haccepts : ValueType.random.accepts v.type) :
    v.random? ≠ none := by
  cases v <;> first | exact Option.some_ne_none _ | cases haccepts

namespace Context

/-! ## Counters -/

/-- An item passes for what a counter counts up, whether or not it holds an
integer: it is a variable's and of a type that is accepted, or it is the default
of a variable to be made, and an integer would be accepted as well. -/
inductive Overlooks (ctx : Context) (h : Heap) (x : ItemId) : Prop
  | shared {name : String} {default : Option ItemId} {type : ValueType} {s : ScopeId} :
      ctx.resolve "Value" = .ok (.variable name default type) → h.Nearest name ctx.scopes s x →
      type.accepts (h.value x).type → ctx.Overlooks h x
  | default {name : String} {type : ValueType} :
      ctx.resolve "Value" = .ok (.variable name (some x) type) → h.Unbound name ctx.scopes →
      type.accepts (h.value x).type → type.accepts .int → ctx.Overlooks h x

/-- Reading makes no difference to that. -/
theorem Overlooks.of_untouched (hu : h.Untouched h') (hx : x.index < h.items.size)
    (ho : ctx.Overlooks h' x) : ctx.Overlooks h x := by
  have hsame : ∀ name, ∀ t ∈ ctx.scopes, h.binding? t name = h'.binding? t name :=
    fun name t _ => (hu.binding? t name).symm
  have hvalue : h'.value x = h.value x := hu.value hx
  cases ho with
  | shared hres hn haccepts => exact .shared hres (hn.congr (hsame _)) (hvalue ▸ haccepts)
  | default hres hn haccepts hint =>
      exact .default hres (hn.congr (hsame _)) (hvalue ▸ haccepts) hint

/-- Under a declaration as an integer nothing is overlooked. -/
theorem Overlooks.type_ne_int {resolution : Resolution} (ho : ctx.Overlooks h x)
    (hother : (h.value x).int? = none) (hres : ctx.resolve "Value" = .ok resolution) :
    resolution.expected ≠ .int := by
  rintro hexpected
  cases ho with
  | shared hres' _ haccepts =>
    obtain rfl := Except.ok.inj (hres.symm.trans hres')
    obtain rfl : _ = ValueType.int := hexpected
    exact Value.int?_of_accepts haccepts hother
  | default hres' _ haccepts _ =>
    obtain rfl := Except.ok.inj (hres.symm.trans hres')
    obtain rfl : _ = ValueType.int := hexpected
    exact Value.int?_of_accepts haccepts hother

/-- A counter whose increment cannot be read fails. -/
theorem count_unread (he : (ctx.getInt "Increment" h).1 = .error e) :
    ∃ h', ctx.count h = (.error e, h') ∧ h.Untouched h' := by
  have hread := ctx.getInt_untouched "Increment" h
  unfold count
  rw [Act.bind_apply]
  rcases hget : ctx.getInt "Increment" h with ⟨answer, h'⟩
  rw [hget] at he hread
  obtain rfl : answer = .error e := he
  exact ⟨h', rfl, hread⟩

/-- A value of a type that is not accepted is neither a variable to count up
nor a default to start from. -/
theorem countBy_refused (hr : h.Refers ctx.scopes (ctx.resolve "Value") r)
    (hmeant : r.meant? = some (x, type)) (hrefused : type.accepts (h.value x).type = false) :
    ctx.countBy i h = (.error (.typeMismatch "Value" type (h.value x).type), h) := by
  have hnot : ¬ type.accepts (h.value x).type := by simp [hrefused]
  cases r with
  | missing name => cases hmeant
  | refused e => cases hmeant
  | shared y type' =>
    cases hmeant
    rw [countBy, Act.bind_apply, hr.getVariable, Referent.getVariable_shared, if_neg hnot]
  | declared y type' =>
    cases hmeant
    rw [countBy, Act.bind_apply, hr.getVariable, Referent.getVariable_declared]
    dsimp only
    rw [Act.bind_apply, getOptional_eq, hr.get, Referent.get_declared, if_neg hnot]

/-- What is not overlooked makes a counter fail, be it over the type or over a
fixed value. -/
theorem countBy_fails (hr : h.Refers ctx.scopes (ctx.resolve "Value") r)
    (hmeant : r.meant? = some (x, type)) (hnot : ¬ ctx.Overlooks h x) :
    ∃ e h', ctx.countBy i h = (.error e, h') ∧ h.Untouched h' := by
  by_cases haccepts : type.accepts (h.value x).type
  · have hcopied : ∀ v, h.Untouched ((h.newItem (h.value x)).2.newItem v).2 :=
      fun v => (Heap.Untouched.newItem _).trans (.newItem v)
    have hrefers := hr
    generalize hres : ctx.resolve "Value" = resolution at hr
    cases hr with
    | missing _ => cases hmeant
    | refused => cases hmeant
    | bound hn =>
      cases hmeant
      exact absurd (.shared hres hn haccepts) hnot
    | fixed =>
      cases hmeant
      rw [countBy_of_declared hrefers haccepts, set_of_fixed hres]
      exact ⟨_, _, rfl, hcopied _⟩
    | default hn =>
      cases hmeant
      have hrefused : type.accepts .int = false := by
        by_contra hint
        exact hnot (.default hres hn haccepts (by simpa using hint))
      rw [countBy_of_declared hrefers haccepts,
        set_of_refused (v := .int (((h.value x).int?).getD 0 + i)) hres hrefused]
      exact ⟨_, _, rfl, hcopied _⟩
  · exact ⟨_, h, countBy_refused hr hmeant (by simpa using haccepts), .refl⟩

/-- A counter fails, and leaves no trace, unless it overlooks something. -/
theorem count_fails (hr : h.Refers ctx.scopes (ctx.resolve "Value") r)
    (hmeant : r.meant? = some (x, type)) (hx : x.index < h.items.size)
    (hnot : ¬ ctx.Overlooks h x ∨ ∃ e, (ctx.getInt "Increment" h).1 = .error e) :
    ∃ e h', ctx.count h = (.error e, h') ∧ h.Untouched h' := by
  cases hget : (ctx.getInt "Increment" h).1 with
  | error e =>
    obtain ⟨h', hcount, hu⟩ := count_unread hget
    exact ⟨e, h', hcount, hu⟩
  | ok i =>
    have hnot : ¬ ctx.Overlooks h x := by
      rcases hnot with hnot | ⟨e, he⟩
      · exact hnot
      · rw [hget] at he
        cases he
    obtain ⟨h₁, hread, hcount⟩ := count_apply hget
    have hr₁ : h₁.Refers ctx.scopes (ctx.resolve "Value") r :=
      hr.congr fun other _ _ _ t _ => hread.binding? t other
    obtain ⟨e, h₂, hfails, hu⟩ := countBy_fails hr₁ hmeant fun ho => hnot (ho.of_untouched hread hx)
    exact ⟨e, h₂, hcount.trans hfails, hread.trans hu⟩

/-- A variable that is overlooked is written over. -/
theorem count_overwrites (hi : (ctx.getInt "Increment" h).1 = .ok i)
    (hres : ctx.resolve "Value" = .ok (.variable name default type))
    (hn : h.Nearest name ctx.scopes s x) (haccepts : type.accepts (h.value x).type)
    (hx : x.index < h.items.size) (hother : (h.value x).int? = none) :
    ∃ h', ctx.count h = (.ok (), h') ∧ h.Rewritten h' x (.int i) := by
  obtain ⟨h₁, hread, hcount⟩ := count_apply hi
  have hvalue : h₁.value x = h.value x := hread.value hx
  have hr : h₁.Refers ctx.scopes (ctx.resolve "Value") (.shared x type) :=
    hres ▸ .bound (hread.nearest hn)
  refine ⟨h₁.setValue x (.int i), ?_,
    hread.rewrite (.setValue (Nat.lt_of_lt_of_le hx hread.size))⟩
  rw [hcount, countBy_of_shared hr (by rwa [hvalue]), hvalue, hother, Option.getD_none,
    Int64.zero_add]

/-- Beside a default that is overlooked a variable is made. -/
theorem count_supplants (hctx : ctx.Within h) (hi : (ctx.getInt "Increment" h).1 = .ok i)
    (hres : ctx.resolve "Value" = .ok (.variable name (some x) type))
    (hn : h.Unbound name ctx.scopes) (haccepts : type.accepts (h.value x).type)
    (hint : type.accepts .int) (hx : x.index < h.items.size) (hother : (h.value x).int? = none) :
    ∃ h' y, ctx.count h = (.ok (), h') ∧ h.Gained h' ctx.scope name y (.int i) := by
  obtain ⟨h₁, hread, hcount⟩ := count_apply hi
  have hvalue : h₁.value x = h.value x := hread.value hx
  have hr : h₁.Refers ctx.scopes (ctx.resolve "Value") (.declared x type) :=
    hres ▸ .default (hread.unbound hn)
  have hread₂ : h.Untouched (h₁.newItem (h₁.value x)).2 := hread.trans (.newItem _)
  refine ⟨_, _, ?_, hread₂.gain (.setVariable ?_)⟩
  · rw [hcount, countBy_of_declared hr (by rwa [hvalue]), hvalue, hother, Option.getD_none,
      Int64.zero_add]
    exact set_of_unbound hres (hvalue ▸ hread₂.unbound hn) hint
  · rw [hread₂.scopes]
    exact hctx _ ctx.scope_mem_scopeChain

/-- A counter counts, and goes on with its successor. -/
theorem execute_counter {op : Operator} (setting : Setting) (hop : ctx.operator = .ok op)
    (hkind : op.kind = .counter) (w : World) :
    ctx.execute setting w = World.onHeap (ctx.count >>= fun _ => ctx.successor) w := by
  unfold execute
  rw [Act.bind_apply, Act.ofExcept_apply, hop]
  dsimp only
  rw [op.execute_builtIn (by rw [hkind]; rfl)]
  unfold Operator.work
  rw [hkind]

/-- **Counters on other values.** `Value` refers to an item that holds no
integer: it is that of the nearest variable, or a default or fixed value. Unless
the counter overlooks that, its execution fails, and no binding changes, nor any
item that was there, be it that of a variable or of a declaration; the same is
so if `Increment` cannot be read. A declaration as an integer overlooks nothing.
But where the declared type accepts the value of a variable, the execution goes
on to the successor and `Increment` alone is written over it. Where it accepts
the default of a variable to be made, and an integer too, the bound scope gets a
variable with that integer. -/
theorem counter_on_others {op : Operator} (setting : Setting) (hop : ctx.operator = .ok op)
    (hkind : op.kind = .counter) (hctx : ctx.Within w.heap)
    (hr : w.heap.Refers ctx.scopes (ctx.resolve "Value") r) (hmeant : r.meant? = some (x, type))
    (hx : x.index < w.heap.items.size) (hother : (w.heap.value x).int? = none) :
    (¬ ctx.Overlooks w.heap x ∨ (∃ e, (ctx.getInt "Increment" w.heap).1 = .error e) →
      ∃ e h', ctx.execute setting w = (.error e, { w with heap := h' }) ∧ w.heap.Untouched h') ∧
    (type = .int → ¬ ctx.Overlooks w.heap x) ∧
    ∀ i, (ctx.getInt "Increment" w.heap).1 = .ok i →
      (∀ name default s, ctx.resolve "Value" = .ok (.variable name default type) →
        w.heap.Nearest name ctx.scopes s x → type.accepts (w.heap.value x).type →
        ∃ h', ctx.execute setting w = World.onHeap ctx.successor { w with heap := h' } ∧
          w.heap.Rewritten h' x (.int i)) ∧
      ∀ name, ctx.resolve "Value" = .ok (.variable name (some x) type) →
        w.heap.Unbound name ctx.scopes → type.accepts (w.heap.value x).type →
        type.accepts .int →
        ∃ h' y, ctx.execute setting w = World.onHeap ctx.successor { w with heap := h' } ∧
          w.heap.Gained h' ctx.scope name y (.int i) := by
  have hexecute := execute_counter setting hop hkind w
  rw [World.onHeap_apply, Act.bind_apply] at hexecute
  refine ⟨fun hnot => ?_, fun hint ho => ?_, fun i hi => ⟨?_, ?_⟩⟩
  · obtain ⟨e, h', hcount, hu⟩ := count_fails hr hmeant hx hnot
    rw [hcount] at hexecute
    exact ⟨e, h', hexecute, hu⟩
  · obtain ⟨resolution, hres, hexpected⟩ := hr.expected hmeant
    exact ho.type_ne_int hother hres (hexpected.trans hint)
  · intro name default s hres hn haccepts
    obtain ⟨h', hcount, hw⟩ := count_overwrites hi hres hn haccepts hx hother
    rw [hcount] at hexecute
    exact ⟨h', hexecute, hw⟩
  · intro name hres hn haccepts hint
    obtain ⟨h', y, hcount, hg⟩ := count_supplants hctx hi hres hn haccepts hint hx hother
    rw [hcount] at hexecute
    exact ⟨h', y, hexecute, hg⟩

end Context

namespace Sample

/-- A counter by one whose `Value` is declared with a type and perhaps a default. -/
def looseGraph (type : ValueType) (default : Option ItemId) : SharedGraph :=
  ⟨⟨0⟩, ⟨"Tally", .empty,
    #[⟨"Count", ⟨[{ Parameter.lookup "Value" type with default := default },
      { Parameter.lookup "Increment" .int with default := some ⟨0⟩ }]⟩, none, .counter⟩], some ⟨0⟩⟩⟩

/-- The counter on the one scope. -/
def looseContext (type : ValueType) (default : Option ItemId) : Context :=
  .frame ⟨1⟩ ⟨0⟩ ⟨0⟩ [⟨0⟩] (.root ⟨0⟩ (looseGraph type default) ⟨0⟩)

/-- One scope that binds some names, the increment and a text. -/
def looseWorld (bindings : List (String × ItemId)) : World :=
  { World.empty with
    heap := ⟨#[.int 1, .string "x"], #[⟨"Global", ⟨bindings⟩, [], none⟩], 2, 1⟩ }

theorem looseContext_scopes (type : ValueType) (default : Option ItemId) :
    (looseContext type default).scopes = [⟨0⟩, ⟨0⟩] := by rfl

theorem looseContext_within (type : ValueType) (default : Option ItemId)
    (bindings : List (String × ItemId)) :
    (looseContext type default).Within (looseWorld bindings).heap := by
  intro s hs
  rw [Context.mem_scopeChain, looseContext_scopes] at hs
  obtain rfl : s = ⟨0⟩ := by simpa using hs
  exact Nat.one_pos

/-- Declared as an integer, a text is left alone. As the default of a `Value` of
any type, it makes room for an integer. -/
theorem counter_on_others_loose :
    (∃ e h', (looseContext .int none).execute ⟨⟨0⟩, none⟩ (looseWorld [("Value", ⟨1⟩)]) =
        (.error e, { looseWorld [("Value", ⟨1⟩)] with heap := h' }) ∧
      (looseWorld [("Value", ⟨1⟩)]).heap.Untouched h') ∧
    ∃ h' y, (looseContext .any (some ⟨1⟩)).execute ⟨⟨0⟩, none⟩ (looseWorld []) =
        World.onHeap (looseContext .any (some ⟨1⟩)).successor { looseWorld [] with heap := h' } ∧
      (looseWorld []).heap.Gained h' ⟨0⟩ "Value" y (.int 1) := by
  constructor
  · have hn : (looseWorld [("Value", ⟨1⟩)]).heap.Nearest "Value" (looseContext .int none).scopes
        ⟨0⟩ ⟨1⟩ := ⟨[], [⟨0⟩], looseContext_scopes .int none, nofun, rfl⟩
    have hr : (looseWorld [("Value", ⟨1⟩)]).heap.Refers (looseContext .int none).scopes
        ((looseContext .int none).resolve "Value") (.shared ⟨1⟩ .int) := by
      show Heap.Refers _ _ (.ok (.variable "Value" none .int)) _
      exact .bound hn
    have hop : (looseContext .int none).operator = .ok _ := rfl
    obtain ⟨hfails, hint, -⟩ := Context.counter_on_others ⟨⟨0⟩, none⟩ hop rfl
      (looseContext_within _ _ _) hr rfl (by decide) rfl
    exact hfails (.inl (hint rfl))
  · have hn : (looseWorld []).heap.Unbound "Value" (looseContext .any (some ⟨1⟩)).scopes := by
      intro t ht
      rw [looseContext_scopes] at ht
      obtain rfl : t = ⟨0⟩ := by simpa using ht
      rfl
    have hr : (looseWorld []).heap.Refers (looseContext .any (some ⟨1⟩)).scopes
        ((looseContext .any (some ⟨1⟩)).resolve "Value") (.declared ⟨1⟩ .any) := .default hn
    have hop : (looseContext .any (some ⟨1⟩)).operator = .ok _ := rfl
    obtain ⟨-, -, hovers⟩ := Context.counter_on_others ⟨⟨0⟩, none⟩ hop rfl
      (looseContext_within _ _ _) hr rfl (by decide) rfl
    exact (hovers 1 rfl).2 "Value" rfl hn rfl rfl

/-- A text under a `Value` of any type is counted up as if it were zero. -/
theorem counter_destroys_text :
    (looseWorld [("Value", ⟨1⟩)]).heap.value ⟨1⟩ = .string "x" ∧
      ((looseContext .any none).execute ⟨⟨0⟩, none⟩ (looseWorld [("Value", ⟨1⟩)])).1 = .ok none ∧
      ((looseContext .any none).execute ⟨⟨0⟩, none⟩ (looseWorld [("Value", ⟨1⟩)])).2.heap.value
        ⟨1⟩ = .int 1 :=
  ⟨rfl, rfl, rfl⟩

end Sample

namespace Context

/-! ## Draws -/

/-- A default that is no source becomes a variable by being drawn from. -/
inductive Misfit (ctx : Context) (parameter : String) (h : Heap) : Prop
  | default {name : String} {i : ItemId} {type : ValueType} :
      ctx.resolve parameter = .ok (.variable name (some i) type) → h.Unbound name ctx.scopes →
      type.accepts (h.value i).type → (h.value i).random? = none → ctx.Misfit parameter h

/-- From an item that holds no source nothing is drawn, and it is left as it is. -/
theorem withRandom_of_other (hitem : ctx.randomItem parameter h = (.ok x, h'))
    (hother : (h'.value x).random? = none) (f : Random.Source → α × Random.Source) :
    ctx.withRandom parameter f h =
      (.error (.typeMismatch parameter .random (h'.value x).type), h') := by
  rw [withRandom, Act.bind_apply, hitem]
  dsimp only
  rw [Act.bind_apply, Act.see_apply]
  cases hv : h'.value x with
  | random r =>
    rw [hv] at hother
    cases hother
  | _ => rfl

/-- A draw that succeeds has found a source. -/
theorem withRandom_failed (hitem : ctx.randomItem parameter h = (.ok x, h'))
    {f : Random.Source → α × Random.Source} {h'' : Heap}
    (hfailed : ctx.withRandom parameter f h = (.error e, h'')) :
    (h'.value x).random? = none ∧ h'' = h' := by
  cases hother : (h'.value x).random? with
  | none =>
    rw [withRandom_of_other hitem hother] at hfailed
    exact ⟨rfl, (Prod.mk.inj hfailed).2.symm⟩
  | some r =>
    have hv : h'.value x = .random r := by
      cases hv : h'.value x <;> rw [hv] at hother <;> cases hother
      rfl
    rw [withRandom_apply hitem hv] at hfailed
    cases hfailed

/-- A value of a type that is not accepted is not taken, nor is one that is
missing. -/
theorem randomItem_refused (hr : h.Refers ctx.scopes (ctx.resolve parameter) r)
    (hrefused : ∀ i type, r.meant? = some (i, type) → type.accepts (h.value i).type = false) :
    ∃ e, ctx.randomItem parameter h = (.error e, h) := by
  unfold randomItem
  rw [Act.bind_apply, hr.getVariable]
  cases r with
  | refused e => exact ⟨e, rfl⟩
  | shared i type =>
    rw [Referent.getVariable_shared, if_neg (by simp [hrefused i type rfl])]
    exact ⟨_, rfl⟩
  | declared i type =>
    rw [Referent.getVariable_declared]
    dsimp only
    rw [Act.bind_apply, hr.get, Referent.get_declared, if_neg (by simp [hrefused i type rfl])]
    exact ⟨_, rfl⟩
  | missing name =>
    rw [Referent.getVariable_missing]
    dsimp only
    rw [Act.bind_apply, hr.get, Referent.get_missing]
    exact ⟨_, rfl⟩

/-- Without a misfit, a draw that fails leaves everything as it was. -/
theorem withRandom_untouched {f : Random.Source → α × Random.Source}
    (hnot : ¬ ctx.Misfit parameter h) (hfailed : ctx.withRandom parameter f h = (.error e, h')) :
    h.Untouched h' := by
  obtain ⟨r, hr⟩ := h.exists_refers ctx.scopes (ctx.resolve parameter)
  by_cases hrefused : ∀ i type, r.meant? = some (i, type) → type.accepts (h.value i).type = false
  · obtain ⟨e', hitem⟩ := randomItem_refused hr hrefused
    rw [withRandom, Act.bind_apply, hitem] at hfailed
    obtain rfl : h = h' := (Prod.mk.inj hfailed).2
    exact .refl
  · obtain ⟨i, type, hmeant, haccepts⟩ : ∃ i type, r.meant? = some (i, type) ∧
        type.accepts (h.value i).type := by simpa using hrefused
    have hrefers := hr
    generalize hres : ctx.resolve parameter = resolution at hr
    cases hr with
    | refused => cases hmeant
    | missing _ => cases hmeant
    | bound hn =>
      cases hmeant
      obtain ⟨-, rfl⟩ := withRandom_failed (randomItem_of_shared hrefers haccepts) hfailed
      exact .refl
    | fixed =>
      cases hmeant
      obtain ⟨-, rfl⟩ := withRandom_failed (randomItem_of_fixed hres haccepts) hfailed
      exact .newItem _
    | @default name _ _ hn =>
      cases hmeant
      obtain ⟨hother, -⟩ := withRandom_failed (randomItem_of_default hres hn haccepts) hfailed
      have hmade : (h.setVariable ctx.scope name (h.value i)).value ⟨h.items.size⟩ = h.value i :=
        Heap.value_newItem_self
      exact absurd (.default hres hn haccepts (hmade ▸ hother)) hnot

/-- **Failed draws.** A draw that fails leaves everything as it was, no binding
and no item that was there changes, unless it has met a misfit: a default that
the declared type accepts, under a name that is bound nowhere, and that is no
source. Then the draw always fails, over the type of the value, but only after
the bound scope has got a variable of that name with a copy of the default.
Where the parameter is declared as a source there is no misfit. -/
theorem failed_draws (f : Random.Source → α × Random.Source) (parameter : String)
    (hctx : ctx.Within h) :
    (¬ ctx.Misfit parameter h → ∀ e h', ctx.withRandom parameter f h = (.error e, h') →
      h.Untouched h') ∧
    (∀ p, ctx.declared? parameter = some p → p.type = .random → ¬ ctx.Misfit parameter h) ∧
    ∀ name i type, ctx.resolve parameter = .ok (.variable name (some i) type) →
      h.Unbound name ctx.scopes → type.accepts (h.value i).type → (h.value i).random? = none →
      ∃ h' x, ctx.withRandom parameter f h =
          (.error (.typeMismatch parameter .random (h.value i).type), h') ∧
        h.Gained h' ctx.scope name x (h.value i) := by
  refine ⟨fun hnot e h' => withRandom_untouched hnot, ?_, ?_⟩
  · rintro p hp hrandom ⟨hres, hn, haccepts, hother⟩
    obtain ⟨p', hp', htype⟩ := resolve_type hres
    obtain rfl := Option.some.inj (hp.symm.trans hp')
    obtain rfl : _ = ValueType.random := htype.trans hrandom
    exact Value.random?_of_accepts haccepts hother
  · intro name i type hres hn haccepts hother
    have hitem := randomItem_of_default hres hn haccepts
    have hg : h.Gained (h.setVariable ctx.scope name (h.value i)) ctx.scope name ⟨h.items.size⟩
        (h.value i) := .setVariable (hctx _ ctx.scope_mem_scopeChain)
    have hdraw := withRandom_of_other hitem (by rwa [hg.holds]) f
    rw [hg.holds] at hdraw
    exact ⟨_, _, hdraw, hg⟩

end Context

namespace Sample

/-- An operator that draws from a `Random` of any type, which has a default, and
from a `Noise` which has none. -/
def misfitGraph : SharedGraph :=
  ⟨⟨0⟩, ⟨"Noisy", .empty,
    #[⟨"Draw", ⟨[{ Parameter.lookup "Random" .any with default := some ⟨0⟩ },
      Parameter.lookup "Noise" .random]⟩, none, .empty⟩], some ⟨0⟩⟩⟩

/-- The operator on the one scope. -/
def misfitContext : Context := .frame ⟨1⟩ ⟨0⟩ ⟨0⟩ [⟨0⟩] (.root ⟨0⟩ misfitGraph ⟨0⟩)

/-- One scope that binds nothing, and the default, which is no source. -/
def misfitHeap : Heap := ⟨#[.int 1], #[⟨"Global", .empty, [], none⟩], 2, 1⟩

/-- A draw from nothing leaves nothing, one from the default leaves a variable. -/
theorem failed_draws_misfit :
    (∀ e h', misfitContext.withRandom "Noise" (fun r => r.serve [.word]) misfitHeap =
      (.error e, h') → misfitHeap.Untouched h') ∧
    ∃ h' x, misfitContext.withRandom "Random" (fun r => r.serve [.word]) misfitHeap =
        (.error (.typeMismatch "Random" .random .int), h') ∧
      misfitHeap.Gained h' ⟨0⟩ "Random" x (.int 1) := by
  have hchain : misfitContext.scopes = [⟨0⟩, ⟨0⟩] := by rfl
  have hctx : misfitContext.Within misfitHeap := by
    intro s hs
    rw [Context.mem_scopeChain, hchain] at hs
    obtain rfl : s = ⟨0⟩ := by simpa using hs
    exact Nat.one_pos
  have hn : misfitHeap.Unbound "Random" misfitContext.scopes := by
    intro t ht
    rw [hchain] at ht
    obtain rfl : t = ⟨0⟩ := by simpa using ht
    rfl
  constructor
  · obtain ⟨huntouched, hdeclared, -⟩ :=
      Context.failed_draws (fun r => r.serve [.word]) "Noise" hctx
    exact huntouched (hdeclared _ rfl rfl)
  · exact (Context.failed_draws (fun r => r.serve [.word]) "Random" hctx).2.2 "Random" ⟨0⟩ .any rfl
      hn rfl rfl

/-- The variable that a failed draw leaves behind. -/
theorem failed_draw_binds :
    (misfitContext.withRandom "Random" (fun r => r.serve [.word]) misfitHeap).1 =
        .error (.typeMismatch "Random" .random .int) ∧
      misfitHeap.binding? ⟨0⟩ "Random" = none ∧
      (misfitContext.withRandom "Random" (fun r => r.serve [.word]) misfitHeap).2.binding? ⟨0⟩
        "Random" = some ⟨1⟩ :=
  ⟨rfl, rfl, rfl⟩

end Sample

end ScopeFlow
