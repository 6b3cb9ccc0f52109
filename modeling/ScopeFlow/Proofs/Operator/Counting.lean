import ScopeFlow.Proofs.Parameter.Writing

/-!
# Counting up to a limit

A loop whose body counts `Value` up and whose terminator compares it with
`Limit` and writes the outcome to `Terminate`.

* `Counting.graph` is that graph, and `Counting.build_eq` says that it is what
  putting it together comes to;
* `Heap.Tally` says what the scope of a count holds between two operators;
* `Tally.getBool`, `Tally.count` and `Tally.compare` say what the loop, the
  counter and the comparator make of it.
-/

namespace ScopeFlow

variable {ctx : Context} {h h' : Heap} {s : ScopeId} {name parameter : String} {i : ItemId}
  {default : Option ItemId} {type : ValueType} {v : Value}

/-! ## One scope -/

namespace Heap

/-- A variable with a fresh item. -/
def setVariable (h : Heap) (s : ScopeId) (name : String) (v : Value) : Heap :=
  (h.newItem v).2.bindVariable s name ⟨h.items.size⟩

theorem items_size_newItem : (h.newItem v).2.items.size = h.items.size + 1 := by simp [newItem]

theorem items_size_setVariable : (h.setVariable s name v).items.size = h.items.size + 1 :=
  items_size_newItem

/-- The one thing that it changes about scopes. -/
theorem scope_setVariable (name : String) (v : Value) (hs : s.index < h.scopes.size) :
    s.index < (h.setVariable s name v).scopes.size ∧
      ((h.setVariable s name v).scope s).bindings =
        (h.scope s).bindings.insert name ⟨h.items.size⟩ := by
  unfold setVariable bindVariable
  have hs' : s.index < (h.newItem v).2.scopes.size := hs
  rw [scopes_size_updateScope, scope_updateScope_self hs']
  exact ⟨hs, rfl⟩

/-- What has been made before a fresh item is another one. -/
theorem ne_fresh (hi : i.index < h.items.size) : i ≠ ⟨h.items.size⟩ := ItemId.ne_iff.mpr hi.ne

end Heap

namespace Context

/-- A context that is bound to one scope, with all frames above it. -/
def Stays (ctx : Context) (s : ScopeId) : Prop := ∀ t ∈ ctx.scopes, t = s

namespace Stays

variable (hs : ctx.Stays s)
include hs

theorem scope_eq : ctx.scope = s := hs _ ctx.scope_mem_scopes

/-- A variable of the scope is what a parameter refers to. -/
theorem shared (hres : ctx.resolve parameter = .ok (.variable name default type))
    (hi : h.binding? s name = some i) :
    h.Refers ctx.scopes (ctx.resolve parameter) (.shared i type) := by
  obtain ⟨above, habove⟩ := ctx.exists_scopes_eq
  rw [hres, habove, hs.scope_eq]
  exact .bound ⟨[], above, rfl, nofun, hi⟩

/-- Without one, it is the default. -/
theorem declared (hres : ctx.resolve parameter = .ok (.variable name (some i) type))
    (hnone : h.binding? s name = none) :
    h.Refers ctx.scopes (ctx.resolve parameter) (.declared i type) := by
  rw [hres]
  exact .default fun t ht => hs t ht ▸ hnone

theorem missing (hres : ctx.resolve parameter = .ok (.variable name none type))
    (hnone : h.binding? s name = none) :
    h.Refers ctx.scopes (ctx.resolve parameter) (.missing name) := by
  rw [hres]
  exact .missing fun t ht => hs t ht ▸ hnone

/-- A write makes a variable of the scope. -/
theorem set (hres : ctx.resolve parameter = .ok (.variable name default type))
    (haccepts : type.accepts v.type) :
    ctx.set parameter v h = (.ok (), h.setVariable s name v) := by
  have htarget : ctx.target (h.newItem v).2 name = s := by
    rcases ctx.target_cases (h.newItem v).2 name with ⟨old, hn⟩ | ⟨-, htarget⟩
    · exact hs _ hn.mem
    · exact htarget.trans hs.scope_eq
  rw [Context.set, Act.bind_apply, Act.change_apply]
  show ctx.setItem parameter ⟨h.items.size⟩ (h.newItem v).2 = _
  rw [setItem_of_variable hres, Heap.value_newItem_self, if_pos haccepts, htarget]
  rfl

end Stays

/-- The value of a variable is read as it is. -/
theorem value_of_shared (hr : h.Refers ctx.scopes (ctx.resolve parameter) (.shared i type))
    (haccepts : type.accepts (h.value i).type) : ctx.value parameter h = (.ok (h.value i), h) := by
  rw [value, Act.bind_apply, hr.get, Referent.get_shared, if_pos haccepts]
  rfl

/-- A value of a declaration is read off a copy. -/
theorem value_of_declared (hr : h.Refers ctx.scopes (ctx.resolve parameter) (.declared i type))
    (haccepts : type.accepts (h.value i).type) :
    ctx.value parameter h = (.ok (h.value i), (h.newItem (h.value i)).2) := by
  rw [value, Act.bind_apply, hr.get, Referent.get_declared, if_pos haccepts]
  dsimp only
  rw [Act.see_apply, Heap.value_newItem_self]

theorem typed_of_value {α : Type} {as? : Value → Option α} {a : α}
    (hv : ctx.value parameter h = (.ok v, h')) (ha : as? v = some a) :
    ctx.typed parameter type as? h = (.ok a, h') := by
  rw [typed, Act.bind_apply, hv]
  dsimp only
  rw [ha]
  rfl

end Context

/-- An integer below the largest is counted up as one without bounds. -/
theorem Counting.toInt_succ {v : Int64} (hv : v.toInt < 2 ^ 63 - 1) :
    (v + 1).toInt = v.toInt + 1 := by
  have hle := v.le_toInt
  have hone : (1 : Int64).toInt = 1 := rfl
  rw [Int64.toInt_add, hone]
  exact Int.bmod_eq_of_le (by omega) (by omega)

/-- Two integers compare as such. -/
theorem Value.compare?_int (a b : Int64) : ∃ o, (Value.int a).compare? (.int b) = some o ∧
    Comparison.greaterOrEqual.holds o = decide (b ≤ a) := by
  refine ⟨_, rfl, ?_⟩
  by_cases hlt : a < b
  · rw [if_pos hlt, decide_eq_false (Int64.not_le.mpr hlt)]
    rfl
  · rw [if_neg hlt, decide_eq_true (Int64.not_lt.mp hlt)]
    split <;> rfl

/-! ## The graph -/

/-- What stays the same all through a count. -/
structure Counting where
  /-- The default of `Increment`. -/
  one : ItemId
  /-- The default of `Terminate`. -/
  no : ItemId
  scope : ScopeId
  limit : Int64

namespace Counting

variable (c : Counting)

/-- Counts `Value` up by one. -/
def counter : Operator :=
  ⟨"Counter", ⟨[.lookup "Value" .int,
    { Parameter.lookup "Increment" .int with default := some c.one }]⟩, none, .counter⟩

/-- Writes to `Terminate` whether `Value` has reached `Limit`. -/
def comparator : Operator :=
  ⟨"Done?", ⟨[{ Parameter.lookup "Left" .any with actual := "Value" },
    { Parameter.lookup "Right" .any with actual := "Limit" },
    { Parameter.lookup "Result" .bool with actual := "Terminate" }]⟩,
    none, .comparator .greaterOrEqual⟩

/-- Runs the two until `Terminate` holds. -/
def loop : Operator :=
  ⟨"Main", ⟨[{ Parameter.lookup "Terminate" .bool with default := some c.no }]⟩, none,
    .loop (some ⟨0⟩) (some ⟨1⟩)⟩

/-- The graph of the three. -/
def graph : Graph :=
  ⟨"count to ten", .empty, #[c.counter, comparator, c.loop], some ⟨2⟩⟩

/-- Puts the graph together. -/
def build : Act Heap Graph := do
  let counter ← Act.change fun h => h.newOperator "Counter" .counter
  let (body, g) := (Graph.named "count to ten").add counter
  let comparator ← Act.change fun h => h.newOperator "Done?" (.comparator .greaterOrEqual)
  let (done, g) := g.add comparator
  let g ← Act.ofExcept (g.setActual done "Left" "Value")
  let g ← Act.ofExcept (g.setActual done "Right" "Limit")
  let g ← Act.ofExcept (g.setActual done "Result" "Terminate")
  let loop ← Act.change fun h => h.newOperator "Main" (.loop (some body) (some done))
  let (main, g) := g.add loop
  Act.ofExcept (g.setInitial main)

/-- What is put together is this graph, with two fresh items. -/
theorem build_eq (h : Heap) (s : ScopeId) (limit : Int64) : build h =
    (.ok (Counting.mk ⟨h.items.size⟩ ⟨h.items.size + 1⟩ s limit).graph,
      ((h.newItem (.int 1)).2.newItem (.bool false)).2) := by
  have hsize : (h.newItem (.int 1)).2.items.size = h.items.size + 1 := Heap.items_size_newItem
  rw [← hsize]
  rfl

end Counting

/-! ## What the scope holds -/

/-- What the variables of a count are bound to. -/
structure Counting.Items where
  limit : ItemId
  terminate : Option ItemId
  value : Option ItemId

namespace Counting.Items

/-- The bindings of the scope. -/
def bindings (k : Items) : Bindings :=
  ⟨("Limit", k.limit) :: (k.terminate.toList.map (("Terminate", ·)) ++
    k.value.toList.map (("Value", ·)))⟩

variable (k : Items)

theorem find?_bindings (name : String) : k.bindings.find? name =
    if name = "Limit" then some k.limit
    else if name = "Terminate" then k.terminate
    else if name = "Value" then k.value
    else none := by
  unfold bindings Bindings.find?
  cases k.terminate <;> cases k.value <;> grind [Bindings.lookup, Option.toList]

theorem insert_terminate (i : ItemId) :
    k.bindings.insert "Terminate" i = { k with terminate := some i }.bindings := by
  unfold bindings
  cases k.terminate <;> cases k.value <;> rfl

theorem insert_value (i : ItemId) :
    k.bindings.insert "Value" i = { k with value := some i }.bindings := by
  unfold bindings
  cases k.terminate <;> cases k.value <;> rfl

end Counting.Items

/-- The two defaults are in place, and the scope holds `Limit`, perhaps
`Terminate` and `Value`, and nothing else, with `Value` in an item of its own. -/
structure Heap.TallyAt (h : Heap) (c : Counting) (k : Counting.Items) (terminate : Option Bool)
    (value : Option Int64) : Prop where
  scope : c.scope.index < h.scopes.size
  bindings : (h.scope c.scope).bindings = k.bindings
  made : ∀ i ∈ c.one :: c.no :: k.limit :: (k.terminate.toList ++ k.value.toList),
    i.index < h.items.size
  apart : ∀ i, k.value = some i → i ∉ c.one :: c.no :: k.limit :: k.terminate.toList
  one : h.value c.one = .int 1
  no : h.value c.no = .bool false
  limit : h.value k.limit = .int c.limit
  terminate : k.terminate.map h.value = terminate.map .bool
  value : k.value.map h.value = value.map .int

/-- A heap for counting, whatever items the variables are bound to. -/
def Heap.Tally (h : Heap) (c : Counting) (terminate : Option Bool) (value : Option Int64) : Prop :=
  ∃ k, h.TallyAt c k terminate value

namespace Heap

variable {c : Counting} {k : Counting.Items} {terminate : Option Bool} {value : Option Int64}
  {x : ItemId} {u : Int64} {b : Bool}

namespace TallyAt

variable (hh : h.TallyAt c k terminate value)
include hh

theorem binding? (name : String) : h.binding? c.scope name =
    if name = "Limit" then some k.limit
    else if name = "Terminate" then k.terminate
    else if name = "Value" then k.value
    else none := by
  rw [Heap.binding?, hh.bindings, k.find?_bindings]

/-- New items leave everything as it is. -/
theorem kept (hscopes : h'.scopes = h.scopes) (hsize : h.items.size ≤ h'.items.size)
    (hvalue : ∀ i : ItemId, i.index < h.items.size → h'.value i = h.value i) :
    h'.TallyAt c k terminate value := by
  obtain ⟨hscope, hbindings, hmade, hapart, hone, hno, hlimit, hterminate, hx⟩ := hh
  have hmap : ∀ {o : Option ItemId}, (∀ i ∈ o, i.index < h.items.size) →
      o.map h'.value = o.map h.value := by
    intro o ho
    exact Option.map_congr fun i hi => hvalue i (ho i hi)
  refine ⟨by rwa [hscopes], ?_, fun i hi => (hmade i hi).trans_le hsize, hapart, ?_, ?_, ?_, ?_, ?_⟩
  · rw [Heap.scope, hscopes]
    exact hbindings
  · exact (hvalue c.one (hmade _ (by simp))).trans hone
  · exact (hvalue c.no (hmade _ (by simp))).trans hno
  · exact (hvalue k.limit (hmade _ (by simp))).trans hlimit
  · exact (hmap fun i hi => hmade i (by simp_all)).trans hterminate
  · exact (hmap fun i hi => hmade i (by simp_all)).trans hx

theorem newItem (v : Value) : (h.newItem v).2.TallyAt c k terminate value :=
  hh.kept rfl (by simp [Heap.newItem]) fun _ => value_newItem_lt

/-- `Value` is written to in place. -/
theorem setValue (hx : k.value = some x) :
    (h.setValue x (.int u)).TallyAt c k terminate (some u) := by
  obtain ⟨hscope, hbindings, hmade, hapart, hone, hno, hlimit, hterminate, -⟩ := hh
  have hother : ∀ i ∈ c.one :: c.no :: k.limit :: k.terminate.toList,
      (h.setValue x (.int u)).value i = h.value i := fun i hi =>
    value_setValue_ne fun heq => hapart x hx (heq ▸ hi)
  have hsize : (h.setValue x (.int u)).items.size = h.items.size := by simp [Heap.setValue]
  refine ⟨hscope, hbindings, hsize ▸ hmade, hapart, ?_, ?_, ?_, ?_, ?_⟩
  · exact (hother c.one (by simp)).trans hone
  · exact (hother c.no (by simp)).trans hno
  · exact (hother k.limit (by simp)).trans hlimit
  · exact (Option.map_congr fun i hi => hother i (by simp_all)).trans hterminate
  · have hx' : x.index < h.items.size := hmade x (by simp [hx])
    rw [hx, Option.map_some, value_setValue_self hx']
    rfl

/-- `Value` comes into the scope with a fresh item. -/
theorem setVariable_value :
    (h.setVariable c.scope "Value" (.int u)).Tally c terminate (some u) := by
  obtain ⟨hscope, hbindings⟩ := scope_setVariable "Value" (.int u) hh.scope
  obtain ⟨-, -, hmade, -, hone, hno, hlimit, hterminate, -⟩ := hh.newItem (.int u)
  refine ⟨{ k with value := some ⟨h.items.size⟩ }, hscope, ?_, ?_, ?_, hone, hno, hlimit,
    hterminate, congrArg some value_newItem_self⟩
  · rw [hbindings, hh.bindings, k.insert_value]
  · intro i hi
    rw [items_size_setVariable]
    grind [items_size_newItem]
  · intro i hi hmem
    cases hi
    exact ne_fresh (hh.made _ (by grind)) rfl

/-- `Terminate` is bound to a fresh item. -/
theorem setVariable_terminate :
    (h.setVariable c.scope "Terminate" (.bool b)).Tally c (some b) value := by
  obtain ⟨hscope, hbindings⟩ := scope_setVariable "Terminate" (.bool b) hh.scope
  obtain ⟨-, -, hmade, hapart, hone, hno, hlimit, -, hvalue⟩ := hh.newItem (.bool b)
  refine ⟨{ k with terminate := some ⟨h.items.size⟩ }, hscope, ?_, ?_, ?_, hone, hno, hlimit,
    congrArg some value_newItem_self, hvalue⟩
  · rw [hbindings, hh.bindings, k.insert_terminate]
  · intro i hi
    rw [items_size_setVariable]
    grind [items_size_newItem]
  · intro i hi
    have hne := ne_fresh (hh.made i (by grind))
    grind

end TallyAt

/-- At first there is `Limit` alone. -/
theorem tally_limit (hone : h.value c.one = .int 1) (hno : h.value c.no = .bool false)
    (hmade : c.one.index < h.items.size ∧ c.no.index < h.items.size)
    (hs : c.scope.index < h.scopes.size) (hempty : (h.scope c.scope).bindings = .empty) :
    (h.setVariable c.scope "Limit" (.int c.limit)).Tally c none none := by
  obtain ⟨hscope, hbindings⟩ := scope_setVariable "Limit" (.int c.limit) hs
  refine ⟨⟨⟨h.items.size⟩, none, none⟩, hscope, ?_, ?_, by simp, ?_, ?_, value_newItem_self, rfl,
    rfl⟩
  · rw [hbindings, hempty]
    rfl
  · intro i hi
    rw [items_size_setVariable]
    grind
  · exact (value_newItem_lt hmade.1).trans hone
  · exact (value_newItem_lt hmade.2).trans hno

namespace Tally

variable (ht : h.Tally c terminate value)
include ht

/-- Only items and scopes matter. -/
theorem of_same (hscopes : h'.scopes = h.scopes) (hitems : h'.items = h.items) :
    h'.Tally c terminate value := by
  obtain ⟨k, hh⟩ := ht
  exact ⟨k, hh.kept hscopes (by rw [hitems]) fun i _ => Heap.value_congr hitems i⟩

/-- `Terminate` is read, and is false as long as there is none. -/
theorem getBool (hs : ctx.Stays c.scope)
    (hres : ctx.resolve "Terminate" = .ok (.variable "Terminate" (some c.no) .bool)) :
    ∃ h', ctx.getBool "Terminate" h = (.ok (terminate.getD false), h') ∧
      h'.Tally c terminate value := by
  obtain ⟨k, hh⟩ := ht
  have hbinding : h.binding? c.scope "Terminate" = k.terminate := hh.binding? "Terminate"
  have hmap := hh.terminate
  cases hk : k.terminate with
  | none =>
    rw [hk] at hbinding hmap
    obtain rfl : terminate = none := Option.map_eq_none_iff.mp hmap.symm
    have haccepts : ValueType.bool.accepts (h.value c.no).type = true := by rw [hh.no]; rfl
    have hvalue := Context.value_of_declared (hs.declared hres hbinding) haccepts
    exact ⟨_, Context.typed_of_value hvalue (by rw [hh.no]; rfl), k, hh.newItem _⟩
  | some i =>
    rw [hk] at hbinding hmap
    obtain ⟨b, rfl, hb⟩ := Option.map_eq_some_iff.mp hmap.symm
    have haccepts : ValueType.bool.accepts (h.value i).type = true := by rw [← hb]; rfl
    have hvalue := Context.value_of_shared (hs.shared hres hbinding) haccepts
    exact ⟨h, Context.typed_of_value hvalue (by rw [← hb]; rfl), k, hh⟩

/-- `Value` is set before a run. -/
theorem setVariable_value :
    (h.setVariable c.scope "Value" (.int u)).Tally c terminate (some u) := by
  obtain ⟨k, hh⟩ := ht
  exact hh.setVariable_value

/-- `Value` is counted up, from zero if there is none. -/
theorem count (hs : ctx.Stays c.scope)
    (hincrement : ctx.resolve "Increment" = .ok (.variable "Increment" (some c.one) .int))
    (hres : ctx.resolve "Value" = .ok (.variable "Value" none .int)) :
    ∃ h', ctx.count h = (.ok (), h') ∧
      h'.Tally c terminate (some (value.getD 0 + 1)) := by
  obtain ⟨k, hh⟩ := ht
  -- No variable stands in for the default of `Increment`.
  have hbinding : h.binding? c.scope "Increment" = none := hh.binding? "Increment"
  have haccepts : ValueType.int.accepts (h.value c.one).type = true := by rw [hh.one]; rfl
  have hone := Context.value_of_declared (hs.declared hincrement hbinding) haccepts
  have hread : ctx.getInt "Increment" h = (.ok 1, (h.newItem (h.value c.one)).2) :=
    Context.typed_of_value hone (by rw [hh.one]; rfl)
  replace hh := hh.newItem (h.value c.one)
  generalize (h.newItem (h.value c.one)).2 = h₁ at hread hh
  have hbinding : h₁.binding? c.scope "Value" = k.value := hh.binding? "Value"
  have hmap := hh.value
  unfold Context.count
  rw [Act.bind_apply, hread]
  dsimp only
  cases hk : k.value with
  | none =>
    rw [hk] at hbinding hmap
    obtain rfl : value = none := Option.map_eq_none_iff.mp hmap.symm
    have hr := hs.missing hres hbinding
    rw [Act.bind_apply, hr.getVariable, Referent.getVariable_missing]
    dsimp only
    rw [Act.bind_apply, Context.getOptional_eq, hr.get, Referent.get_missing]
    exact ⟨_, hs.set hres rfl, hh.setVariable_value⟩
  | some x =>
    rw [hk] at hbinding hmap
    obtain ⟨v, rfl, hv⟩ := Option.map_eq_some_iff.mp hmap.symm
    have haccepts : ValueType.int.accepts (h₁.value x).type = true := by rw [← hv]; rfl
    rw [Act.bind_apply, (hs.shared hres hbinding).getVariable, Referent.getVariable_shared,
      if_pos haccepts]
    dsimp only
    rw [Act.modify_apply, ← hv]
    exact ⟨_, rfl, k, hh.setValue hk⟩

end Tally

/-- What the scope holds in the end. -/
theorem Tally.variableValues {v : Int64} (ht : h.Tally c (some b) (some v)) :
    h.variableValues c.scope =
      [("Limit", .int c.limit), ("Terminate", .bool b), ("Value", .int v)] := by
  obtain ⟨k, hh⟩ := ht
  obtain ⟨t, hk, hb⟩ := Option.map_eq_some_iff.mp hh.terminate
  obtain ⟨x, hx, hv⟩ := Option.map_eq_some_iff.mp hh.value
  rw [Heap.variableValues, hh.bindings, Counting.Items.bindings, hk, hx]
  simp [hh.limit, hb, hv]

/-- `Terminate` comes to hold if `Value` has reached `Limit`. -/
theorem Tally.compare {v : Int64} (ht : h.Tally c terminate (some v)) (name : String)
    (hs : ctx.Stays c.scope) (hleft : ctx.resolve "Left" = .ok (.variable "Value" none .any))
    (hright : ctx.resolve "Right" = .ok (.variable "Limit" none .any))
    (hresult : ctx.resolve "Result" = .ok (.variable "Terminate" (some c.no) .bool)) :
    ∃ h', ctx.compare name .greaterOrEqual h = (.ok (), h') ∧
      h'.Tally c (some (decide (c.limit ≤ v))) (some v) := by
  obtain ⟨k, hh⟩ := ht
  have hany : ∀ {v : Value}, ValueType.any.accepts v.type = true := by
    intro v
    cases v <;> rfl
  obtain ⟨x, hk, hx⟩ := Option.map_eq_some_iff.mp hh.value
  have hvalue : h.binding? c.scope "Value" = some x := (hh.binding? "Value").trans hk
  have hlimit : h.binding? c.scope "Limit" = some k.limit := hh.binding? "Limit"
  have hl := Context.value_of_shared (hs.shared hleft hvalue) hany
  have hr := Context.value_of_shared (hs.shared hright hlimit) hany
  obtain ⟨o, ho, hholds⟩ := Value.compare?_int v c.limit
  unfold Context.compare
  rw [Act.bind_apply, hl]
  dsimp only
  rw [Act.bind_apply, hr]
  dsimp only
  rw [hx, hh.limit, ho]
  dsimp only
  rw [hholds]
  exact ⟨_, hs.set hresult rfl, hh.setVariable_terminate⟩

end Heap

end ScopeFlow
