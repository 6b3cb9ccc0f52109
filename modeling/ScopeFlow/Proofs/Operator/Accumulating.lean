import Mathlib.Logic.Function.Iterate
import ScopeFlow.Proofs.Operator.Variables

/-!
# What a counter comes to

A counter adds `Increment` to `Value`. There are two ways in which it does so:
in place, where `Value` stands for a variable, and by making the variable,
where it stands for none. Executed again and again in one context, it makes the
variable at most once, and goes on in place.

* `Context.countBy` is what is left once the increment has been read;
* `Context.count_of_nearest`, `Context.count_of_unbound` and
  `Context.count_of_fixed` say what one execution does;
* `Context.executed` is the world after so many executions in a row,
  `Context.Counts.run` carries what one count preserves through all of them, and
  `Context.Counts.in_place` says what they come to once there is a variable;
* `Context.counter_accumulates` puts the three cases together.
-/

namespace ScopeFlow

variable {ctx : Context} {h h' : Heap} {w : World} {setting : Setting} {s : ScopeId} {x : ItemId}
  {name : String} {default : Option ItemId} {type : ValueType} {d i u v : Int64} {n : Nat}

/-! ## One execution -/

/-- What a count starts from: the default, or else zero. -/
def Heap.Starts (h : Heap) : Option ItemId → Int64 → Prop
  | none, d => d = 0
  | some j, d => h.value j = .int d

theorem Heap.Untouched.starts (hu : h.Untouched h') (hd : h.Starts default d) :
    h'.Starts default d := by
  cases default with
  | none => exact hd
  | some j => exact hu.value_eq hd (by simp)

namespace Context

/-- An integer that a parameter refers to is read, be it a variable's or not. -/
theorem getInt_of_refers {r : Referent} {j : ItemId} {parameter : String}
    (hr : h.Refers ctx.scopes (ctx.resolve parameter) r) (hmeant : r.meant? = some (j, type))
    (haccepts : type.accepts .int = true) (hj : h.value j = .int i) :
    (ctx.getInt parameter h).1 = .ok i := by
  have htype : type.accepts (h.value j).type = true := by rwa [hj]
  have hread : ∃ h', ctx.value parameter h = (.ok (.int i), h') := by
    cases r with
    | shared j' type' =>
      cases hmeant
      exact ⟨h, hj ▸ value_of_shared hr htype⟩
    | declared j' type' =>
      cases hmeant
      exact ⟨_, hj ▸ value_of_declared hr htype⟩
    | missing name => cases hmeant
    | refused e => cases hmeant
  obtain ⟨h', hvalue⟩ := hread
  have htyped : ctx.typed parameter .int Value.int? h = (.ok i, h') := typed_of_value hvalue rfl
  rw [getInt, htyped]

/-- What a counter does once it has read its increment. -/
def countBy (ctx : Context) (i : Int64) : Act Heap Unit := do
  match ← ctx.getVariable "Value" with
  | some x => Act.modify fun h => h.setValue x (.int (((h.value x).int?).getD 0 + i))
  | none =>
    let default ← ctx.getOptional "Value"
    let start ← Act.see fun h => (default.bind fun j => (h.value j).int?).getD 0
    ctx.set "Value" (.int (start + i))

/-- The increment is read first, and then the rest is done. -/
theorem count_apply (hi : (ctx.getInt "Increment" h).1 = .ok i) :
    ∃ h', h.Untouched h' ∧ ctx.count h = ctx.countBy i h' := by
  have hread := ctx.getInt_untouched "Increment" h
  unfold count
  rw [Act.bind_apply]
  rcases hget : ctx.getInt "Increment" h with ⟨r, h'⟩
  rw [hget] at hi hread
  obtain rfl : r = .ok i := hi
  exact ⟨h', hread, rfl⟩

/-- A variable of an accepted type is written to, whatever its value. -/
theorem countBy_of_shared (hr : h.Refers ctx.scopes (ctx.resolve "Value") (.shared x type))
    (haccepts : type.accepts (h.value x).type) :
    ctx.countBy i h = (.ok (), h.setValue x (.int (((h.value x).int?).getD 0 + i))) := by
  rw [countBy, Act.bind_apply, hr.getVariable, Referent.getVariable_shared, if_pos haccepts]
  rfl

/-- A declared value of an accepted type is copied, and a variable is to be made. -/
theorem countBy_of_declared (hr : h.Refers ctx.scopes (ctx.resolve "Value") (.declared x type))
    (haccepts : type.accepts (h.value x).type) :
    ctx.countBy i h =
      ctx.set "Value" (.int (((h.value x).int?).getD 0 + i)) (h.newItem (h.value x)).2 := by
  rw [countBy, Act.bind_apply, hr.getVariable, Referent.getVariable_declared]
  dsimp only
  rw [Act.bind_apply, getOptional_eq, hr.get, Referent.get_declared, if_pos haccepts]
  dsimp only
  rw [Act.bind_apply, Act.see_apply, Option.bind_some, Heap.value_newItem_self]

/-- With neither, one is to be made that starts from zero. -/
theorem countBy_of_missing (hr : h.Refers ctx.scopes (ctx.resolve "Value") (.missing name)) :
    ctx.countBy i h = ctx.set "Value" (.int (0 + i)) h := by
  rw [countBy, Act.bind_apply, hr.getVariable, Referent.getVariable_missing]
  dsimp only
  rw [Act.bind_apply, getOptional_eq, hr.get, Referent.get_missing]
  rfl

/-- A variable is counted up in place. -/
theorem count_of_nearest (hi : (ctx.getInt "Increment" h).1 = .ok i)
    (hres : ctx.resolve "Value" = .ok (.variable name default .int))
    (hn : h.Nearest name ctx.scopes s x) (hv : h.value x = .int v) :
    ∃ h', ctx.count h = (.ok (), h') ∧ h.Rewritten h' x (.int (v + i)) := by
  obtain ⟨h₁, hread, hcount⟩ := count_apply hi
  have hx : x.index < h.items.size := Heap.lt_of_value (by simp [hv])
  have hv₁ : h₁.value x = .int v := hread.value_eq hv (by simp)
  have hr : h₁.Refers ctx.scopes (ctx.resolve "Value") (.shared x .int) :=
    hres ▸ .bound (hread.nearest hn)
  refine ⟨h₁.setValue x (.int (v + i)), ?_,
    hread.rewrite (.setValue (Nat.lt_of_lt_of_le hx hread.size))⟩
  rw [hcount, countBy_of_shared hr (by rw [hv₁]; rfl), hv₁]
  rfl

/-- Where there is no variable, one is made. -/
theorem count_of_unbound (hctx : ctx.Within h) (hi : (ctx.getInt "Increment" h).1 = .ok i)
    (hres : ctx.resolve "Value" = .ok (.variable name default .int))
    (hn : h.Unbound name ctx.scopes) (hd : h.Starts default d) :
    ∃ h' x, ctx.count h = (.ok (), h') ∧ h.Gained h' ctx.scope name x (.int (d + i)) := by
  obtain ⟨h₁, hread, hcount⟩ := count_apply hi
  have hn₁ := hread.unbound hn
  have hmade : ∃ h₂, h₁.Untouched h₂ ∧ ctx.countBy i h₁ = ctx.set "Value" (.int (d + i)) h₂ := by
    have hd₁ := hread.starts hd
    cases default with
    | none =>
      obtain rfl : d = 0 := hd₁
      have hr : h₁.Refers ctx.scopes (ctx.resolve "Value") (.missing name) :=
        hres ▸ .missing hn₁
      exact ⟨h₁, .refl, countBy_of_missing hr⟩
    | some j =>
      have hd₁ : h₁.value j = .int d := hd₁
      have hr : h₁.Refers ctx.scopes (ctx.resolve "Value") (.declared j .int) :=
        hres ▸ .default hn₁
      refine ⟨_, .newItem (h₁.value j), ?_⟩
      rw [countBy_of_declared hr (by rw [hd₁]; rfl), hd₁]
      rfl
  obtain ⟨h₂, hread₂, hcount₂⟩ := hmade
  have hscope : ctx.scope.index < h₂.scopes.size := by
    rw [(hread.trans hread₂).scopes]
    exact hctx _ ctx.scope_mem_scopeChain
  refine ⟨_, ⟨h₂.items.size⟩, ?_, (hread.trans hread₂).gain (.setVariable hscope)⟩
  rw [hcount, hcount₂]
  exact set_of_unbound hres (hread₂.unbound hn₁) rfl

/-- A fixed value is not written to. -/
theorem count_of_fixed {j : ItemId} (hi : (ctx.getInt "Increment" h).1 = .ok i)
    (hres : ctx.resolve "Value" = .ok (.fixed j .int)) (hv : h.value j = .int u) :
    ∃ h', ctx.count h = (.error (.readOnlyParameter "Value"), h') ∧ h.Untouched h' := by
  obtain ⟨h₁, hread, hcount⟩ := count_apply hi
  have hr : h₁.Refers ctx.scopes (ctx.resolve "Value") (.declared j .int) := hres ▸ .fixed
  have haccepts : ValueType.int.accepts (h₁.value j).type = true := by
    rw [hread.value_eq hv (by simp)]
    rfl
  rw [hcount, countBy_of_declared hr haccepts, set_of_fixed hres]
  exact ⟨_, rfl, (hread.trans (.newItem _)).trans (.newItem _)⟩

/-! ## Executions in a row -/

/-- The world after so many executions in a row, whatever they answer. -/
def executed (ctx : Context) (setting : Setting) (n : Nat) (w : World) : World :=
  (fun w => (ctx.execute setting w).2)^[n] w

theorem executed_succ (ctx : Context) (setting : Setting) (n : Nat) (w : World) :
    ctx.executed setting (n + 1) w = (ctx.execute setting (ctx.executed setting n w)).2 :=
  Function.iterate_succ_apply' ..

theorem executed_after (ctx : Context) (setting : Setting) (n : Nat) (w : World) :
    ctx.executed setting (n + 1) w = ctx.executed setting n (ctx.execute setting w).2 :=
  Function.iterate_succ_apply ..

/-- The context binds a counter without a successor, which has read the same
increment each time. -/
structure Counts (ctx : Context) (setting : Setting) (w : World) (n : Nat) (i : Int64) : Prop where
  counter : ∃ op, ctx.operator = .ok op ∧ op.kind = .counter ∧ op.successor = none
  increment : ∀ k < n, (ctx.getInt "Increment" (ctx.executed setting k w).heap).1 = .ok i

namespace Counts

/-- An execution is a count. -/
theorem execute_eq (hc : ctx.Counts setting w n i) (w' : World) :
    ctx.execute setting w' =
      ((ctx.count w'.heap).1.map fun _ => none, { w' with heap := (ctx.count w'.heap).2 }) := by
  obtain ⟨op, hop, hkind, hlast⟩ := hc.counter
  refine execute_last hop (by rw [hkind]; rfl) hlast ?_
  unfold Operator.work
  rw [hkind]

/-- All but the last. -/
theorem init (hc : ctx.Counts setting w (n + 1) i) : ctx.Counts setting w n i :=
  ⟨hc.counter, fun k hk => hc.increment k (Nat.lt_succ_of_lt hk)⟩

/-- All but the first. -/
theorem tail (hc : ctx.Counts setting w (n + 1) i) :
    ctx.Counts setting (ctx.execute setting w).2 n i where
  counter := hc.counter
  increment := by
    intro k hk
    rw [← executed_after]
    exact hc.increment (k + 1) (Nat.succ_lt_succ hk)

/-- One more is added to a sum that wraps around. -/
theorem wrapped_succ (v i : Int64) (n : Nat) : Int64.ofInt (v.toInt + (n + 1 : Nat) * i.toInt) =
    Int64.ofInt (v.toInt + n * i.toInt) + i := by
  rw [Int.natCast_add, Int.add_mul, Int.natCast_one, Int.one_mul, ← Int.add_assoc, Int64.ofInt_add,
    Int64.ofInt_toInt i]

/-- What holds to begin with and is carried on by each count holds after all of
them, and all of them answer the same. -/
theorem run (hc : ctx.Counts setting w n i) (answer : Except Failure Unit)
    {I : Nat → Heap → Prop} (hstart : I 0 w.heap)
    (hstep : ∀ k h, I k h → (ctx.getInt "Increment" h).1 = .ok i →
      ∃ h', ctx.count h = (answer, h') ∧ I (k + 1) h') :
    (∀ k < n, (ctx.execute setting (ctx.executed setting k w)).1 = answer.map fun _ => none) ∧
      ∃ h', ctx.executed setting n w = { w with heap := h' } ∧ I n h' := by
  induction n with
  | zero => exact ⟨nofun, w.heap, rfl, hstart⟩
  | succ n ih =>
    obtain ⟨hanswers, h₁, hworld, hI₁⟩ := ih hc.init
    have hi := hc.increment n (Nat.lt_succ_self n)
    rw [hworld] at hi
    obtain ⟨h₂, hcount, hI₂⟩ := hstep n h₁ hI₁ hi
    have hlast : ctx.execute setting (ctx.executed setting n w) =
        (answer.map fun _ => none, { w with heap := h₂ }) := by
      rw [hc.execute_eq, hworld, hcount]
    refine ⟨fun k hk => ?_, h₂, ?_, hI₂⟩
    · rcases Nat.lt_succ_iff_lt_or_eq.mp hk with hk | rfl
      · exact hanswers k hk
      · rw [hlast]
    · rw [executed_succ, hlast]

/-- With a variable, all executions count it up in place. -/
theorem in_place (hc : ctx.Counts setting w n i)
    (hres : ctx.resolve "Value" = .ok (.variable name default .int))
    (hn : w.heap.Nearest name ctx.scopes s x) (hv : w.heap.value x = .int v) :
    (∀ k < n, (ctx.execute setting (ctx.executed setting k w)).1 = .ok none) ∧
      ∃ h', ctx.executed setting n w = { w with heap := h' } ∧
        w.heap.Rewritten h' x (.int (Int64.ofInt (v.toInt + n * i.toInt))) := by
  refine hc.run (.ok ())
    (I := fun k h => w.heap.Rewritten h x (.int (Int64.ofInt (v.toInt + k * i.toInt)))) ?_ ?_
  · refine .refl ?_
    rw [hv]
    simp
  · intro k h hw hi
    obtain ⟨h', hcount, hw'⟩ := count_of_nearest hi hres (hw.nearest hn) hw.value
    exact ⟨h', hcount, wrapped_succ v i k ▸ hw.trans hw'⟩

/-- Without one, the first execution makes it and the others go on in place. -/
theorem from_default (hc : ctx.Counts setting w (n + 1) i) (hctx : ctx.Within w.heap)
    (hres : ctx.resolve "Value" = .ok (.variable name default .int))
    (hn : w.heap.Unbound name ctx.scopes) (hd : w.heap.Starts default d) :
    (∀ k < n + 1, (ctx.execute setting (ctx.executed setting k w)).1 = .ok none) ∧
      ∃ h' x, ctx.executed setting (n + 1) w = { w with heap := h' } ∧
        w.heap.Gained h' ctx.scope name x
          (.int (Int64.ofInt (d.toInt + (n + 1 : Nat) * i.toInt))) := by
  obtain ⟨h₁, x, hcount, hg⟩ := count_of_unbound hctx (hc.increment 0 n.succ_pos) hres hn hd
  have hfirst : ctx.execute setting w = (.ok none, { w with heap := h₁ }) := by
    rw [hc.execute_eq, hcount]
    rfl
  have hrest := hc.tail
  rw [hfirst] at hrest
  obtain ⟨hanswers, h₂, hworld, hw⟩ := hrest.in_place hres hg.nearest hg.holds
  refine ⟨fun k hk => ?_, h₂, x, ?_, ?_⟩
  · cases k with
    | zero => exact congrArg Prod.fst hfirst
    | succ k =>
      rw [executed_after, hfirst]
      exact hanswers k (Nat.lt_of_succ_lt_succ hk)
  · rw [executed_after, hfirst]
    exact hworld
  · have hsum : Int64.ofInt ((d + i).toInt + n * i.toInt) =
        Int64.ofInt (d.toInt + (n + 1 : Nat) * i.toInt) := by
      rw [wrapped_succ, Int64.ofInt_add, Int64.ofInt_add, Int64.ofInt_toInt, Int64.ofInt_toInt,
        Int64.add_assoc, Int64.add_comm i, ← Int64.add_assoc]
    rw [← hsum]
    exact hg.rewrite hw

/-- A fixed value makes all executions fail. -/
theorem at_fixed {j : ItemId} (hc : ctx.Counts setting w n i)
    (hres : ctx.resolve "Value" = .ok (.fixed j .int)) (hv : w.heap.value j = .int u) :
    (∀ k < n, (ctx.execute setting (ctx.executed setting k w)).1 =
        .error (.readOnlyParameter "Value")) ∧
      ∃ h', ctx.executed setting n w = { w with heap := h' } ∧ w.heap.Untouched h' := by
  refine hc.run (.error (.readOnlyParameter "Value")) (I := fun _ h => w.heap.Untouched h)
    .refl ?_
  intro k h hu hi
  obtain ⟨h', hcount, hu'⟩ := count_of_fixed hi hres (hu.value_eq hv (by simp))
  exact ⟨h', hcount, hu.trans hu'⟩

/-! ## Increments that stay the same -/

/-- An increment that is another item than the one counted up stays the same. -/
theorem of_nearest {r : Referent} {j : ItemId}
    (hcounter : ∃ op, ctx.operator = .ok op ∧ op.kind = .counter ∧ op.successor = none)
    (hres : ctx.resolve "Value" = .ok (.variable name default .int))
    (hn : w.heap.Nearest name ctx.scopes s x) (hv : w.heap.value x = .int v)
    (hr : w.heap.Refers ctx.scopes (ctx.resolve "Increment") r)
    (hmeant : r.meant? = some (j, type)) (haccepts : type.accepts .int = true)
    (hj : w.heap.value j = .int i) (hne : j ≠ x) (n : Nat) : ctx.Counts setting w n i := by
  induction n with
  | zero => exact ⟨hcounter, nofun⟩
  | succ n ih =>
    obtain ⟨-, h', hworld, hw⟩ := ih.in_place hres hn hv
    have hr' : h'.Refers ctx.scopes (ctx.resolve "Increment") r :=
      hr.congr fun other _ _ _ t _ => Heap.binding?_scopes hw.scopes t other
    have hj' : h'.value j = .int i := (hw.other j (Heap.lt_of_value (by simp [hj])) hne).trans hj
    refine ⟨hcounter, fun k hk => ?_⟩
    rcases Nat.lt_succ_iff_lt_or_eq.mp hk with hk | rfl
    · exact ih.increment k hk
    · rw [hworld]
      exact getInt_of_refers hr' hmeant haccepts hj'

/-- So does one that is not looked up under the name of the variable made. -/
theorem of_unbound {r : Referent} {j : ItemId}
    (hcounter : ∃ op, ctx.operator = .ok op ∧ op.kind = .counter ∧ op.successor = none)
    (hctx : ctx.Within w.heap) (hres : ctx.resolve "Value" = .ok (.variable name default .int))
    (hn : w.heap.Unbound name ctx.scopes) (hd : w.heap.Starts default d)
    (hr : w.heap.Refers ctx.scopes (ctx.resolve "Increment") r)
    (hmeant : r.meant? = some (j, type)) (haccepts : type.accepts .int = true)
    (hj : w.heap.value j = .int i)
    (hother : ∀ default type, ctx.resolve "Increment" ≠ .ok (.variable name default type))
    (n : Nat) : ctx.Counts setting w n i := by
  have hj₀ : j.index < w.heap.items.size := Heap.lt_of_value (by simp [hj])
  have hfirst : ctx.Counts setting w 1 i := by
    refine ⟨hcounter, fun k hk => ?_⟩
    obtain rfl := Nat.lt_one_iff.mp hk
    exact getInt_of_refers hr hmeant haccepts hj
  obtain ⟨-, h₁, x, hworld, hg⟩ := hfirst.from_default hctx hres hn hd
  have hr₁ : h₁.Refers ctx.scopes (ctx.resolve "Increment") r := by
    refine hr.congr fun other default type hresolve t _ => ?_
    rw [hg.binding, if_neg]
    rintro ⟨-, rfl⟩
    exact hother default type hresolve
  have hne : j ≠ x := ItemId.ne_iff.mpr (Nat.ne_of_lt (Nat.lt_of_lt_of_le hj₀ hg.fresh))
  -- From then on there is a variable, and the increment is another item.
  have hrest : ∀ m, ctx.Counts setting { w with heap := h₁ } m i :=
    of_nearest hcounter hres hg.nearest hg.holds hr₁ hmeant haccepts ((hg.value hj₀).trans hj) hne
  refine ⟨hcounter, fun k _ => ?_⟩
  cases k with
  | zero => exact hfirst.increment 0 Nat.one_pos
  | succ k =>
    have hafter : (ctx.execute setting w).2 = { w with heap := h₁ } := hworld
    rw [executed_after, hafter]
    exact (hrest (k + 1)).increment k (Nat.lt_succ_self k)

end Counts

/-- **Counters accumulate.** A counter without a successor, whose `Value` is
declared as an integer, is executed `n` times in a row in one context, and each
time `Increment` is the integer `i`. If the name that `Value` stands for is
bound along the scopes of the frames, to an integer `v`, then all executions
succeed, no binding changes, and the item bound there, which whoever shares it
sees, comes to hold `v + n * i`, wrapped around to 64 bits. If it is unbound,
the bound scope gets one variable of that name, which holds `d + n * i`,
wrapped around, where `d` is the first default that the resolution has met, or
zero if it has met none. If a fixed integer is met, all executions fail. There
is no other change of bindings, nor of an item that was there, be it that of a
variable or a default or fixed value of a declaration. -/
theorem counter_accumulates (hc : ctx.Counts setting w n i) (hpos : 0 < n)
    (hctx : ctx.Within w.heap) :
    (∀ name default s x v, ctx.resolve "Value" = .ok (.variable name default .int) →
      w.heap.Nearest name ctx.scopes s x → w.heap.value x = .int v →
      (∀ k < n, (ctx.execute setting (ctx.executed setting k w)).1 = .ok none) ∧
      ∃ h', ctx.executed setting n w = { w with heap := h' } ∧
        w.heap.Rewritten h' x (.int (Int64.ofInt (v.toInt + n * i.toInt)))) ∧
    (∀ name default d, ctx.resolve "Value" = .ok (.variable name default .int) →
      w.heap.Unbound name ctx.scopes → w.heap.Starts default d →
      (∀ k < n, (ctx.execute setting (ctx.executed setting k w)).1 = .ok none) ∧
      ∃ h' x, ctx.executed setting n w = { w with heap := h' } ∧
        w.heap.Gained h' ctx.scope name x (.int (Int64.ofInt (d.toInt + n * i.toInt)))) ∧
    ∀ j u, ctx.resolve "Value" = .ok (.fixed j .int) → w.heap.value j = .int u →
      (∀ k < n, (ctx.execute setting (ctx.executed setting k w)).1 =
        .error (.readOnlyParameter "Value")) ∧
      ∃ h', ctx.executed setting n w = { w with heap := h' } ∧ w.heap.Untouched h' := by
  refine ⟨fun name default s x v => hc.in_place, fun name default d hres hn hd => ?_,
    fun j u => hc.at_fixed⟩
  obtain ⟨m, rfl⟩ := Nat.exists_eq_succ_of_ne_zero hpos.ne'
  exact hc.from_default hctx hres hn hd

end Context

namespace Sample

/-- A quarter of the range of integers. -/
def quarter : Int64 := 4611686018427387904

/-- A counter by a quarter of the range, whose `Value` stands for the `Cell` of
the graph, which has a default of as much. -/
def cellGraph : SharedGraph :=
  ⟨⟨0⟩, ⟨"Tally", ⟨[{ Parameter.lookup "Cell" .int with default := some ⟨1⟩ }]⟩,
    #[⟨"Count", ⟨[{ Parameter.lookup "Value" .int with actual := "Cell" },
      { Parameter.lookup "Increment" .int with default := some ⟨0⟩ }]⟩, none, .counter⟩], some ⟨0⟩⟩⟩

/-- The counter on the second scope, under a graph frame on the first. -/
def cellContext : Context := .frame ⟨1⟩ ⟨0⟩ ⟨1⟩ [⟨0⟩] (.root ⟨0⟩ cellGraph ⟨0⟩)

/-- Two scopes that bind some names. -/
def cellWorld (outer inner : List (String × ItemId)) : World :=
  { World.empty with heap := ⟨#[.int quarter, .int quarter, .int (quarter + (quarter - 1))],
    #[⟨"Global", ⟨outer⟩, [⟨1⟩], none⟩, ⟨"0", ⟨inner⟩, [], some ⟨0⟩⟩], 2, 1⟩ }

/-- With no variable, the default of the graph is where the count starts, and
two executions take it past the end of the range. With a variable in the outer
scope, which the inner one shares under another name, the largest integer comes
to be -1 under both. -/
theorem counter_accumulates_cell :
    (∃ h' x, cellContext.executed ⟨⟨0⟩, none⟩ 2 (cellWorld [] []) =
        { cellWorld [] [] with heap := h' } ∧
      (cellWorld [] []).heap.Gained h' ⟨1⟩ "Cell" x (.int (-quarter))) ∧
    ∃ h', cellContext.executed ⟨⟨0⟩, none⟩ 2 (cellWorld [("Cell", ⟨2⟩)] [("Other", ⟨2⟩)]) =
        { cellWorld [("Cell", ⟨2⟩)] [("Other", ⟨2⟩)] with heap := h' } ∧
      (cellWorld [("Cell", ⟨2⟩)] [("Other", ⟨2⟩)]).heap.Rewritten h' ⟨2⟩ (.int (-1)) := by
  have hchain : cellContext.scopes = [⟨1⟩, ⟨0⟩] := by rfl
  have hcounter : ∃ op, cellContext.operator = .ok op ∧ op.kind = .counter ∧
      op.successor = none := ⟨_, rfl, rfl, rfl⟩
  have hvalue : cellContext.resolve "Value" = .ok (.variable "Cell" (some ⟨1⟩) .int) := by rfl
  have hincrement : cellContext.resolve "Increment" =
      .ok (.variable "Increment" (some ⟨0⟩) .int) := by rfl
  have hctx : ∀ outer inner, cellContext.Within (cellWorld outer inner).heap := by
    intro outer inner s hs
    rw [Context.mem_scopeChain, hchain] at hs
    show s.index < 2
    simp at hs
    rcases hs with rfl | rfl <;> decide
  have hunbound : ∀ {outer inner name}, Bindings.lookup name outer = none →
      Bindings.lookup name inner = none →
      (cellWorld outer inner).heap.Unbound name cellContext.scopes := by
    intro outer inner name houter hinner t ht
    rw [hchain] at ht
    simp at ht
    rcases ht with rfl | rfl
    · exact hinner
    · exact houter
  have hread : ∀ {outer inner}, Bindings.lookup "Increment" outer = none →
      Bindings.lookup "Increment" inner = none →
      (cellWorld outer inner).heap.Refers cellContext.scopes (cellContext.resolve "Increment")
        (.declared ⟨0⟩ .int) := by
    intro outer inner houter hinner
    rw [hincrement]
    exact .default (hunbound houter hinner)
  constructor
  · have hc : cellContext.Counts ⟨⟨0⟩, none⟩ (cellWorld [] []) 2 quarter :=
      .of_unbound hcounter (hctx [] []) hvalue (hunbound rfl rfl) (d := quarter) rfl
        (hread rfl rfl) rfl rfl rfl (by simp [hincrement]) 2
    have hsum : Int64.ofInt (quarter.toInt + (2 : Nat) * quarter.toInt) = -quarter := by decide
    have hcount := (Context.counter_accumulates hc (by decide) (hctx [] [])).2.1 "Cell" (some ⟨1⟩)
      quarter hvalue (hunbound rfl rfl) rfl
    rw [hsum] at hcount
    exact hcount.2
  -- The inner scope binds the variable under another name, so the outer one is the nearest.
  · have hn : (cellWorld [("Cell", ⟨2⟩)] [("Other", ⟨2⟩)]).heap.Nearest "Cell"
        cellContext.scopes ⟨0⟩ ⟨2⟩ := by
      refine ⟨[⟨1⟩], [], hchain, fun t ht => ?_, rfl⟩
      obtain rfl := List.mem_singleton.mp ht
      rfl
    have hc : cellContext.Counts ⟨⟨0⟩, none⟩ (cellWorld [("Cell", ⟨2⟩)] [("Other", ⟨2⟩)]) 2
        quarter :=
      .of_nearest hcounter hvalue hn (v := quarter + (quarter - 1)) rfl (hread rfl rfl) rfl rfl
        (j := ⟨0⟩) rfl (by decide) 2
    have hsum : Int64.ofInt ((quarter + (quarter - 1)).toInt + (2 : Nat) * quarter.toInt) = -1 := by
      decide
    have hcount := (Context.counter_accumulates hc (by decide) (hctx _ _)).1 "Cell" (some ⟨1⟩) ⟨0⟩
      ⟨2⟩ (quarter + (quarter - 1)) hvalue hn rfl
    rw [hsum] at hcount
    exact hcount.2

end Sample

end ScopeFlow
