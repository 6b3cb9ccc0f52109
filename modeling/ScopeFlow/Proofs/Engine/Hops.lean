import ScopeFlow.Proofs.Engine.Siblings

/-!
# Successor cycles

A chain of successors that comes back to an operator faults with a graph cycle.
A loop that runs again starts a chain of its own, though, so that two loops that
are each other's successors can send a run back and forth between them for ever.
It takes two of them: with one, or with none, the hops among the children of a
context come to an end.

* `Engine.stage` is what has been executed of a run on inputs without end, and
  `Engine.Endlessly` says what comes up without end in it;
* `Engine.cycles_fault` is the theorem.

The seesaw of `Sample` goes back and forth for ever.
-/

namespace ScopeFlow

namespace Engine

open Operation (pool)

variable {e e₀ : Engine} {inputs : Nat → Input} {w w₀ : World} {p q : Effort → Prop}
  {g : SharedGraph} {s : ScopeId} {events : List Event} {fuel fuel' k k' : Nat} {P : Context}

/-! ## Runs on inputs without end -/

/-- What has been executed of a run after some inputs, with some fuel. -/
def stage (e : Engine) (inputs : Nat → Input) (w : World) (fuel k : Nat) : List Effort :=
  e.efforts fuel ((List.range k).map inputs) w

/-- Efforts of a kind come up without end in a run. -/
def Endlessly (e : Engine) (inputs : Nat → Input) (w : World) (p : Effort → Prop) : Prop :=
  ∀ n, ∃ fuel k, n ≤ Effort.count p (e.stage inputs w fuel k)

/-- All stages are stages of one run. -/
theorem stage_mono (hfuel : fuel ≤ fuel') (hk : k ≤ k') :
    e.stage inputs w fuel k <+: e.stage inputs w fuel' k' := by
  refine efforts_mono hfuel ?_
  obtain ⟨more, rfl⟩ := Nat.exists_eq_add_of_le hk
  rw [List.range_add, List.map_append]
  exact List.prefix_append ..

/-- What comes up without end is paid for without end. -/
theorem Endlessly.of_le (B K : Nat) (h : e.Endlessly inputs w p)
    (hle : ∀ fuel k, Effort.count p (e.stage inputs w fuel k) ≤
      B + K * Effort.count q (e.stage inputs w fuel k)) : e.Endlessly inputs w q := by
  intro n
  obtain ⟨fuel, k, hmany⟩ := h (B + K * n + 1)
  refine ⟨fuel, k, Nat.le_of_not_lt fun hfew => ?_⟩
  have hpaid := hle fuel k
  have hscaled := Nat.mul_le_mul_left K hfew.le
  omega

theorem Endlessly.mono (h : e.Endlessly inputs w p)
    (hpq : ∀ {fuel k}, ∀ x ∈ e.stage inputs w fuel k, p x → q x) : e.Endlessly inputs w q := by
  intro n
  obtain ⟨fuel, k, hmany⟩ := h n
  exact ⟨fuel, k, hmany.trans (Effort.count_mono hpq)⟩

theorem Endlessly.once (h : e.Endlessly inputs w p) :
    ∃ fuel k, ∃ x ∈ e.stage inputs w fuel k, p x := by
  obtain ⟨fuel, k, hone⟩ := h 1
  exact ⟨fuel, k, Effort.exists_of_count_pos hone⟩

theorem Endlessly.or (h : e.Endlessly inputs w fun x => p x ∨ q x) :
    e.Endlessly inputs w p ∨ e.Endlessly inputs w q := by
  by_contra hneither
  rw [not_or, Endlessly, Endlessly] at hneither
  push Not at hneither
  obtain ⟨⟨m, hm⟩, ⟨n, hn⟩⟩ := hneither
  obtain ⟨fuel, k, hmany⟩ := h (m + n)
  have hp := hm fuel k
  have hq := hn fuel k
  have hboth := Effort.count_or_le p q (e.stage inputs w fuel k)
  omega

/-- Of finitely many kinds, one comes up without end. -/
theorem Endlessly.exists {p : OperatorId → Effort → Prop} {n : Nat}
    (h : e.Endlessly inputs w fun x => ∃ a, a.index < n ∧ p a x) :
    ∃ a, e.Endlessly inputs w (p a) := by
  induction n with
  | zero =>
      obtain ⟨fuel, k, x, -, a, hlt, -⟩ := h.once
      exact absurd hlt (Nat.not_lt_zero _)
  | succ n ih =>
      have hsplit : e.Endlessly inputs w fun x => (∃ a, a.index < n ∧ p a x) ∨ p ⟨n⟩ x := by
        refine h.mono fun x _ ⟨a, hlt, ha⟩ => ?_
        rcases Nat.lt_succ_iff_lt_or_eq.mp hlt with hlt | rfl
        · exact .inl ⟨a, hlt, ha⟩
        · exact .inr ha
      rcases hsplit.or with hbelow | hlast
      · exact ih hbelow
      · exact ⟨⟨n⟩, hlast⟩

/-! ## From a preparation on -/

/-- The first operator has a number of its own. -/
theorem first_numbered (g : SharedGraph) (s : ScopeId) (h : Heap) :
    (∀ c ∈ Operation.contextsOfAll (firstOperations g s h).1,
      c.id.index < (firstOperations g s h).2.contexts) ∧
      (Operation.contextsOfAll (firstOperations g s h).1).length ≤ 1 := by
  unfold firstOperations
  cases g.graph.initial with
  | none => exact ⟨nofun, Nat.zero_le 1⟩
  | some initial =>
      refine ⟨fun c hc => ?_, Nat.le_refl 1⟩
      obtain rfl := List.mem_singleton.mp hc
      exact Nat.lt_succ_self _

/-- What a run starts with is regular, and is one context at most. -/
theorem stocked_first (hprep : e₀.prepare g s w₀ = ⟨.ok (), e, w, events⟩) :
    e.setting.Stocked (.root ⟨w₀.heap.contexts⟩ g s) w.heap (pool e.continuation) ∧
      (pool e.continuation).card ≤ 1 := by
  have hvalid := (Underway.prepared hprep).checked.1
  obtain ⟨hnumbered, hlone⟩ := first_numbered g s w₀.heap
  obtain ⟨rfl, rfl⟩ := prepare_ok hprep
  rw [(resetControl_frame _ _).1]
  refine ⟨⟨trivial, fun c hc => ?_⟩, hlone⟩
  have hc := Operation.mem_pool.mp hc
  exact ⟨first_formed hc, (first_known hvalid hc).toKnown, hnumbered c hc⟩

/-- A stage is a run of a graph whose parts are all there. -/
theorem stage_works (hprep : e₀.prepare g s w₀ = ⟨.ok (), e, w, events⟩) (inputs : Nat → Input)
    (fuel k : Nat) :
    (Context.root ⟨w₀.heap.contexts⟩ g s).graph.graph.Closed ∧
      ∃ M p, e.setting.Works (pool e.continuation) ⟨w, e.executed, false⟩
        (e.stage inputs w fuel k) M p :=
  ⟨(Graph.closed_of_validate (Underway.prepared hprep).checked.1).1, e.efforts_works fuel _ w⟩

/-- The children of one context are boundedly many. -/
theorem births_bounded (hprep : e₀.prepare g s w₀ = ⟨.ok (), e, w, events⟩)
    (inputs : Nat → Input) (P : Context) :
    ∃ B, ∀ fuel k, ((e.stage inputs w fuel k).map (DrainSetting.births P)).sum ≤ B := by
  obtain ⟨hstocked, hlone⟩ := stocked_first hprep
  have hone : ∀ fuel k,
      Effort.count (fun x => x.ctx.id = P.id ∧ x.made ≠ []) (e.stage inputs w fuel k) ≤ 1 := by
    intro fuel k
    obtain ⟨hclosed, M, p, hworks⟩ := stage_works hprep inputs fuel k
    exact (hworks.births_once hclosed hstocked P).trans
      (DrainSetting.turnsOf_le_one hstocked hlone P)
  by_cases hborn : ∃ fuel k, ∃ x ∈ e.stage inputs w fuel k, x.ctx.id = P.id ∧ x.made ≠ []
  · obtain ⟨fuel₀, k₀, x, hx, hmakes⟩ := hborn
    refine ⟨x.made.length, fun fuel k => ?_⟩
    -- Both stages belong to a later one, which has the effort.
    have hlater := (stage_mono (Nat.le_max_right fuel fuel₀) (Nat.le_max_right k k₀)).subset hx
    have hle := DrainSetting.sum_births_le (hone _ _) hlater hmakes
    obtain ⟨more, hmore⟩ : e.stage inputs w fuel k <+: _ :=
      stage_mono (Nat.le_max_left fuel fuel₀) (Nat.le_max_left k k₀)
    rw [← hmore, List.map_append, List.sum_append] at hle
    omega
  · push Not at hborn
    refine ⟨0, fun fuel k => Nat.le_of_eq (DrainSetting.sum_births_of_idle fun x hx h => ?_)⟩
    exact h.2 (hborn fuel k x hx h.1)

/-- The children of a context pay for boundedly many efforts only. -/
theorem Endlessly.paid (P : Context) (B K : Nat)
    (hprep : e₀.prepare g s w₀ = ⟨.ok (), e, w, events⟩) (h : e.Endlessly inputs w p)
    (hle : ∀ fuel k, Effort.count p (e.stage inputs w fuel k) ≤
      B + K * (((e.stage inputs w fuel k).map (DrainSetting.births P)).sum +
        Effort.count q (e.stage inputs w fuel k))) : e.Endlessly inputs w q := by
  obtain ⟨births, hbirths⟩ := births_bounded hprep inputs P
  refine h.of_le (B + K * births) K fun fuel k => (hle fuel k).trans ?_
  have hscaled := Nat.mul_le_mul_left K (hbirths fuel k)
  rw [Nat.mul_add]
  omega

/-! ## Hops without end -/

/-- A loop of the graph is hopped to and then run again, without end, among the
children of a context. -/
structure StartsAfresh (e : Engine) (g : SharedGraph) (inputs : Nat → Input) (w : World)
    (P : Context) (a : OperatorId) : Prop where
  loop : ∃ op, g.graph.get? a = some op ∧ op.kind.isLoop = true
  endlessly : e.Endlessly inputs w fun x => x.ctx.parent? = some P ∧ x.Restarts a

/-- A loop is restarted, so it is one of the graph. -/
theorem loop_of_restarts (hprep : e₀.prepare g s w₀ = ⟨.ok (), e, w, events⟩) {x : Effort}
    (hx : x ∈ e.stage inputs w fuel k) {a : OperatorId} (h : x.Restarts a) :
    ∃ op, g.graph.get? a = some op ∧ op.kind.isLoop = true := by
  obtain ⟨hclosed, M, p, hworks⟩ := stage_works hprep inputs fuel k
  obtain ⟨-, children, onward, -, -, hgoes⟩ := hworks.goesOn hclosed (stocked_first hprep).1 hx
  obtain ⟨hown, -, hrepeats⟩ := h
  cases hgoes with
  | last hhops hidle => exact absurd hrepeats hidle
  | hop hnew hhas hidle id => exact absurd hrepeats hidle
  | @again own op hown' hget hloop hhops _ id =>
      obtain rfl : own = a := Option.some.inj (hown'.symm.trans hown)
      exact ⟨op, hget, hloop⟩

/-- Of the loops that are restarted without end, one is. -/
theorem restarts_of_some (hprep : e₀.prepare g s w₀ = ⟨.ok (), e, w, events⟩)
    {kind : OperatorId → Effort → Prop} (hkind : ∀ {a x}, kind a x → x.Restarts a)
    (h : e.Endlessly inputs w fun x => ∃ a, kind a x) : ∃ a, e.Endlessly inputs w (kind a) := by
  have hfew : e.Endlessly inputs w fun x => ∃ a, a.index < g.graph.size ∧ kind a x := by
    refine h.mono fun x hx ⟨a, ha⟩ => ⟨a, ?_, ha⟩
    obtain ⟨op, hget, -⟩ := loop_of_restarts hprep hx (hkind ha)
    exact Graph.index_lt_of_get? hget
  exact hfew.exists

theorem startsAfresh (hprep : e₀.prepare g s w₀ = ⟨.ok (), e, w, events⟩) {a : OperatorId}
    (h : e.Endlessly inputs w fun x => x.ctx.parent? = some P ∧ x.Restarts a) :
    e.StartsAfresh g inputs w P a := by
  obtain ⟨fuel, k, x, hx, -, hrestarts⟩ := h.once
  exact ⟨loop_of_restarts hprep hx hrestarts, h⟩

/-- Hops without end under a parent need two loops that start afresh there
without end. -/
theorem loops_of_hops (hprep : e₀.prepare g s w₀ = ⟨.ok (), e, w, events⟩)
    (h : e.Endlessly inputs w fun x => x.ctx.parent? = some P ∧ x.Hops) :
    ∃ a b, a ≠ b ∧ e.StartsAfresh g inputs w P a ∧ e.StartsAfresh g inputs w P b := by
  have hworks := stage_works hprep inputs
  have hstocked := (stocked_first hprep).1
  -- Hops use up the operators that a trail does not list, which only a loop that
  -- starts afresh gives back.
  have hrestarts : e.Endlessly inputs w fun x => x.ctx.parent? = some P ∧ ∃ a, x.Restarts a := by
    apply h.paid P _ _ hprep
    intro fuel k
    obtain ⟨hclosed, M, p, hworks⟩ := hworks fuel k
    exact hworks.hops_le hclosed hstocked P
  have hsome : e.Endlessly inputs w fun x => ∃ a, x.ctx.parent? = some P ∧ x.Restarts a :=
    hrestarts.mono fun x _ ⟨hP, a, ha⟩ => ⟨a, hP, ha⟩
  obtain ⟨a, ha⟩ := restarts_of_some hprep (fun h => h.2) hsome
  -- A loop is not hopped to on its own trail, so another has started afresh before.
  have hothers : e.Endlessly inputs w fun x =>
      x.ctx.parent? = some P ∧ ∃ b, b ≠ a ∧ x.Restarts b := by
    apply ha.paid P _ _ hprep
    intro fuel k
    obtain ⟨hclosed, M, p, hworks⟩ := hworks fuel k
    exact hworks.restarts_le hclosed hstocked P a
  have hother : e.Endlessly inputs w fun x => ∃ b, x.ctx.parent? = some P ∧ b ≠ a ∧ x.Restarts b :=
    hothers.mono fun x _ ⟨hP, b, hne, hb⟩ => ⟨b, hP, hne, hb⟩
  obtain ⟨b, hb⟩ := restarts_of_some hprep (fun h => h.2.2) hother
  obtain ⟨-, -, -, -, -, hne, -⟩ := hb.once
  refine ⟨a, b, hne.symm, startsAfresh hprep ha, startsAfresh hprep ?_⟩
  exact hb.mono fun x _ ⟨hP, _, hb⟩ => ⟨hP, hb⟩

/-- **Successor cycles.** Hops come up without end among the children of one
context only where two loops of the graph start afresh there without end. And
no chain of hops leads back to an operator that it has executed: the effort that
comes to it fails with a graph cycle, and the engine is seen faulted. -/
theorem cycles_fault (hprep : e₀.prepare g s w₀ = ⟨.ok (), e, w, events⟩) (inputs : Nat → Input) :
    (∀ P : Context, (e.Endlessly inputs w fun x => x.ctx.parent? = some P ∧ x.Hops) →
      ∃ a b, a ≠ b ∧ e.StartsAfresh g inputs w P a ∧ e.StartsAfresh g inputs w P b) ∧
      ∀ fuel k (chain : List Effort) x, (∀ y ∈ chain, y ∈ e.stage inputs w fuel k) →
        (chain.IsChain fun y z => y.HopsTo z.ctx) → chain.getLast? = some x →
          (chain.map fun y => y.ctx.operatorId?).Nodup ∧
          ∀ again, some again ∈ chain.map (fun y => y.ctx.operatorId?) →
            x.ComesTo e.control again →
              (∃ rest name reason w', e.setting.Fails x rest (.graphCycle name reason) w') ∧
              ∀ ss, e.sights fuel ((List.range k).map inputs) w = some ss →
                ∃ sight ∈ ss, SeesFault e.setting (e.stage inputs w fuel k) sight := by
  refine ⟨fun P h => loops_of_hops hprep h, fun fuel k chain x hmem hchain hlast => ?_⟩
  obtain ⟨hclosed, M, p, hworks⟩ := stage_works hprep inputs fuel k
  obtain ⟨hnodup, hrevisit⟩ :=
    hworks.revisit_fails hclosed (stocked_first hprep).1 hmem hchain hlast
  refine ⟨hnodup, fun again hseen hcomes => ?_⟩
  obtain ⟨rest, name, reason, w', hfails⟩ := hrevisit again hseen hcomes
  refine ⟨⟨rest, name, reason, w', hfails⟩, fun ss hss => ?_⟩
  exact sights_faulted (hmem x (List.mem_of_getLast? hlast)) ⟨rest, _, w', hfails, rfl⟩ hss

end Engine

namespace Sample

/-- `Left` stands for `Done`, and `Right` is fixed. -/
def settles (value : ItemId) : Parameters :=
  ⟨[{ Parameter.lookup "Left" .any with actual := "Done" },
    { Parameter.lookup "Right" .any with fixed := some value }]⟩

/-- A loop that terminates when `Done` holds. -/
def untilDone : Parameters := ⟨[{ Parameter.lookup "Terminate" .bool with actual := "Done" }]⟩

namespace Seesaw

/-- The loop of a side. -/
def loop : Bool → OperatorId
  | false => ⟨0⟩
  | true => ⟨1⟩

/-- What hands over from a side to the other. -/
def handOver : Bool → OperatorId
  | false => ⟨3⟩
  | true => ⟨4⟩

/-- Until `Done` holds, the loop of a side runs an operator that makes it hold. -/
def loopOperator (side : Bool) : Operator :=
  ⟨if side then "Starboard" else "Port", untilDone, some (handOver side), .loop (some ⟨2⟩) none⟩

/-- What hands over makes `Done` not hold, and goes on to the loop of the other
side. -/
def handOverOperator (side : Bool) : Operator :=
  ⟨if side then "ToPort" else "ToStarboard", settles ⟨1⟩, some (loop !side), .assigner⟩

end Seesaw

/-- Two loops that hand over to each other. -/
def seesawGraph : SharedGraph :=
  ⟨⟨0⟩, ⟨"Seesaw", .empty, #[Seesaw.loopOperator false, Seesaw.loopOperator true,
    ⟨"Finish", settles ⟨0⟩, none, .assigner⟩, Seesaw.handOverOperator false,
    Seesaw.handOverOperator true], some ⟨0⟩⟩⟩

/-- A scope where `Done` does not hold, the two fixed values, and a control. -/
def undone : World :=
  { World.empty.newControl.2 with
    heap := ⟨#[.bool true, .bool false, .bool false],
      #[⟨"Global", ⟨[("Done", ⟨2⟩)]⟩, [], none⟩], 0, 1⟩ }

namespace Seesaw

/-- The graph frame of a run of the seesaw. -/
def top : Context := .root ⟨0⟩ seesawGraph ⟨0⟩

/-- The loop of a side, in a context. -/
def atLoop (side : Bool) (n : Nat) (trail : List OperatorId) : Context :=
  .frame ⟨n⟩ (loop side) ⟨0⟩ trail top

/-- The body of a loop. -/
def atBody (n : Nat) (parent : Context) : Context := .frame ⟨n⟩ ⟨2⟩ ⟨0⟩ [⟨2⟩] parent

/-- What hands over from a side that has run again. -/
def atHandOver (side : Bool) (n : Nat) : Context :=
  .frame ⟨n⟩ (handOver side) ⟨0⟩ [loop side, handOver side] top

/-- The fixed values are in place, and `Done` is bound to one. -/
structure Shows (h : Heap) (done : Bool) : Prop where
  yes : h.items[0]? = some (.bool true)
  no : h.items[1]? = some (.bool false)
  scope : 0 < h.scopes.size
  bound : ∃ i : ItemId, h.binding? ⟨0⟩ "Done" = some i ∧ h.items[i.index]? = some (.bool done)

variable {h : Heap} {done : Bool} {ctx : Context}

/-- A fresh item leaves the others as they are. -/
theorem Shows.newItem (hs : Shows h done) (v : Value) : Shows (h.newItem v).2 done := by
  have hpush : ∀ {i : Nat} {u : Value}, h.items[i]? = some u → (h.items.push v)[i]? = some u := by
    intro i u hu
    obtain ⟨hi, hu⟩ := Array.getElem?_eq_some_iff.mp hu
    simpa only [Array.getElem?_push_lt hi] using congrArg some hu
  obtain ⟨i, hi, hv⟩ := hs.bound
  exact ⟨hpush hs.yes, hpush hs.no, hs.scope, i, hi, hpush hv⟩

/-- `Done` is bound to another item. -/
theorem Shows.bind (hs : Shows h done) {i : ItemId} {value : Bool}
    (hv : h.items[i.index]? = some (.bool value)) :
    Shows (h.bindVariable ⟨0⟩ "Done" i) value := by
  refine ⟨hs.yes, hs.no, ?_, i, ?_, hv⟩
  · simpa [Heap.bindVariable, Heap.updateScope] using hs.scope
  · rw [Heap.binding?_bindVariable hs.scope, if_pos ⟨rfl, rfl⟩]

theorem Shows.find? (hs : Shows h done) (hchain : ctx.scopeChain = [⟨0⟩]) :
    ∃ i : ItemId, ctx.find? h "Done" = some (⟨0⟩, i) ∧ h.value i = .bool done := by
  obtain ⟨i, hi, hv⟩ := hs.bound
  refine ⟨i, ?_, by rw [Heap.value, hv]; rfl⟩
  rw [Context.find?, hchain, Heap.findIn, hi]

/-- Reading `Terminate` reads `Done`. -/
theorem Shows.terminate (hs : Shows h done) (hchain : ctx.scopeChain = [⟨0⟩])
    (hresolve : ctx.resolve "Terminate" = .ok (.variable "Done" none .bool)) :
    ctx.getBool "Terminate" h = (.ok done, h) := by
  obtain ⟨i, hi, hv⟩ := hs.find? hchain
  have hcheck : h.checkType "Terminate" .bool i = .ok () := by rw [Heap.checkType, hv]; rfl
  simp only [Context.getBool, Context.typed, Context.value, Context.get, Act.bind_apply,
    Act.ofExcept_apply, hresolve, Act.see_apply, hi, Act.look_apply, hcheck, Act.pure_apply, hv]
  rfl

/-- Assigning a fixed value gives it to `Done`. -/
theorem Shows.assign (hs : Shows h done) (ctx : Context) (hchain : ctx.scopeChain = [⟨0⟩])
    (hleft : ctx.resolve "Left" = .ok (.variable "Done" none .any)) (i : ItemId) {value : Bool}
    (hright : ctx.resolve "Right" = .ok (.fixed i .any))
    (hvalue : h.items[i.index]? = some (.bool value)) :
    ∃ h', ctx.assign h = (.ok (), h') ∧ Shows h' value ∧ h'.contexts = h.contexts := by
  have hany : ∀ (h : Heap) (parameter : String) (i : ItemId),
      h.checkType parameter .any i = .ok () := by
    simp [Heap.checkType, ValueType.accepts]
  have hfixed : h.value i = .bool value := by rw [Heap.value, hvalue]; rfl
  -- The value is copied twice: as a fixed one is handed out, and as what is assigned.
  let h₁ := (h.newItem (.bool value)).2
  let h₂ := (h₁.newItem (.bool value)).2
  have hread : ctx.get "Right" h = (.ok ⟨h.items.size⟩, h₁) := by
    simp only [Context.get, Act.bind_apply, Act.ofExcept_apply, hright, Context.detached,
      Act.look_apply, hany, Act.change_apply, Heap.copyItem, hfixed]
    rfl
  have hfirst : h₁.value ⟨h.items.size⟩ = .bool value := by
    simp [h₁, Heap.value, Heap.newItem]
  have hs₂ : Shows h₂ done := (hs.newItem _).newItem _
  obtain ⟨j, hfind, -⟩ := hs₂.find? hchain
  have hlast : h₂.items[h₁.items.size]? = some (.bool value) := by
    simp [h₂, Heap.newItem]
  refine ⟨h₂.bindVariable ⟨0⟩ "Done" ⟨h₁.items.size⟩, ?_, hs₂.bind hlast, rfl⟩
  simp only [Context.assign, Act.bind_apply, hread, Act.change_apply, Heap.copyItem, hfirst,
    Context.setItem, Act.ofExcept_apply, hleft, Act.look_apply, hany, Act.modify_apply]
  have hfind' : ctx.find? (h₁.newItem (.bool value)).2 "Done" = some (⟨0⟩, j) := hfind
  rw [hfind']
  rfl

/-! ## The operators -/

variable (side : Bool) (n : Nat) (trail : List OperatorId)

/-- A loop that is not done runs its body and itself again. -/
theorem loop_again (hs : Shows h false) (cancelled : Bool) :
    (loopOperator side).work cancelled (atLoop side n trail) h =
      (.ok (some (.sequence [.atomic (atBody h.contexts (atLoop side n trail)),
        .atomic (atLoop side (h.contexts + 1) [loop side])])),
        { h with contexts := h.contexts + 2 }) := by
  have hresolve : (atLoop side n trail).resolve "Terminate" =
      .ok (.variable "Done" none .bool) := by
    cases side <;> rfl
  have hread := hs.terminate rfl hresolve
  show Context.runLoop _ (some ⟨2⟩) none h = _
  rw [Context.runLoop, Act.bind_apply, hread]
  rfl

/-- A loop that is done, and has run again, hops on. -/
theorem loop_done (hs : Shows h true) (cancelled : Bool) :
    (loopOperator side).work cancelled (atLoop side n [loop side]) h =
      (.ok (some (.atomic (atHandOver side h.contexts))),
        { h with contexts := h.contexts + 1 }) := by
  have hresolve : (atLoop side n [loop side]).resolve "Terminate" =
      .ok (.variable "Done" none .bool) := by
    cases side <;> rfl
  have hread := hs.terminate rfl hresolve
  show Context.runLoop _ (some ⟨2⟩) none h = _
  rw [Context.runLoop, Act.bind_apply, hread]
  cases side <;> rfl

/-- The body of a loop makes `Done` hold. -/
theorem body_done (hs : Shows h done) (m : Nat) :
    ∃ h', (∀ cancelled, Operator.work ⟨"Finish", settles ⟨0⟩, none, .assigner⟩ cancelled
        (atBody m (atLoop side n trail)) h = (.ok none, h')) ∧
      Shows h' true ∧ h'.contexts = h.contexts := by
  obtain ⟨h', hassign, hs', hcount⟩ := hs.assign (atBody m (atLoop side n trail)) rfl
    (by cases side <;> rfl) ⟨0⟩ (by cases side <;> rfl) hs.yes
  refine ⟨h', fun cancelled => ?_, hs', hcount⟩
  show (Context.assign _ >>= fun _ => Context.successor _) h = _
  rw [Act.bind_apply, hassign]
  rfl

/-- Handing over undoes that, and hops to the other side. -/
theorem handOver_done (hs : Shows h done) :
    ∃ h', (∀ cancelled, (handOverOperator side).work cancelled (atHandOver side n) h =
        (.ok (some (.atomic (atLoop (!side) h.contexts
          [loop side, handOver side, loop !side]))), h')) ∧
      Shows h' false ∧ h'.contexts = h.contexts + 1 := by
  obtain ⟨h', hassign, hs', hcount⟩ := hs.assign (atHandOver side n) (by cases side <;> rfl)
    (by cases side <;> rfl) ⟨1⟩ (by cases side <;> rfl) hs.no
  refine ⟨{ h' with contexts := h'.contexts + 1 }, fun cancelled => ?_,
    ⟨hs'.yes, hs'.no, hs'.scope, hs'.bound⟩, ?_⟩
  · show (Context.assign _ >>= fun _ => Context.successor _) h = _
    rw [Act.bind_apply, hassign, ← hcount]
    cases side <;> rfl
  · rw [hcount]

/-! ## Its run -/

/-- The drain of an engine that was given no configuration. -/
def setting : DrainSetting := ⟨.standard, ⟨0⟩⟩

variable {p : Progress} {next : Option Operation} {h' : Heap} {op : Operator}

/-- How far a drain has come after another operator. -/
def passed (p : Progress) (h : Heap) : Progress := p.advance { p.world with heap := h }

/-- An operator of the seesaw is executed when its turn comes. -/
theorem turn (p : Progress) (rest : List Operation) (hgoing : setting.halts? p = none)
    (hop : ctx.operator = .ok op) (hbuilt : op.kind.isBuiltIn = true) (hdepth : ctx.depth ≤ 2)
    (hrest : rest.length ≤ 1)
    (hwork : ∀ cancelled, op.work cancelled ctx p.world.heap = (.ok next, h')) (fuel : Nat) :
    Turn.efforts p (setting.turns (fuel + 1) none (.atomic ctx :: rest) p) =
      ⟨⟨ctx, next.toList ++ rest, passed p h'⟩, p⟩ ::
        Turn.efforts (passed p h')
          (setting.turns fuel none (next.toList ++ rest) (passed p h')) := by
  have hmove : setting.move none (.atomic ctx) p = .perform ctx := by
    rw [DrainSetting.move, hgoing]
  have hstack : ¬ rest.length + 1 > setting.config.maxStackDepth := by
    show ¬ rest.length + 1 > 100000
    omega
  have hwithin : ¬ ctx.depth > setting.config.maxContextDepth := by
    show ¬ ctx.depth > 10000
    omega
  have hexec : setting.execute ctx rest.length p.world =
      (.ok next, { p.world with heap := h' }) := by
    rw [DrainSetting.execute_within hstack hwithin, Context.execute, Act.bind_apply,
      Act.ofExcept_apply, hop]
    dsimp only
    rw [Operator.execute_builtIn hbuilt, World.onHeap_apply, hwork]
  simp only [DrainSetting.turns, hmove, hexec, spend]
  rfl

/-- A visit to a side: the loop, its body, the loop again, and what hands over
to the loop of the other side. -/
structure Visit (p p' : Progress) (c c' : Context) (x z y k : Effort) : Prop where
  runs : ∀ fuel, Turn.efforts p (setting.turns (fuel + 5) none [.atomic c] p) =
    x :: z :: y :: k :: Turn.efforts p' (setting.turns fuel none [.atomic c'] p')
  going : setting.halts? p' = none
  shows : Shows p'.world.heap false
  first : x.ctx = c
  executed : x.progress.executed = x.before.executed + 1
  again : x.RepeatsIn y.ctx
  hops : y.HopsTo k.ctx
  onward : k.HopsTo c'

/-- From the loop of a side that is not done, a run visits the side and comes to
the loop of the other, which is not done. -/
theorem visit (hgoing : setting.halts? p = none) (hs : Shows p.world.heap false) (side : Bool)
    (n : Nat) (trail : List OperatorId) : ∃ p' m x z y k, Visit p p' (atLoop side n trail)
      (atLoop (!side) m [loop side, handOver side, loop !side]) x z y k := by
  have hloop : ∀ n trail, (atLoop side n trail).operator = .ok (loopOperator side) := by
    intro n trail
    cases side <;> rfl
  have hbody : ∀ m, (atBody m (atLoop side n trail)).operator =
      .ok ⟨"Finish", settles ⟨0⟩, none, .assigner⟩ := fun m => rfl
  have hhand : ∀ n, (atHandOver side n).operator = .ok (handOverOperator side) := by
    intro n
    cases side <;> rfl
  -- The four efforts, and how far the drain has come after each.
  let m := p.world.heap.contexts
  let p₁ := passed p { p.world.heap with contexts := m + 2 }
  have hs₁ : Shows p₁.world.heap false := ⟨hs.yes, hs.no, hs.scope, hs.bound⟩
  obtain ⟨h₂, hwork₂, hs₂, hcount₂⟩ := body_done side n trail hs₁ m
  let p₂ := passed p₁ h₂
  let p₃ := passed p₂ { h₂ with contexts := h₂.contexts + 1 }
  have hs₃ : Shows p₃.world.heap true := ⟨hs₂.yes, hs₂.no, hs₂.scope, hs₂.bound⟩
  obtain ⟨h₄, hwork₄, hs₄, hcount₄⟩ := handOver_done side h₂.contexts hs₃
  let p₄ := passed p₃ h₄
  have hunpack : ∀ ops, setting.move none (.sequence ops) p₁ = .unpack ops := by
    intro ops
    rw [DrainSetting.move, show setting.halts? p₁ = none from hgoing]
  let again := atLoop side (m + 1) [loop side]
  let next := atLoop (!side) (h₂.contexts + 1) [loop side, handOver side, loop !side]
  let x : Effort := ⟨⟨atLoop side n trail,
    [.sequence [.atomic (atBody m (atLoop side n trail)), .atomic again]], p₁⟩, p⟩
  let z : Effort := ⟨⟨atBody m (atLoop side n trail), [.atomic again], p₂⟩, p₁⟩
  let y : Effort := ⟨⟨again, [.atomic (atHandOver side h₂.contexts)], p₃⟩, p₂⟩
  let k : Effort := ⟨⟨atHandOver side h₂.contexts, [.atomic next], p₄⟩, p₃⟩
  refine ⟨p₄, h₂.contexts + 1, x, z, y, k, ⟨fun fuel => ?_, hgoing, hs₄, rfl, rfl, ?_, ?_, ?_⟩⟩
  · calc Turn.efforts p (setting.turns (fuel + 5) none [.atomic (atLoop side n trail)] p)
        = x :: Turn.efforts p₁ (setting.turns (fuel + 4) none x.stack p₁) :=
          turn p [] hgoing (hloop n trail) rfl (Nat.le_succ 1) (Nat.zero_le 1)
            (loop_again side n trail hs) (fuel + 4)
      _ = x :: Turn.efforts p₁ (setting.turns (fuel + 3) none
            [.atomic (atBody m (atLoop side n trail)), .atomic again] p₁) := by
          rw [DrainSetting.turns_unpack (hunpack _)]
          rfl
      _ = x :: z :: Turn.efforts p₂ (setting.turns (fuel + 2) none z.stack p₂) :=
          congrArg (x :: ·) (turn p₁ [.atomic again] hgoing (hbody m) rfl (Nat.le_refl 2)
            (Nat.le_refl 1) hwork₂ _)
      _ = x :: z :: y :: Turn.efforts p₃ (setting.turns (fuel + 1) none y.stack p₃) :=
          congrArg (x :: z :: ·) (turn p₂ [] hgoing (hloop _ _) rfl (Nat.le_succ 1)
            (Nat.zero_le 1) (loop_done side (m + 1) hs₂) _)
      _ = x :: z :: y :: k :: Turn.efforts p₄ (setting.turns fuel none k.stack p₄) :=
          congrArg (x :: z :: y :: ·) (turn p₃ [] hgoing (hhand _) rfl (Nat.le_succ 1)
            (Nat.zero_le 1) hwork₄ _)
  · refine ⟨Effort.mem_made ?_ (Nat.le_succ m), loop side, _, rfl, rfl⟩
    exact List.mem_cons_of_mem _ List.mem_cons_self
  · exact ⟨Effort.mem_made List.mem_cons_self (Nat.le_refl _), handOver side, _, rfl⟩
  · exact ⟨Effort.mem_made List.mem_cons_self (Nat.le_refl _), loop !side, _, rfl⟩

/-- So many visits make so many hops. -/
theorem hops_many (visits : Nat) (hgoing : setting.halts? p = none) (hs : Shows p.world.heap false)
    (side : Bool) (n : Nat) (trail : List OperatorId) :
    visits ≤ Effort.count (fun x => x.ctx.parent? = some top ∧ x.Hops)
      (Turn.efforts p (setting.turns (5 * visits) none [.atomic (atLoop side n trail)] p)) := by
  induction visits generalizing p side n trail with
  | zero => exact Nat.zero_le _
  | succ visits ih =>
      obtain ⟨p', m, x, z, y, k, hvisit⟩ := visit hgoing hs side n trail
      have hlater := ih hvisit.going hvisit.shows (!side) m [loop side, handOver side, loop !side]
      have hparent : y.ctx.parent? = some top := by
        rw [hvisit.again.2.parent?, hvisit.first]
        rfl
      rw [Nat.mul_succ, hvisit.runs, Effort.count_cons, Effort.count_cons, Effort.count_cons,
        if_pos ⟨hparent, k.ctx, hvisit.hops⟩]
      rw [Effort.count_cons]
      omega

/-- An engine that is at the first loop of the seesaw, in a world where it is not
done. -/
structure Ready (e : Engine) (w : World) : Prop where
  going : setting.halts? ⟨w, 0, false⟩ = none
  shows : Shows w.heap false
  runs : ∀ fuel, Turn.efforts ⟨w, 0, false⟩
    (setting.turns fuel none [.atomic (atLoop false 1 [loop false])] ⟨w, 0, false⟩) <+:
      e.stage (fun _ => .start) w fuel 1

theorem prepared : ∃ e w events,
    (Engine.ofConfig .standard ⟨0⟩).prepare seesawGraph ⟨0⟩ undone = ⟨.ok (), e, w, events⟩ ∧
      Ready e w :=
  ⟨_, _, _, rfl, rfl, ⟨rfl, rfl, Nat.zero_lt_one, ⟨2⟩, rfl, rfl⟩, fun _ => List.prefix_append ..⟩

/-- The seesaw hops without end, all of it under the graph frame. -/
theorem Ready.endless {e : Engine} {w : World} (h : Ready e w) :
    e.Endlessly (fun _ => .start) w fun x => x.ctx.parent? = some top ∧ x.Hops := fun n =>
  ⟨5 * n, 1, (hops_many n h.going h.shows false 1 [loop false]).trans
    (Effort.count_le_of_prefix (h.runs _))⟩

end Seesaw

/-- Two operators, each the successor of the other. -/
def ringGraph : SharedGraph :=
  ⟨⟨0⟩, ⟨"Ring", .empty, #[⟨"A", .empty, some ⟨1⟩, .empty⟩, ⟨"B", .empty, some ⟨0⟩, .empty⟩],
    some ⟨0⟩⟩⟩

/-- The seesaw goes back and forth for ever, and its loops start afresh each time.
In the ring, the operator that comes back to its predecessor fails, and the
engine is faulted. -/
theorem cycles_fault_seesaw :
    (∃ e w events,
      (Engine.ofConfig .standard ⟨0⟩).prepare seesawGraph ⟨0⟩ undone = ⟨.ok (), e, w, events⟩ ∧
      (e.Endlessly (fun _ => .start) w fun x => x.ctx.parent? = some Seesaw.top ∧ x.Hops) ∧
      ∃ a b, a ≠ b ∧ e.StartsAfresh seesawGraph (fun _ => .start) w Seesaw.top a ∧
        e.StartsAfresh seesawGraph (fun _ => .start) w Seesaw.top b) ∧
    ∃ e w events x y ss,
      (Engine.ofConfig .standard ⟨0⟩).prepare ringGraph ⟨0⟩ undone = ⟨.ok (), e, w, events⟩ ∧
      x ∈ e.stage (fun _ => .start) w 2 1 ∧ y ∈ e.stage (fun _ => .start) w 2 1 ∧ x.HopsTo y.ctx ∧
      x.ctx.operatorId? = some ⟨0⟩ ∧ y.ComesTo e.control ⟨0⟩ ∧
      (∃ rest name reason w', e.setting.Fails y rest (.graphCycle name reason) w') ∧
      e.sights 2 [.start] w = some ss ∧
      ∃ sight ∈ ss, Engine.SeesFault e.setting (e.stage (fun _ => .start) w 2 1) sight := by
  refine ⟨?_, ?_⟩
  · obtain ⟨e, w, events, hprep, hready⟩ := Seesaw.prepared
    have hendless := hready.endless
    exact ⟨e, w, events, hprep, hendless, (Engine.cycles_fault hprep _).1 _ hendless⟩
  · have hrun : ∃ e w events x y ss,
        (Engine.ofConfig .standard ⟨0⟩).prepare ringGraph ⟨0⟩ undone =
          ⟨.ok (), e, w, events⟩ ∧
        e.stage (fun _ => .start) w 2 1 = [x, y] ∧ x.made = [y.ctx] ∧
        (∃ id, y.ctx = x.ctx.sibling ⟨1⟩ (x.ctx.trail ++ [⟨1⟩]) id) ∧
        x.ctx.operatorId? = some ⟨0⟩ ∧ y.ComesTo e.control ⟨0⟩ ∧
        e.sights 2 [.start] w = some ss :=
      ⟨_, _, _, _, _, _, rfl, rfl, rfl, ⟨_, rfl⟩, rfl, ⟨_, _, _, rfl, rfl, rfl⟩, rfl⟩
    obtain ⟨e, w, events, x, y, ss, hprep, hstage, hmade, ⟨id, hhop⟩, hown, hcomes, hss⟩ := hrun
    have hx : x ∈ e.stage (fun _ => .start) w 2 1 := by simp [hstage]
    have hy : y ∈ e.stage (fun _ => .start) w 2 1 := by simp [hstage]
    have hhops : x.HopsTo y.ctx := ⟨by simp [hmade], ⟨1⟩, id, hhop⟩
    obtain ⟨-, hrevisit⟩ := (Engine.cycles_fault hprep fun _ => .start).2 2 1 [x, y] y
      (by simp [hx, hy]) (by simp [hhops]) rfl
    obtain ⟨hfails, hseen⟩ := hrevisit ⟨0⟩ (by simp [hown]) hcomes
    exact ⟨e, w, events, x, y, ss, hprep, hx, hy, hhops, hown, hcomes, hfails, hss, hseen ss hss⟩

/-- In the seesaw a chain of hops and loops that run again leads back to its
first operator by a hop, and it is executed again. -/
theorem seesaw_comes_back : ∃ e w events,
    (Engine.ofConfig .standard ⟨0⟩).prepare seesawGraph ⟨0⟩ undone = ⟨.ok (), e, w, events⟩ ∧
      (e.Endlessly (fun _ => .start) w fun x => x.ctx.parent? = some Seesaw.top ∧ x.Hops) ∧
      ∃ fuel first later hop last,
        (∀ y ∈ first :: later ++ [hop, last], y ∈ e.stage (fun _ => .start) w fuel 1) ∧
        (first :: later ++ [hop, last]).IsChain (fun y z => y.HopsTo z.ctx ∨ y.RepeatsIn z.ctx) ∧
        hop.HopsTo last.ctx ∧ last.ctx.operatorId? = first.ctx.operatorId? ∧
        last.progress.executed = last.before.executed + 1 := by
  obtain ⟨e, w, events, hprep, hready⟩ := Seesaw.prepared
  refine ⟨e, w, events, hprep, hready.endless, ?_⟩
  -- The third visit is to the side of the first.
  obtain ⟨p₁, m₁, x₁, z₁, y₁, k₁, h₁⟩ := Seesaw.visit hready.going hready.shows false 1 [_]
  obtain ⟨p₂, m₂, x₂, z₂, y₂, k₂, h₂⟩ := Seesaw.visit h₁.going h₁.shows (!false) m₁ _
  obtain ⟨p₃, m₃, x₃, z₃, y₃, k₃, h₃⟩ := Seesaw.visit h₂.going h₂.shows (!!false) m₂ _
  have hlog := hready.runs 15
  rw [h₁.runs 10, h₂.runs 5, h₃.runs 0] at hlog
  have hx₂ : k₁.HopsTo x₂.ctx := h₂.first ▸ h₁.onward
  have hx₃ : k₂.HopsTo x₃.ctx := h₃.first ▸ h₂.onward
  refine ⟨15, x₁, [y₁, k₁, x₂, y₂], k₂, x₃, fun y hy => hlog.subset ?_, ?_, hx₃, ?_, h₃.executed⟩
  · simp only [List.cons_append, List.nil_append, List.mem_cons, List.not_mem_nil,
      or_false] at hy
    rcases hy with rfl | rfl | rfl | rfl | rfl | rfl | rfl <;> simp
  · simp [h₁.again, h₁.hops, hx₂, h₂.again, h₂.hops, hx₃]
  · rw [h₃.first, h₁.first]
    rfl

end Sample

end ScopeFlow
