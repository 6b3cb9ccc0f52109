import ScopeFlow.Proofs.Drain.Loops
import ScopeFlow.Proofs.Engine.Fresh
import ScopeFlow.Proofs.Operator.Counting

/-!
# The counting loop

The run of the loop that counts `Value` up until it reaches `Limit`.

* `Counting.Run.round` is one round of it, three operators long, and
  `Counting.Run.rounds` any number of them, by induction on how far `Value` is
  from `Limit`;
* `Engine.counting_loop_counts` is the whole run, from putting the graph
  together to what the scope holds at the end.

`Terminate` is looked at before a round and not after it, so that there is one
round even where `Value` has reached `Limit` before.
-/

namespace ScopeFlow

namespace Counting

/-! ## The contexts of a run -/

/-- A count in a run: with the graph in use, and its frame. -/
structure Run extends Counting where
  id : GraphId
  root : ContextId

/-- The loop of the graph. -/
def loopOperator (c : Counting) : LoopOperator where
  id := ⟨2⟩
  op := c.loop
  body := some ⟨0⟩
  terminator := some ⟨1⟩
  kind := rfl

/-- A configuration with room for the loop, its two operators, and their
contexts under that of the loop. -/
structure Roomy (config : Config) : Prop where
  stack : 3 ≤ config.maxStackDepth
  depth : 2 ≤ config.maxContextDepth

namespace Run

variable (c : Run)

/-- The graph in use. -/
def shared : SharedGraph := ⟨c.id, c.graph⟩

/-- The loop, in a context. -/
def main (n : ContextId) : Context :=
  .frame n ⟨2⟩ c.scope [⟨2⟩] (.root c.root c.shared c.scope)

/-- The body, scheduled by the loop. -/
def body (n k : ContextId) : Context := .frame k ⟨0⟩ c.scope [⟨0⟩] (c.main n)

/-- The terminator, scheduled by the loop. -/
def terminator (n k : ContextId) : Context := .frame k ⟨1⟩ c.scope [⟨1⟩] (c.main n)

theorem main_binds (n : ContextId) : (c.main n).Binds c.loopOperator := ⟨rfl, rfl⟩

theorem main_stays (n : ContextId) : (c.main n).Stays c.scope := by
  simp [Context.Stays, Context.scopes, Context.chain, main, Context.scope]

theorem body_stays (n k : ContextId) : (c.body n k).Stays c.scope :=
  List.forall_mem_cons.mpr ⟨rfl, c.main_stays n⟩

theorem terminator_stays (n k : ContextId) : (c.terminator n k).Stays c.scope :=
  List.forall_mem_cons.mpr ⟨rfl, c.main_stays n⟩

/-! ## The operators -/

variable {c} {r : DrainSetting} {p : Progress} {n k : ContextId} {terminate : Option Bool}
  {value : Option Int64} (hroom : Roomy r.config) (hdue : r.halts? p = none)
include hroom hdue

theorem enters {ctx : Context} {height : Nat} (hheight : height ≤ 2) (hdepth : ctx.depth ≤ 2) :
    r.Enters ctx height p where
  unhalted := hdue
  stack := (Nat.succ_le_succ hheight).trans hroom.stack
  depth := hdepth.trans hroom.depth

/-- The loop schedules its two operators and itself. -/
theorem main_leads (n : ContextId) (ht : p.world.heap.Tally c.toCounting terminate value)
    (hgoes : terminate.getD false = false) :
    ∃ k k' n' h, r.Leads [.atomic (c.main n)] p [(c.main n, p.worked h)]
        [.atomic (c.body n k), .atomic (c.terminator n k'), .atomic (c.main n')] (p.worked h) ∧
      h.Tally c.toCounting terminate value := by
  have he : r.Enters (c.main n) 0 p := enters hroom hdue (Nat.zero_le 2) (Nat.le_succ 1)
  obtain ⟨h, hread, ht'⟩ := ht.getBool (c.main_stays n) rfl
  rw [hgoes] at hread
  exact ⟨_, _, _, _,
    (DrainSetting.GoesRound.mk hdue he.depth hread).leads (c.main_binds n) he.stack,
    ht'.of_same rfl rfl⟩

/-- The loop is done. -/
theorem main_ends (n : ContextId) (ht : p.world.heap.Tally c.toCounting terminate value)
    (hdone : terminate.getD false = true) :
    ∃ h, r.Leads [.atomic (c.main n)] p [(c.main n, p.worked h)] [] (p.worked h) ∧
      h.Tally c.toCounting terminate value := by
  have he : r.Enters (c.main n) 0 p := enters hroom hdue (Nat.zero_le 2) (Nat.le_succ 1)
  obtain ⟨h, hread, ht'⟩ := ht.getBool (c.main_stays n) rfl
  rw [hdone] at hread
  have hnew : ∀ next ∈ c.loopOperator.op.successor, next ∉ (c.main n).trail :=
    fun _ hnext => nomatch hnext
  exact ⟨_, (DrainSetting.Finishes.mk hdue he.depth hread hnew).leads (c.main_binds n) he.stack,
    ht'.of_same rfl rfl⟩

/-- The body counts up. -/
theorem body_leads (below : List Operation) (hbelow : below.length ≤ 2)
    (ht : p.world.heap.Tally c.toCounting terminate value) :
    ∃ h, r.Leads (.atomic (c.body n k) :: below) p [(c.body n k, p.worked h)] below (p.worked h) ∧
      h.Tally c.toCounting terminate (some (value.getD 0 + 1)) := by
  obtain ⟨h, hcount, ht'⟩ := ht.count (c.body_stays n k) rfl rfl
  have he : r.Enters (c.body n k) below.length p := enters hroom hdue hbelow (Nat.le_refl 2)
  exact ⟨h, .of_last he rfl rfl rfl (fun _ => rfl) hcount, ht'⟩

/-- The terminator compares. -/
theorem terminator_leads {v : Int64} (below : List Operation) (hbelow : below.length ≤ 2)
    (ht : p.world.heap.Tally c.toCounting terminate (some v)) :
    ∃ h, r.Leads (.atomic (c.terminator n k) :: below) p [(c.terminator n k, p.worked h)] below
        (p.worked h) ∧
      h.Tally c.toCounting (some (decide (c.limit ≤ v))) (some v) := by
  obtain ⟨h, hcompare, ht'⟩ := ht.compare comparator.name (c.terminator_stays n k) rfl rfl rfl
  have he : r.Enters (c.terminator n k) below.length p :=
    enters hroom hdue hbelow (Nat.le_refl 2)
  exact ⟨h, .of_last he rfl rfl rfl (fun _ => rfl) hcompare, ht'⟩

/-! ## Rounds -/

/-- One round, in which `Terminate` does not hold at first. -/
theorem round (n : ContextId) (ht : p.world.heap.Tally c.toCounting terminate value)
    (hgoes : terminate.getD false = false) :
    ∃ l q n', r.Leads [.atomic (c.main n)] p l [.atomic (c.main n')] q ∧ r.halts? q = none ∧
      q.executed = p.executed + 3 ∧
      q.world.heap.Tally c.toCounting (some (decide (c.limit ≤ value.getD 0 + 1)))
        (some (value.getD 0 + 1)) := by
  obtain ⟨k, k', n', h₁, hmain, ht₁⟩ := main_leads hroom hdue n ht hgoes
  have hdue₁ : r.halts? (p.worked h₁) = none := hdue
  obtain ⟨h₂, hbody, ht₂⟩ := body_leads hroom hdue₁
    [.atomic (c.terminator n k'), .atomic (c.main n')] (Nat.le_refl 2) ht₁
  have hdue₂ : r.halts? ((p.worked h₁).worked h₂) = none := hdue
  obtain ⟨h₃, hterminator, ht₃⟩ :=
    terminator_leads hroom hdue₂ [.atomic (c.main n')] (Nat.le_succ 1) ht₂
  exact ⟨_, _, n', (hmain.trans hbody).trans hterminator, hdue, rfl, ht₃⟩

/-- All rounds, however many there are. The induction is on how far `Value` is
from `Limit`. -/
theorem rounds (n : ContextId) (ht : p.world.heap.Tally c.toCounting terminate value)
    (hgoes : terminate.getD false = false) (hv : (value.getD 0).toInt < 2 ^ 63 - 1) :
    ∃ l q x, r.Ends none [.atomic (c.main n)] p l ⟨.ended none, [], q⟩ ∧
      q.world.heap.Tally c.toCounting (some true) (some x) ∧
      x.toInt = max c.limit.toInt ((value.getD 0).toInt + 1) ∧
      (q.executed : Int) = p.executed + 3 * max (c.limit.toInt - (value.getD 0).toInt) 1 + 1 := by
  induction hleft : (c.limit.toInt - (value.getD 0).toInt).toNat using Nat.strong_induction_on
    generalizing p n terminate value with
  | _ left ih =>
    subst hleft
    have hsucc := toInt_succ hv
    obtain ⟨l, p', n', hround, hdue', hcount, ht'⟩ := round hroom hdue n ht hgoes
    by_cases hreached : c.limit ≤ value.getD 0 + 1
    · -- `Terminate` holds when the loop comes up again.
      have hle := Int64.le_iff_toInt_le.mp hreached
      rw [decide_eq_true hreached] at ht'
      obtain ⟨h, hends, ht''⟩ := main_ends hroom hdue' n' ht' rfl
      refine ⟨_, p'.worked h, _, ((hround.trans hends).ends _ _).mpr
        ⟨[], rfl, DrainSetting.ends_nil.mpr ⟨rfl, rfl⟩⟩, ht'', by omega, ?_⟩
      show ((p'.executed + 1 : Nat) : Int) = _
      omega
    · have hlt := Int64.lt_iff_toInt_lt.mp (Int64.not_le.mp hreached)
      have hbound := c.limit.toInt_lt
      rw [decide_eq_false hreached] at ht'
      have hcloser : (c.limit.toInt - (value.getD 0 + 1).toInt).toNat <
          (c.limit.toInt - (value.getD 0).toInt).toNat := by omega
      have hv' : ((some (value.getD 0 + 1)).getD 0).toInt < 2 ^ 63 - 1 := by
        rw [Option.getD_some]
        omega
      obtain ⟨l', q, x, hends, hq, hx, hexecuted⟩ := ih _ hcloser hdue' n' ht' rfl hv' rfl
      rw [Option.getD_some] at hx hexecuted
      exact ⟨_, q, x, (hround.ends _ _).mpr ⟨l', rfl, hends⟩, hq, by omega, by omega⟩

end Run

/-! ## The whole run -/

/-- Puts the graph together, sets `Limit` in a scope, and `Value` if it is given
one, and puts the graph to use. -/
def setUp (s : ScopeId) (limit : Int64) (value : Option Int64) : Act Heap SharedGraph := do
  let g ← build
  Act.modify fun h => h.setVariable s "Limit" (.int limit)
  match value with
  | none => pure ()
  | some v => Act.modify fun h => h.setVariable s "Value" (.int v)
  Act.change fun h => h.share g

variable {h : Heap} {s : ScopeId} {limit : Int64} {value : Option Int64}

theorem setUp_tally (limit : Int64) (value : Option Int64) (hs : s.index < h.scopes.size)
    (hempty : (h.scope s).bindings = .empty) :
    ∃ (c : Counting) (id : GraphId) (h' : Heap), c.scope = s ∧ c.limit = limit ∧
      setUp s limit value h = (.ok ⟨id, c.graph⟩, h') ∧ h'.Tally c none value := by
  let h₁ := (h.newItem (.int 1)).2
  let h₂ := (h₁.newItem (.bool false)).2
  let c : Counting := ⟨⟨h.items.size⟩, ⟨h.items.size + 1⟩, s, limit⟩
  have hsize₁ : h₁.items.size = h.items.size + 1 := Heap.items_size_newItem
  have hsize₂ : h₂.items.size = h₁.items.size + 1 := Heap.items_size_newItem
  have hmade : c.one.index < h₂.items.size ∧ c.no.index < h₂.items.size := by
    rw [hsize₂, hsize₁]
    exact ⟨Nat.lt_add_of_pos_right (Nat.zero_lt_two), Nat.lt_succ_self _⟩
  have hone : h₂.value c.one = .int 1 := by
    rw [Heap.value_newItem_lt (by rw [hsize₁]; exact Nat.lt_succ_self _), Heap.value_newItem_self]
  have hno : h₂.value c.no = .bool false := by
    show h₂.value ⟨h.items.size + 1⟩ = _
    rw [← hsize₁, Heap.value_newItem_self]
  have hlimit : (h₂.setVariable s "Limit" (.int limit)).Tally c none none :=
    Heap.tally_limit hone hno hmade hs hempty
  unfold setUp
  rw [Act.bind_apply, build_eq h s limit]
  cases value with
  | none => exact ⟨c, _, _, rfl, rfl, rfl, hlimit.of_same rfl rfl⟩
  | some v => exact ⟨c, _, _, rfl, rfl, rfl, hlimit.setVariable_value.of_same rfl rfl⟩

/-- The graph passes its check, as the defaults are no operators. -/
theorem validate {c : Counting} {terminate : Option Bool} (ht : h.Tally c terminate value) :
    c.graph.validate h = .ok () := by
  obtain ⟨k, hh⟩ := ht
  have hreferences : c.graph.allReferences h = [⟨2⟩, ⟨0⟩, ⟨1⟩] := by
    simp [Graph.allReferences, graph, Operator.references, counter, comparator, loop,
      OperatorKind.children, Parameters.held, Parameter.held, Parameter.lookup, Parameters.empty,
      Heap.operatorsIn, hh.one, hh.no, Value.operator?]
  rw [Graph.validate, hreferences]
  rfl

end Counting

namespace Engine

/-- **Counting.** Over a scope that has been given `Limit`, and `Value` or not, and
that holds nothing else, the counting loop stops, with `Value` at the larger of
`Limit` and the successor of what `Value` was, or of zero. The scope holds
nothing but these two and `Terminate`, and `Limit` is as it was. A round is three
operators long, there is one round at least, and the loop itself is the last to
be executed. -/
theorem counting_loop_counts {config : Config} {w₀ : World} {s : ScopeId} {limit : Int64}
    {value : Option Int64} (hconfig : config.fault? = none) (hroom : Counting.Roomy config)
    (hs : s.index < w₀.heap.scopes.size) (hempty : (w₀.heap.scope s).bindings = .empty)
    (hv : (value.getD 0).toInt < 2 ^ 63 - 1)
    (hnear : limit.toInt - (value.getD 0).toInt < 2 ^ 60) :
    ∃ g h e₀ w₁ e w events fuel reply x,
      Counting.setUp s limit value w₀.heap = (.ok g, h) ∧
      create config { w₀ with heap := h } = (.ok e₀, w₁) ∧
      e₀.prepare g s w₁ = ⟨.ok (), e, w, events⟩ ∧ e.start fuel w = some reply ∧
      reply.result = .ok .stopped ∧ reply.engine.state = .stopped ∧
      reply.engine.continuation = [] ∧
      reply.world.heap.variableValues s =
        [("Limit", .int limit), ("Terminate", .bool true), ("Value", .int x)] ∧
      x.toInt = max limit.toInt ((value.getD 0).toInt + 1) ∧
      (reply.engine.executed : Int) = 3 * max (limit.toInt - (value.getD 0).toInt) 1 + 1 ∧
      reply.engine.executed < 2 ^ 64 := by
  obtain ⟨c, id, h, rfl, rfl, hsetUp, ht⟩ := Counting.setUp_tally limit value hs hempty
  have hvalid : c.graph.validate ({ w₀ with heap := h } : World).heap = .ok () :=
    Counting.validate ht
  obtain ⟨e₀, w₁, e, w, events, hcreate, hprep, he⟩ :=
    prepared_atStart (g := ⟨id, c.graph⟩) hconfig c.scope hvalid rfl
  have ht' : w.heap.Tally c none value := by
    rw [he.heap]
    exact ht.of_same rfl rfl
  have hroom' : Counting.Roomy e.setting.config := by
    rw [show e.setting.config = config from he.config]
    exact hroom
  let run : Counting.Run := ⟨c, id, ⟨h.contexts⟩⟩
  have hcontinuation : e.continuation = [.atomic (run.main ⟨h.contexts + 1⟩)] := he.continuation
  obtain ⟨l, q, x, hends, hq, hx, hexecuted⟩ :=
    run.rounds hroom' he.unhalted ⟨h.contexts + 1⟩ ht' rfl hv
  rw [← hcontinuation] at hends
  obtain ⟨fuel, hstart⟩ := he.start_of_ends hends
  have hcount : (q.executed : Int) =
      (e.executed : Nat) + 3 * max (c.limit.toInt - (value.getD 0).toInt) 1 + 1 := hexecuted
  have hnone : e.executed = 0 := he.executed
  refine ⟨_, h, e₀, w₁, e, w, events, fuel, _, x, hsetUp, hcreate, hprep, hstart, rfl, rfl, rfl,
    hq.variableValues, hx, ?_, ?_⟩
  · show (q.executed : Int) = _
    omega
  · show q.executed < 2 ^ 64
    omega

end Engine

namespace Sample

/-- A world with one scope, which holds nothing. -/
def blank : World := { World.empty with heap := ⟨#[], #[.named "Global"], 0, 0⟩ }

/-- Counting to ten from nothing takes ten rounds; from seven to less, one. -/
theorem counting_loop_counts_ten :
    Config.standard.fault? = none ∧ Counting.Roomy .standard ∧
      Config.sequential.fault? = none ∧ Counting.Roomy .sequential ∧
      (⟨0⟩ : ScopeId).index < blank.heap.scopes.size ∧
      (blank.heap.scope ⟨0⟩).bindings = .empty ∧
      (∃ e fuel, ∃ w : World, ∃ reply : Reply RunState, Engine.start fuel e w = some reply ∧
        reply.engine.executed = 31 ∧ reply.world.heap.variableValues ⟨0⟩ =
          [("Limit", .int 10), ("Terminate", .bool true), ("Value", .int 10)]) ∧
      ∃ e fuel, ∃ w : World, ∃ reply : Reply RunState, Engine.start fuel e w = some reply ∧
        reply.engine.executed = 4 ∧ reply.world.heap.variableValues ⟨0⟩ =
          [("Limit", .int (-5)), ("Terminate", .bool true), ("Value", .int 8)] := by
  have hstandard : Config.standard.fault? = none := rfl
  have hsequential : Config.sequential.fault? = none := rfl
  have hroom : Counting.Roomy .standard := ⟨by decide, by decide⟩
  have hroom' : Counting.Roomy .sequential := ⟨by decide, by decide⟩
  have hs : (⟨0⟩ : ScopeId).index < blank.heap.scopes.size := by decide
  have hempty : (blank.heap.scope ⟨0⟩).bindings = .empty := rfl
  have hfresh : ((none : Option Int64).getD 0).toInt < 2 ^ 63 - 1 := by decide
  have hseven : ((some 7 : Option Int64).getD 0).toInt < 2 ^ 63 - 1 := by decide
  have hten : (10 : Int64).toInt - ((none : Option Int64).getD 0).toInt < 2 ^ 60 := by decide
  have hless : (-5 : Int64).toInt - ((some 7 : Option Int64).getD 0).toInt < 2 ^ 60 := by decide
  obtain ⟨_, _, _, _, e, w, _, fuel, reply, x, -, -, -, hstart, -, -, -, hvalues, hx, hcount, -⟩ :=
    Engine.counting_loop_counts hstandard hroom hs hempty hfresh hten
  obtain ⟨_, _, _, _, e', w', _, fuel', reply', x', -, -, -, hstart', -, -, -, hvalues', hx',
    hcount', -⟩ := Engine.counting_loop_counts hsequential hroom' hs hempty hseven hless
  obtain rfl : x = 10 := Int64.toInt_inj.mp (hx.trans rfl)
  obtain rfl : x' = 8 := Int64.toInt_inj.mp (hx'.trans rfl)
  refine ⟨hstandard, hroom, hsequential, hroom', hs, hempty,
    ⟨e, fuel, w, reply, hstart, ?_, hvalues⟩, e', fuel', w', reply', hstart', ?_, hvalues'⟩
  · exact Int.ofNat_inj.mp (hcount.trans rfl)
  · exact Int.ofNat_inj.mp (hcount'.trans rfl)

end Sample

end ScopeFlow
