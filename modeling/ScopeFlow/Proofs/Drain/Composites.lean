import ScopeFlow.Proofs.Drain.Frame
import ScopeFlow.Proofs.Operator.BuiltIn
import ScopeFlow.Proofs.Operator.Tasks
import ScopeFlow.Proofs.Parameter.Reading

/-!
# Composites on a stack

A composite operator works on the heap alone and answers a list of operations,
packed into one. So a drain that executes it goes over, after this one deed,
into the drain of those operations on the same stack (`Leads.of_work`); a leaf
without a successor goes over into what lies below it (`Leads.of_last`).

* `Progress.worked` is how far a drain has come after work on the heap;
* `DrainSetting.Enters` says that an operator is executed at all: no halt is due
  and the bounds allow it;
* `DrainSetting.WorkStep` says what a drain does with a built-in operator;
* `Context.following` lists the context of the successor, if there is one, and
  `Context.successor_eq` and `Context.successor_new` say when it is answered.
-/

namespace ScopeFlow

/-- How far a drain has come after an operator that has worked on the heap. -/
def Progress.worked (p : Progress) (h : Heap) : Progress := p.advance { p.world with heap := h }

namespace Context

variable {ctx : Context} {op : Operator} {h h' : Heap} {next : Option Operation}

/-- The context of the successor, beside the context itself; `n` is the next
free number. -/
def following (ctx : Context) (op : Operator) (n : Nat) : List Context :=
  op.successor.toList.map fun next => ctx.sibling next (ctx.trail ++ [next]) ⟨n⟩

/-- A successor that is not on the trail is answered. -/
theorem successor_eq (hop : ctx.operator = .ok op) (hnew : ∀ s ∈ op.successor, s ∉ ctx.trail) :
    ctx.successor h = (.ok (Operation.inSequence ((ctx.following op h.contexts).map .atomic)),
      { h with contexts := h.contexts + (ctx.following op h.contexts).length }) := by
  unfold successor following
  rw [Act.bind_apply, Act.ofExcept_apply, hop]
  dsimp only
  cases hsucc : op.successor with
  | none => rfl
  | some s =>
    dsimp only
    rw [if_neg (hnew s hsucc)]
    rfl

/-- What is answered is not on the trail. -/
theorem successor_new (hop : ctx.operator = .ok op) (hnext : ctx.successor h = (.ok next, h')) :
    ∀ s ∈ op.successor, s ∉ ctx.trail := by
  intro s hsucc hseen
  unfold successor at hnext
  rw [Act.bind_apply, Act.ofExcept_apply, hop] at hnext
  dsimp only at hnext
  rw [Option.mem_def.mp hsucc] at hnext
  dsimp only at hnext
  rw [if_pos hseen] at hnext
  obtain ⟨_, _, _, hfail⟩ := Act.bind_eq_ok hnext
  cases hfail

/-- The one circle that a successor is refused for. -/
theorem successor_graphCycle {operator reason : String} (hop : ctx.operator = .ok op)
    (he : (ctx.successor h).1 = .error (.graphCycle operator reason)) :
    reason = "successor chain revisits this operator" := by
  unfold successor at he
  rw [Act.bind_apply, Act.ofExcept_apply, hop] at he
  dsimp only at he
  cases hsucc : op.successor with
  | none => rw [hsucc] at he; cases he
  | some s =>
    rw [hsucc] at he
    dsimp only at he
    by_cases hseen : s ∈ ctx.trail
    · rw [if_pos hseen, Act.bind_apply, Act.ofExcept_apply] at he
      cases hget : ctx.graph.graph.get s with
      | error e =>
        rw [hget, Graph.get_eq_error hget] at he
        cases he
      | ok next =>
        rw [hget] at he
        cases he
        rfl
    · rw [if_neg hseen] at he
      cases he

/-- The successor comes after some operations. -/
theorem thenSuccessor_eq (hop : ctx.operator = .ok op) (hnew : ∀ s ∈ op.successor, s ∉ ctx.trail)
    (ops : List Operation) : ctx.thenSuccessor ops h =
      (.ok (Operation.inSequence (ops ++ (ctx.following op h.contexts).map .atomic)),
        { h with contexts := h.contexts + (ctx.following op h.contexts).length }) := by
  unfold thenSuccessor
  rw [Act.bind_apply, successor_eq hop hnew]
  unfold following
  cases op.successor <;> rfl

end Context

namespace DrainSetting

variable {r : DrainSetting} {c : Context} {op : Operator} {below ops : List Operation}
  {p : Progress} {h : Heap} {height : Nat}

/-- Work on the heap lets no halt come due. -/
@[simp] theorem halts?_worked : r.halts? (p.worked h) = r.halts? p := rfl

/-- A drain executes a context on top of so many operations. -/
structure Enters (r : DrainSetting) (c : Context) (height : Nat) (p : Progress) : Prop where
  unhalted : r.halts? p = none
  stack : height + 1 ≤ r.config.maxStackDepth
  depth : c.depth ≤ r.config.maxContextDepth

namespace Enters

/-- The execution of a built-in operator is its work on the heap. -/
theorem execute (he : r.Enters c height p) (hop : c.operator = .ok op)
    (hbuiltIn : op.kind.isBuiltIn = true) : r.execute c height p.world =
      World.onHeap (op.work (p.world.isCancelled (p.world.token r.control)) c) p.world := by
  rw [execute_within (Nat.not_lt.mpr he.stack) (Nat.not_lt.mpr he.depth), Context.execute,
    Act.bind_apply, Act.ofExcept_apply, hop]
  exact Operator.execute_builtIn hbuiltIn ⟨p.world.token r.control, some r.control⟩ c p.world

end Enters

/-- A drain that leads on after one deed begins with nothing or with this deed. -/
theorem Leads.begins_iff {stack stack' : List Operation} {q : Progress} {deed : Deed}
    {l : List Deed} (hleads : r.Leads stack p [deed] stack' q) :
    r.Begins none stack p l ↔ l = [] ∨ ∃ l', l = deed :: l' ∧ r.Begins none stack' q l' := by
  rw [hleads.begins]
  constructor
  · rintro (hl | ⟨l', rfl, hl'⟩)
    · rcases List.prefix_cons_iff.mp hl with rfl | ⟨l', rfl, hl'⟩
      · exact .inl rfl
      · exact .inr ⟨l', rfl, List.prefix_nil.mp hl' ▸ .nil⟩
    · exact .inr ⟨l', rfl, hl'⟩
  · rintro (rfl | ⟨l', rfl, hl'⟩)
    · exact .inl List.nil_prefix
    · exact .inr ⟨l', rfl, hl'⟩

/-- A stack runs dry if its upper part does and then the lower one. -/
theorem ends_append_dry_iff {upper : List Operation} {l : List Deed} {p' : Progress}
    (hroom : r.Roomy (upper ++ below) p) :
    r.Ends none (upper ++ below) p l ⟨.ended none, [], p'⟩ ↔ ∃ l₁ p₁ l₂,
      r.Ends none upper p l₁ ⟨.ended none, [], p₁⟩ ∧
      r.Ends none below p₁ l₂ ⟨.ended none, [], p'⟩ ∧ l = l₁ ++ l₂ := by
  rw [ends_append_iff hroom]
  refine or_iff_left ?_
  -- What is cut short leaves something on the stack.
  intro ⟨d, _, hs, hd⟩
  have hnil : d.stack ++ below = [] := (congrArg Drained.stack hd).symm
  exact hs (List.append_eq_nil_iff.mp hnil).1

/-- A drain that ends without a failure has had room. -/
theorem Ends.roomy {stack : List Operation} {l : List Deed} {d : Drained} {halt : Option Halt}
    (h : r.Ends none stack p l d) (ho : d.outcome = .ended halt) : r.Roomy stack p := by
  intro l' d' h' hover
  obtain ⟨operator, hover⟩ := hover
  rw [← (h.unique h').2, ho] at hover
  cases hover

/-- A drain that fails at its first operation has this one deed. -/
theorem begins_error_iff {e : Failure} {w : World} {l : List Deed} (hdue : r.halts? p = none)
    (hexecute : r.execute c below.length p.world = (.error e, w)) :
    r.Begins none (.atomic c :: below) p l ↔ l = [] ∨ l = [(c, p.fall e w)] := by
  have hends : r.Ends none (.atomic c :: below) p [(c, p.fall e w)]
      ⟨.failed e, .atomic c :: below, p.fall e w⟩ :=
    (ends_error (move_eq_perform.mpr ⟨hdue, rfl⟩) hexecute).mpr ⟨rfl, rfl⟩
  rw [hends.begins_iff, List.prefix_cons_iff]
  simp [List.prefix_nil]

/-- A list packed into one operation is drained as the list. -/
theorem Leads.of_inSequence (hdue : r.halts? p = none) :
    r.Leads ((Operation.inSequence ops).toList ++ below) p [] (ops ++ below) p := by
  cases ops with
  | nil => exact .refl
  | cons first others =>
    cases others with
    | nil => exact .refl
    | cons second others =>
      have hm : r.move none (.sequence (first :: second :: others)) p =
          .unpack (first :: second :: others) := by rw [move, hdue]
      exact .unpack hm .refl

/-- What a drain does with a built-in operator on top of its stack. -/
inductive WorkStep (r : DrainSetting) (c : Context) (op : Operator) (height : Nat) (p : Progress) :
    Prop
  | halts {why : Halt} : r.halts? p = some why → WorkStep r c op height p
  | fails {e : Failure} {w : World} : r.halts? p = none →
      r.execute c height p.world = (.error e, w) →
      (r.Enters c height p → ∃ h, op.work (p.world.isCancelled (p.world.token r.control)) c
        p.world.heap = (.error e, h)) → WorkStep r c op height p
  | works {next : Option Operation} {h : Heap} : r.Enters c height p →
      op.work (p.world.isCancelled (p.world.token r.control)) c p.world.heap = (.ok next, h) →
      WorkStep r c op height p

theorem workStep (hop : c.operator = .ok op) (hbuiltIn : op.kind.isBuiltIn = true) (height : Nat)
    (p : Progress) : r.WorkStep c op height p := by
  cases hdue : r.halts? p with
  | some why => exact .halts hdue
  | none =>
    rcases hexecute : r.execute c height p.world with ⟨e | next, w⟩
    · refine .fails hdue hexecute fun he => ?_
      rw [he.execute hop hbuiltIn, World.onHeap_apply] at hexecute
      obtain ⟨hfirst, -⟩ := Prod.mk.inj hexecute
      exact ⟨_, Prod.ext hfirst rfl⟩
    · obtain ⟨hstack, hdepth, -⟩ := execute_eq_ok hexecute
      have he : r.Enters c height p := ⟨hdue, hstack, hdepth⟩
      rw [he.execute hop hbuiltIn] at hexecute
      exact .works he (World.onHeap_eq_ok hexecute)

/-- The drain of a composite goes over into the drain of what it answers. -/
theorem Leads.of_work (he : r.Enters c below.length p) (hop : c.operator = .ok op)
    (hbuiltIn : op.kind.isBuiltIn = true)
    (hwork : op.work (p.world.isCancelled (p.world.token r.control)) c p.world.heap =
      (.ok (Operation.inSequence ops), h)) :
    r.Leads (.atomic c :: below) p [(c, p.worked h)] (ops ++ below) (p.worked h) := by
  have hexecute : r.execute c below.length p.world =
      (.ok (Operation.inSequence ops), { p.world with heap := h }) := by
    rw [he.execute hop hbuiltIn, World.onHeap_apply, hwork]
  have hdue : r.halts? (p.worked h) = none := halts?_worked.trans he.unhalted
  exact .perform (move_eq_perform.mpr ⟨he.unhalted, rfl⟩) hexecute (.of_inSequence hdue)

/-- A leaf without a successor leads to what lies below it. -/
theorem Leads.of_last {act : Act Heap Unit} (he : r.Enters c below.length p)
    (hop : c.operator = .ok op) (hbuiltIn : op.kind.isBuiltIn = true) (hlast : op.successor = none)
    (hwork : ∀ cancelled, op.work cancelled c = act >>= fun _ => c.successor)
    (hact : act p.world.heap = (.ok (), h)) :
    r.Leads (.atomic c :: below) p [(c, p.worked h)] below (p.worked h) := by
  have hnew : ∀ s ∈ op.successor, s ∉ c.trail := by
    rw [hlast]
    exact nofun
  have hnothing : op.work (p.world.isCancelled (p.world.token r.control)) c p.world.heap =
      (.ok (Operation.inSequence []), h) := by
    rw [hwork, Act.bind_apply, hact]
    dsimp only
    rw [Context.successor_eq hop hnew, Context.following, hlast]
    rfl
  exact .of_work he hop hbuiltIn hnothing

end DrainSetting

end ScopeFlow
