import ScopeFlow.Proofs.Drain.Bounded
import ScopeFlow.Proofs.Drain.Composites
import ScopeFlow.Proofs.Scope.Levels
import ScopeFlow.Proofs.Scope.Operations

/-!
# Processors of sub-scopes

A processor of sub-scopes looks the scopes up once, when it is executed, and
answers one context for each of them; what becomes of the tree afterwards has no
part in it. Whether these are put on the stack as a sequence or as branches, and
whether or not branches are drained on stacks of their own, each is drained to
the end before the next one starts.

* `DrainSetting.branches_dry_iff` and `DrainSetting.branchesBegin_iff`: by
  induction on the branches of a split;
* `DrainSetting.Dispatches` is the one way in which a processor is executed, and
  `DrainSetting.Visits` what follows it;
* `DrainSetting.sub_scopes_visited`: with the scopes that are looked up.
-/

namespace ScopeFlow

/-- A list as one operation, run as branches or from left to right. -/
def Operation.batch (parallel : Bool) (ops : List Operation) : Option Operation :=
  if parallel then inParallel ops else inSequence ops

/-- Which operators a processor of sub-scopes runs on which scopes below a
scope, in this order. One that has an operator for each sub-scope needs enough of
them. -/
def Operator.assigned? (op : Operator) (h : Heap) (s : ScopeId) :
    Option (List (OperatorId × ScopeId)) :=
  match op.kind with
  | .uniformSubScopes none _ => some []
  | .uniformSubScopes (some id) depth => some ((h.scopesAtDepth depth s).map fun t => (id, t))
  | .subScopes ids =>
    if (h.scope s).children.length < ids.length then none
    else some (ids.zip (h.scope s).children)
  | _ => none

/-- The failure of a processor that has more operators than it finds sub-scopes. -/
def Operator.shortage (op : Operator) (ids : List OperatorId) (h : Heap) (s : ScopeId) : Failure :=
  .operatorFailed op.name (toString ids.length ++ " operators but only " ++
    toString (h.scope s).children.length ++ " sub-scopes")

namespace Operator

variable {op : Operator} {c : Context} {h : Heap} {places : List (OperatorId × ScopeId)}

theorem isBuiltIn_of_assigned (hplaces : op.assigned? h c.scope = some places) :
    op.kind.isBuiltIn = true := by
  unfold assigned? at hplaces
  cases hkind : op.kind <;> rw [hkind] at hplaces <;> first | rfl | cases hplaces

/-- The work of a processor is to schedule what is assigned, as branches. -/
theorem work_of_assigned (hplaces : op.assigned? h c.scope = some places) (cancelled : Bool) :
    op.work cancelled c h = (c.childrenOn places >>= c.branches) h := by
  unfold assigned? at hplaces
  unfold work
  cases hkind : op.kind with
  | uniformSubScopes body depth =>
    rw [hkind] at hplaces
    cases body with
    | none => cases hplaces; rfl
    | some id => cases hplaces; rfl
  | subScopes ids =>
    rw [hkind] at hplaces
    dsimp only at hplaces ⊢
    split at hplaces
    · cases hplaces
    · next henough =>
      cases hplaces
      rw [Context.runOnSubScopes, Act.bind_apply, Act.see_apply]
      dsimp only
      rw [if_neg henough]
  | _ => rw [hkind] at hplaces; cases hplaces

end Operator

namespace DrainSetting

variable {r : DrainSetting} {c : Context} {op : Operator} {x : Operation}
  {ops below : List Operation} {p p' q : Progress} {l : List Deed} {parallel : Bool}
  {places : List (OperatorId × ScopeId)} {children next : List Context}

/-! ## Branches one after another -/

theorem inTurn_cons_dry_iff : r.InTurn (x :: ops) q l ⟨.ended none, [], p'⟩ ↔
    ∃ l₁ q₁ l₂, r.Ends none [x] q l₁ ⟨.ended none, [], q₁⟩ ∧
      r.InTurn ops q₁ l₂ ⟨.ended none, [], p'⟩ ∧ l = l₁ ++ l₂ := by
  constructor
  · intro h
    generalize hz : (⟨.ended none, [], p'⟩ : Drained) = z at h
    cases h with
    | next hx hops => exact ⟨_, _, _, hx, hz ▸ hops, rfl⟩
    | @cut _ _ _ _ z hx hs =>
      have hnil : z.stack ++ ops = [] := (congrArg Drained.stack hz).symm
      exact absurd (List.append_eq_nil_iff.mp hnil).1 hs
  · rintro ⟨l₁, q₁, l₂, hx, hops, rfl⟩
    exact .next hx hops

/-- A drain of one operation either runs dry or is cut short. -/
theorem Ends.dry_or_cut {d : Drained} (h : r.Ends none [x] q l d) :
    (∃ q₁, d = ⟨.ended none, [], q₁⟩) ∨ d.stack ≠ [] := by
  obtain ⟨fuel, hd, -⟩ := h
  by_cases hs : d.stack = []
  · have ho := (stack_eq_nil_iff fuel hd).mp hs
    exact .inl ⟨d.progress, by rw [← ho, ← hs]⟩
  · exact .inr hs

/-- Branches that all run dry do so one after another. -/
theorem branches_dry_iff :
    (∃ ends, r.BranchesEnd ops q l ends p' ∧ (joinBranches ends).outcome = .ended none) ↔
      r.InTurn ops q l ⟨.ended none, [], p'⟩ := by
  induction ops generalizing q l with
  | nil =>
    constructor
    · intro ⟨ends, hb, _⟩
      obtain ⟨rfl, -, rfl⟩ := branchesEnd_nil.mp hb
      exact .done p'
    · intro h
      cases h
      exact ⟨[], branchesEnd_nil.mpr ⟨rfl, rfl, rfl⟩, rfl⟩
  | cons op ops ih =>
    rw [inTurn_cons_dry_iff]
    constructor
    · intro ⟨ends, hb, ho⟩
      obtain ⟨l₁, d, l₂, ends', hop, hops, rfl, rfl⟩ := branchesEnd_cons.mp hb
      rw [joinBranches_outcome_none, List.forall_mem_cons, ← joinBranches_outcome_none] at ho
      obtain ⟨fuel, hd, -⟩ := id hop
      rcases hop.dry_or_cut with ⟨q₁, rfl⟩ | hs
      · exact ⟨l₁, q₁, l₂, hop, ih.mp ⟨ends', hops, ho.2⟩, rfl⟩
      · exact absurd ((stack_eq_nil_iff fuel hd).mpr ho.1) hs
    · intro ⟨l₁, q₁, l₂, hop, hops, hl⟩
      obtain ⟨ends, hb, ho⟩ := ih.mpr hops
      refine ⟨_, branchesEnd_cons.mpr ⟨l₁, _, l₂, ends, hop, hb, hl, rfl⟩, ?_⟩
      rw [joinBranches_outcome_none, List.forall_mem_cons, ← joinBranches_outcome_none]
      exact ⟨rfl, ho⟩

/-- No operation is cut short when these are drained one after another: no halt
comes due, and none of them fails. -/
def Uncut (r : DrainSetting) (ops : List Operation) (q : Progress) : Prop :=
  ∀ l d, r.InTurn ops q l d → d.stack = []

/-- Branches of which none is cut short begin one after another. -/
theorem branchesBegin_iff (huncut : r.Uncut ops q) :
    r.BranchesBegin ops q l ↔ r.InTurnBegins ops q l := by
  induction ops generalizing q l with
  | nil =>
    have hb : r.BranchesEnd [] q [] [] q := branchesEnd_nil.mpr ⟨rfl, rfl, rfl⟩
    rw [hb.begin_iff, List.prefix_nil]
    constructor
    · rintro rfl
      exact .done q
    · intro h
      cases h
      rfl
  | cons op ops ih =>
    have hrest : ∀ {l₁ q₁}, r.Ends none [op] q l₁ ⟨.ended none, [], q₁⟩ → r.Uncut ops q₁ :=
      fun hop l d hops => huncut _ d (.next hop hops)
    rw [branchesBegin_cons]
    constructor
    · rintro (hop | ⟨l₁, d, l₂, hop, rfl, hops⟩)
      · exact .first hop
      · -- A branch that is cut short would cut all of them short.
        rcases hop.dry_or_cut with ⟨q₁, rfl⟩ | hs
        · exact .next hop ((ih (hrest hop)).mp hops)
        · have hnil : d.stack ++ ops = [] := huncut _ _ (.cut hop hs)
          exact absurd (List.append_eq_nil_iff.mp hnil).1 hs
    · intro h
      cases h with
      | first hop => exact .inl hop
      | next hop hops => exact .inr ⟨_, _, _, hop, rfl, (ih (hrest hop)).mpr hops⟩

/-- A batch is unpacked on the stack or split into branches. -/
theorem batch_cases (hdue : r.halts? q = none) (parallel : Bool) (ops : List Operation) :
    (∀ below, r.Leads ((Operation.batch parallel ops).toList ++ below) q [] (ops ++ below) q) ∨
      Operation.batch parallel ops = some (.parallel ops) ∧
        r.move none (.parallel ops) q = .split ops := by
  unfold Operation.batch
  cases parallel with
  | false => exact .inl fun below => .of_inSequence hdue
  | true =>
    cases ops with
    | nil => exact .inl fun below => .refl
    | cons first others =>
      by_cases hs : r.separates none (first :: others) = true
      · exact .inr ⟨rfl, by rw [move, hdue]; exact if_pos hs⟩
      · have hm : r.move none (.parallel (first :: others)) q = .unpack (first :: others) := by
          rw [move, hdue]
          exact if_neg hs
        exact .inl fun below => .unpack hm .refl

/-- A batch runs dry if its operations do, one after another. -/
theorem batch_dry_iff (hdue : r.halts? q = none)
    (hroom : r.Roomy (Operation.batch parallel ops).toList q) :
    r.Ends none (Operation.batch parallel ops).toList q l ⟨.ended none, [], p'⟩ ↔
      r.InTurn ops q l ⟨.ended none, [], p'⟩ := by
  rcases batch_cases hdue parallel ops with hleads | ⟨hbatch, hm⟩
  · have hleads := hleads []
    rw [List.append_nil, List.append_nil] at hleads
    rw [← ends_iff_inTurn (hleads.roomy hroom), hleads.ends]
    simp
  · -- What branches leave is put back, and those that have run dry leave nothing.
    rw [hbatch, Option.toList_some, ends_split hm, ← branches_dry_iff]
    constructor
    · intro ⟨l₁, ends, q₁, hb, hends⟩
      obtain ⟨fuel, hdrain, -⟩ := id hb
      rcases hends with ⟨ho, l₂, rfl, hrest⟩ | ⟨ho, -, hd⟩
      · rw [stackOn_of_dry hdrain ho] at hrest
        obtain ⟨rfl, hd⟩ := ends_nil.mp hrest
        cases hd
        exact ⟨ends, by rwa [List.append_nil], ho⟩
      · exact absurd (congrArg Drained.outcome hd).symm ho
    · intro ⟨ends, hb, ho⟩
      obtain ⟨fuel, hdrain, -⟩ := id hb
      refine ⟨l, ends, p', hb, .inl ⟨ho, [], (List.append_nil l).symm, ?_⟩⟩
      rw [stackOn_of_dry hdrain ho]
      exact ends_nil.mpr ⟨rfl, rfl⟩

/-- A batch begins as its operations do, one after another. -/
theorem batch_begins_iff (hdue : r.halts? q = none)
    (hroom : r.Roomy (Operation.batch parallel ops).toList q) (huncut : r.Uncut ops q) :
    r.Begins none (Operation.batch parallel ops).toList q l ↔ r.InTurnBegins ops q l := by
  rcases batch_cases hdue parallel ops with hleads | ⟨hbatch, hm⟩
  · have hleads := hleads []
    rw [List.append_nil, List.append_nil] at hleads
    rw [← begins_iff_inTurn (hleads.roomy hroom), hleads.begins]
    constructor
    · rintro (hl | ⟨l', rfl, hl'⟩)
      · exact List.prefix_nil.mp hl ▸ .nil
      · exact hl'
    · exact fun hl => .inr ⟨l, rfl, hl⟩
  · rw [hbatch, Option.toList_some, begins_split hm, ← branchesBegin_iff huncut]
    refine or_iff_left_of_imp ?_
    -- Nothing is left to be done after branches that have all run dry.
    rintro ⟨l₁, ends, q₁, l₂, hb, ho, rfl, hrest⟩
    obtain ⟨fuel, hdrain, -⟩ := id hb
    rw [stackOn_of_dry hdrain ho, begins_nil] at hrest
    rw [hb.begin_iff, hrest, List.append_nil]

/-! ## One execution -/

/-- A processor is executed: it answers a context for each place, and its
successor, if it has one. Whether `Parallel` holds makes no difference to them. -/
inductive Dispatches (r : DrainSetting) (c : Context) (op : Operator)
    (places : List (OperatorId × ScopeId)) (p : Progress) :
    List Context → List Context → Progress → Prop
  | mk {h : Heap} {parallel : Bool} (unhalted : r.halts? p = none)
      (depth : c.depth ≤ r.config.maxContextDepth)
      (reads : c.getBool "Parallel"
        { p.world.heap with contexts := p.world.heap.contexts + places.length } = (.ok parallel, h))
      (new : ∀ s ∈ op.successor, s ∉ c.trail) :
      Dispatches r c op places p (c.childrenFrom p.world.heap.contexts places)
        (c.following op h.contexts)
        (p.worked { h with contexts := h.contexts + (c.following op h.contexts).length })

namespace Dispatches

theorem unhalted (hd : r.Dispatches c op places p children next q) : r.halts? p = none := by
  obtain ⟨hdue, -, -, -⟩ := hd
  exact hdue

theorem unhalted_after (hd : r.Dispatches c op places p children next q) : r.halts? q = none := by
  obtain ⟨hdue, -, -, -⟩ := hd
  rw [halts?_worked, hdue]

theorem leads (hd : r.Dispatches c op places p children next q) (hop : c.operator = .ok op)
    (hplaces : op.assigned? p.world.heap c.scope = some places)
    (hstack : below.length + 1 ≤ r.config.maxStackDepth) :
    ∃ parallel, r.Leads (.atomic c :: below) p [(c, q)]
      ((Operation.batch parallel (children.map .atomic)).toList ++ (next.map .atomic ++ below))
      q := by
  obtain @⟨h, parallel, hdue, hdepth, hread, hnew⟩ := hd
  refine ⟨parallel, ?_⟩
  have he : r.Enters c below.length p := ⟨hdue, hstack, hdepth⟩
  rw [← List.append_assoc]
  refine .of_work he hop (Operator.isBuiltIn_of_assigned hplaces) ?_
  rw [Operator.work_of_assigned hplaces, Act.bind_apply, Context.childrenOn_apply]
  dsimp only
  rw [Context.branches, Act.bind_apply, hread]
  exact Context.thenSuccessor_eq hop hnew _

/-- A processor that is executed is drained as its contexts, one after another,
and then its successor. -/
theorem ends_iff (hd : r.Dispatches c op places p children next q) (hop : c.operator = .ok op)
    (hplaces : op.assigned? p.world.heap c.scope = some places) (hroom : r.Roomy [.atomic c] p) :
    r.Ends none [.atomic c] p l ⟨.ended none, [], p'⟩ ↔ ∃ l₁ p₁ l₂,
      r.InTurn (children.map .atomic) q l₁ ⟨.ended none, [], p₁⟩ ∧
      r.InTurn (next.map .atomic) p₁ l₂ ⟨.ended none, [], p'⟩ ∧ l = (c, q) :: (l₁ ++ l₂) := by
  -- After the one deed of the processor itself, its batch lies on its successor.
  obtain ⟨parallel, hleads⟩ := hd.leads hop hplaces (hroom.le_bound (move_eq_perform.mpr ⟨hd.unhalted, rfl⟩))
  rw [List.append_nil] at hleads
  have hroom' := hleads.roomy hroom
  have hbatch : ∀ l p₁, r.Ends none (Operation.batch parallel (children.map .atomic)).toList q l
      ⟨.ended none, [], p₁⟩ ↔ r.InTurn (children.map .atomic) q l ⟨.ended none, [], p₁⟩ :=
    fun l p₁ => batch_dry_iff hd.unhalted_after hroom'.upper
  rw [hleads.ends]
  constructor
  · rintro ⟨l', rfl, hrest⟩
    obtain ⟨l₁, p₁, l₂, hdry, hnext, rfl⟩ := (ends_append_dry_iff hroom').mp hrest
    have hnext' := (ends_iff_inTurn (hroom'.below hdry)).mp hnext
    exact ⟨l₁, p₁, l₂, (hbatch l₁ p₁).mp hdry, hnext', rfl⟩
  · rintro ⟨l₁, p₁, l₂, hchildren, hnext, rfl⟩
    have hdry := (hbatch l₁ p₁).mpr hchildren
    have hnext' := (ends_iff_inTurn (hroom'.below hdry)).mpr hnext
    exact ⟨l₁ ++ l₂, rfl, (ends_append_dry_iff hroom').mpr ⟨l₁, p₁, l₂, hdry, hnext', rfl⟩⟩

theorem begins_iff (hd : r.Dispatches c op places p children next q) (hop : c.operator = .ok op)
    (hplaces : op.assigned? p.world.heap c.scope = some places) (hroom : r.Roomy [.atomic c] p)
    (huncut : r.Uncut (children.map .atomic) q) :
    r.Begins none [.atomic c] p l ↔ l = [] ∨ ∃ l', l = (c, q) :: l' ∧
      (r.InTurnBegins (children.map .atomic) q l' ∨ ∃ l₁ p₁ l₂,
        r.InTurn (children.map .atomic) q l₁ ⟨.ended none, [], p₁⟩ ∧
        r.InTurnBegins (next.map .atomic) p₁ l₂ ∧ l' = l₁ ++ l₂) := by
  obtain ⟨parallel, hleads⟩ := hd.leads hop hplaces (hroom.le_bound (move_eq_perform.mpr ⟨hd.unhalted, rfl⟩))
  rw [List.append_nil] at hleads
  have hroom' := hleads.roomy hroom
  rw [hleads.begins_iff]
  refine or_congr Iff.rfl (exists_congr fun l' => and_congr Iff.rfl ?_)
  rw [begins_append_iff hroom', batch_begins_iff hd.unhalted_after hroom'.upper huncut]
  refine or_congr Iff.rfl ?_
  constructor
  · intro ⟨l₁, p₁, l₂, hdry, hnext, hl⟩
    have hchildren := (batch_dry_iff hd.unhalted_after hroom'.upper).mp hdry
    exact ⟨l₁, p₁, l₂, hchildren, (begins_iff_inTurn (hroom'.below hdry)).mp hnext, hl⟩
  · intro ⟨l₁, p₁, l₂, hchildren, hnext, hl⟩
    have hdry := (batch_dry_iff hd.unhalted_after hroom'.upper).mpr hchildren
    exact ⟨l₁, p₁, l₂, hdry, (begins_iff_inTurn (hroom'.below hdry)).mpr hnext, hl⟩

end Dispatches

/-- What a drain does with a processor on top of its stack. -/
inductive DispatchStep (r : DrainSetting) (c : Context) (op : Operator)
    (places : List (OperatorId × ScopeId)) (height : Nat) (p : Progress) : Prop
  | halts {why : Halt} : r.halts? p = some why → DispatchStep r c op places height p
  | fails {e : Failure} {w : World} : r.halts? p = none →
      r.execute c height p.world = (.error e, w) → DispatchStep r c op places height p
  | dispatches {children next : List Context} {q : Progress} :
      r.Dispatches c op places p children next q → DispatchStep r c op places height p

theorem dispatchStep (hop : c.operator = .ok op)
    (hplaces : op.assigned? p.world.heap c.scope = some places) (height : Nat) :
    r.DispatchStep c op places height p := by
  cases r.workStep hop (Operator.isBuiltIn_of_assigned hplaces) height p with
  | halts hdue => exact .halts hdue
  | fails hdue hexecute _ => exact .fails hdue hexecute
  | works he hwork =>
    rw [Operator.work_of_assigned hplaces, Act.bind_apply, Context.childrenOn_apply] at hwork
    obtain ⟨parallel, h, hread, hnext⟩ := Act.bind_eq_ok hwork
    obtain ⟨succ, h₁, hsucc, -⟩ := Act.bind_eq_ok hnext
    have hnew := Context.successor_new hop hsucc
    exact .dispatches (.mk he.unhalted he.depth hread hnew)

/-! ## Whole processors -/

/-- A processor runs dry: it is executed, its contexts are drained to the end,
one after another, and then its successor is. -/
inductive Visits (r : DrainSetting) (c : Context) (op : Operator)
    (places : List (OperatorId × ScopeId)) (p : Progress) : List Deed → Progress → Prop
  | mk {children next : List Context} {q p₁ p' : Progress} {l₁ l₂ : List Deed} :
      r.Dispatches c op places p children next q →
      r.InTurn (children.map .atomic) q l₁ ⟨.ended none, [], p₁⟩ →
      r.InTurn (next.map .atomic) p₁ l₂ ⟨.ended none, [], p'⟩ →
      Visits r c op places p ((c, q) :: (l₁ ++ l₂)) p'

/-- The first deeds of a processor. -/
inductive VisitsBegin (r : DrainSetting) (c : Context) (op : Operator)
    (places : List (OperatorId × ScopeId)) (p : Progress) : List Deed → Prop
  | nothing : VisitsBegin r c op places p []
  | failure {e : Failure} {w : World} : r.halts? p = none →
      r.execute c 0 p.world = (.error e, w) → VisitsBegin r c op places p [(c, p.fall e w)]
  | children {children next : List Context} {q : Progress} {l : List Deed} :
      r.Dispatches c op places p children next q → r.InTurnBegins (children.map .atomic) q l →
      VisitsBegin r c op places p ((c, q) :: l)
  | next {children next : List Context} {q p₁ : Progress} {l₁ l₂ : List Deed} :
      r.Dispatches c op places p children next q →
      r.InTurn (children.map .atomic) q l₁ ⟨.ended none, [], p₁⟩ →
      r.InTurnBegins (next.map .atomic) p₁ l₂ →
      VisitsBegin r c op places p ((c, q) :: (l₁ ++ l₂))

theorem ends_processor_iff (hop : c.operator = .ok op)
    (hplaces : op.assigned? p.world.heap c.scope = some places) (hroom : r.Roomy [.atomic c] p) :
    r.Ends none [.atomic c] p l ⟨.ended none, [], p'⟩ ↔ r.Visits c op places p l p' := by
  constructor
  · intro hends
    cases r.dispatchStep hop hplaces ([] : List Operation).length with
    | halts hdue =>
      obtain ⟨-, hd⟩ := (ends_halt (move_eq_halt.mpr hdue)).mp hends
      cases hd
    | fails hdue hexecute =>
      obtain ⟨-, hd⟩ := (ends_error (move_eq_perform.mpr ⟨hdue, rfl⟩) hexecute).mp hends
      cases hd
    | dispatches hd =>
      obtain ⟨l₁, p₁, l₂, hchildren, hnext, rfl⟩ := (hd.ends_iff hop hplaces hroom).mp hends
      exact .mk hd hchildren hnext
  · intro hvisits
    cases hvisits with
    | mk hd hchildren hnext =>
      exact (hd.ends_iff hop hplaces hroom).mpr ⟨_, _, _, hchildren, hnext, rfl⟩

theorem begins_processor_iff (hop : c.operator = .ok op)
    (hplaces : op.assigned? p.world.heap c.scope = some places) (hroom : r.Roomy [.atomic c] p)
    (huncut : ∀ children next q, r.Dispatches c op places p children next q →
      r.Uncut (children.map .atomic) q) :
    r.Begins none [.atomic c] p l ↔ r.VisitsBegin c op places p l := by
  constructor
  · intro hbegins
    cases r.dispatchStep hop hplaces ([] : List Operation).length with
    | halts hdue =>
      rw [begins_halt (move_eq_halt.mpr hdue)] at hbegins
      exact hbegins ▸ .nothing
    | fails hdue hexecute =>
      rcases (begins_error_iff hdue hexecute).mp hbegins with rfl | rfl
      · exact .nothing
      · exact .failure hdue hexecute
    | @dispatches children next q hd =>
      have hbegins_iff := hd.begins_iff (l := l) hop hplaces hroom (huncut children next q hd)
      rcases hbegins_iff.mp hbegins with rfl |
        ⟨l', rfl, hchildren | ⟨l₁, p₁, l₂, hchildren, hnext, rfl⟩⟩
      · exact .nothing
      · exact .children hd hchildren
      · exact .next hd hchildren hnext
  · intro hvisits
    cases hvisits with
    | nothing => exact .nil
    | failure hdue hexecute => exact (begins_error_iff hdue hexecute).mpr (.inr rfl)
    | children hd hchildren =>
      refine (hd.begins_iff hop hplaces hroom (huncut _ _ _ hd)).mpr ?_
      exact .inr ⟨_, rfl, .inl hchildren⟩
    | next hd hchildren hnext =>
      refine (hd.begins_iff hop hplaces hroom (huncut _ _ _ hd)).mpr ?_
      exact .inr ⟨_, rfl, .inr ⟨_, _, _, hchildren, hnext, rfl⟩⟩

/-- What comes after a processor comes after its visits. -/
theorem after_processor_iff {After : Progress → List Deed → Prop} (hop : c.operator = .ok op)
    (hplaces : op.assigned? p.world.heap c.scope = some places) (hroom : r.Roomy [.atomic c] p) :
    (∃ l₁ p₁ l₂, r.Ends none [.atomic c] p l₁ ⟨.ended none, [], p₁⟩ ∧ After p₁ l₂ ∧
      l = l₁ ++ l₂) ↔
    ∃ l₁ p₁ l₂, r.Visits c op places p l₁ p₁ ∧ After p₁ l₂ ∧ l = l₁ ++ l₂ := by
  simp only [ends_processor_iff hop hplaces hroom]

/-- A processor with too few sub-scopes fails, and the world is as it was: not a
single context has been made. -/
theorem ends_shortage_iff {ids : List OperatorId} {d : Drained} (hop : c.operator = .ok op)
    (hkind : op.kind = .subScopes ids)
    (hfew : (p.world.heap.scope c.scope).children.length < ids.length)
    (he : r.Enters c below.length p) :
    r.Ends none (.atomic c :: below) p l d ↔
      l = [(c, p.fall (op.shortage ids p.world.heap c.scope) p.world)] ∧
      d = ⟨.failed (op.shortage ids p.world.heap c.scope), .atomic c :: below,
        p.fall (op.shortage ids p.world.heap c.scope) p.world⟩ := by
  have hwork : ∀ cancelled, op.work cancelled c p.world.heap =
      (.error (op.shortage ids p.world.heap c.scope), p.world.heap) := by
    intro cancelled
    unfold Operator.work
    rw [hkind]
    dsimp only
    rw [Context.runOnSubScopes, Act.bind_apply, Act.see_apply]
    dsimp only
    rw [if_pos hfew]
    rfl
  have hexecute : r.execute c below.length p.world =
      (.error (op.shortage ids p.world.heap c.scope), p.world) := by
    rw [he.execute hop (by rw [hkind]; rfl), World.onHeap_apply, hwork]
  exact ends_error (move_eq_perform.mpr ⟨he.unhalted, rfl⟩) hexecute

/-- **Sub-scopes.** A processor of sub-scopes, on top of any stack, runs what it
assigns, place by place: it schedules a context for each place, drains each with
all that it schedules before the next one starts, and then its successor. The
places are those on the heap when the processor is executed, whatever is done to
the tree from then on.

A uniform processor runs its operator on the scopes so many levels below, each
once, in the order of the tree: that is level by level, and that is in pre-order.
A processor with an operator for each sub-scope runs the first on the first, and
so on; it leaves alone those that are left over, and fails at once, scheduling
nothing, if there are too few. -/
theorem sub_scopes_visited (r : DrainSetting) (c : Context) (op : Operator)
    (hop : c.operator = .ok op) (below : List Operation) (p : Progress) :
    (∀ places, op.assigned? p.world.heap c.scope = some places → r.Roomy (.atomic c :: below) p →
      (∀ l d, r.Ends none (.atomic c :: below) p l d ↔
        (∃ l₁ p₁ l₂, r.Visits c op places p l₁ p₁ ∧ r.Ends none below p₁ l₂ d ∧ l = l₁ ++ l₂) ∨
        ∃ d₁, r.Ends none [.atomic c] p l d₁ ∧ d₁.stack ≠ [] ∧ d = d₁.above below) ∧
      ((∀ children next q, r.Dispatches c op places p children next q →
          r.Uncut (children.map .atomic) q) →
        ∀ l, r.Begins none (.atomic c :: below) p l ↔ r.VisitsBegin c op places p l ∨
          ∃ l₁ p₁ l₂, r.Visits c op places p l₁ p₁ ∧ r.Begins none below p₁ l₂ ∧ l = l₁ ++ l₂)) ∧
    (∀ id depth, op.kind = .uniformSubScopes (some id) depth → p.world.heap.Forest →
      c.scope.index < p.world.heap.scopes.size →
      ∃ ss, op.assigned? p.world.heap c.scope = some (ss.map fun s => (id, s)) ∧
        ss = ((p.world.heap.preorder c.scope).filter fun x => x.1 == depth).map Prod.snd ∧
        ss = p.world.heap.nextLevel^[depth] [c.scope] ∧ ss.Nodup ∧
        ∀ s, s ∈ ss ↔ p.world.heap.LevelsBelow depth c.scope s) ∧
    ∀ ids, op.kind = .subScopes ids →
      (ids.length ≤ (p.world.heap.scope c.scope).children.length →
        ∃ places, op.assigned? p.world.heap c.scope = some places ∧ places.map Prod.fst = ids ∧
          places.map Prod.snd = (p.world.heap.scope c.scope).children.take ids.length) ∧
      ((p.world.heap.scope c.scope).children.length < ids.length → r.Enters c below.length p →
        ∀ l d, r.Ends none (.atomic c :: below) p l d ↔
          l = [(c, p.fall (op.shortage ids p.world.heap c.scope) p.world)] ∧
          d = ⟨.failed (op.shortage ids p.world.heap c.scope), .atomic c :: below,
            p.fall (op.shortage ids p.world.heap c.scope) p.world⟩) := by
  refine ⟨fun places hplaces hroom => ?_, fun id depth hkind hforest hs => ?_, fun ids hkind => ?_⟩
  · have hroom' : r.Roomy ([.atomic c] ++ below) p := hroom
    refine ⟨fun l d => ?_, fun huncut l => ?_⟩
    · exact (ends_append_iff hroom').trans
        (or_congr (after_processor_iff hop hplaces hroom'.upper) Iff.rfl)
    · exact (begins_append_iff hroom').trans
        (or_congr (begins_processor_iff hop hplaces hroom'.upper huncut)
          (after_processor_iff hop hplaces hroom'.upper))
  · refine ⟨p.world.heap.scopesAtDepth depth c.scope, ?_,
      hforest.scopesAtDepth_eq_preorder depth hs, Heap.scopesAtDepth_eq_nextLevel ..,
      hforest.scopesAtDepth_nodup depth c.scope, fun s => Heap.mem_scopesAtDepth_iff⟩
    rw [Operator.assigned?, hkind]
  · refine ⟨fun henough => ?_, fun hfew he l d => ends_shortage_iff hop hkind hfew he⟩
    refine ⟨ids.zip (p.world.heap.scope c.scope).children, ?_, List.map_fst_zip henough, ?_⟩
    · rw [Operator.assigned?, hkind]
      exact if_neg (Nat.not_lt.mpr henough)
    · rw [List.zip_eq_zip_take_min, Nat.min_eq_left henough, List.take_length]
      exact List.map_snd_zip (by rw [List.length_take]; omega)

end DrainSetting

namespace Sample

/-- A processor of the scopes two levels down, side by side. -/
def growingOperator : Operator :=
  ⟨"Uniform", ⟨[{ Parameter.lookup "Parallel" .bool with fixed := some ⟨0⟩ }]⟩, some ⟨2⟩,
    .uniformSubScopes (some ⟨1⟩) 2⟩

/-- The processor, the operator that it runs, which adds a sub-scope, and one
after it that does nothing. The fixed values are the first two items. -/
def growingGraph : SharedGraph :=
  ⟨⟨0⟩, ⟨"Growing", .empty,
    #[growingOperator,
      ⟨"Grow", ⟨[{ Parameter.lookup "NumberOfSubScopes" .int with fixed := some ⟨1⟩ }]⟩, none,
        .subScopesCreator⟩,
      ⟨"After", .empty, none, .empty⟩], some ⟨0⟩⟩⟩

/-- The processor at the start of a run, on the last of five scopes. -/
def growingContext : Context := .frame ⟨1⟩ ⟨0⟩ ⟨4⟩ [⟨0⟩] (.root ⟨0⟩ growingGraph ⟨4⟩)

/-- A scope in a scope, a copy of both, and a scope for these two trees. -/
def twinGrove : World :=
  ((ScopeOp.create "Global").run ((ScopeOp.copy ⟨0⟩).run grove).2).2

/-- Both trees in the last scope. -/
def plantation : World :=
  ((ScopeOp.append ⟨4⟩ ⟨2⟩).run ((ScopeOp.append ⟨4⟩ ⟨0⟩).run twinGrove).2).2

/-- The same with the fixed values. -/
def growingWorld : World :=
  { plantation with
    heap := { plantation.heap with items := #[.bool true, .int 1], contexts := 2 } }

theorem growingWorld_built : growingWorld.Built := by
  have hempty : World.empty.Built := .start rfl
  have hclearing : clearing.Built :=
    (hempty.step (.create "a") ⟨nofun, nofun⟩).step (.create "b") ⟨nofun, nofun⟩
  have hgrove : grove.Built := hclearing.step (.append ⟨0⟩ ⟨1⟩) ⟨by decide, nofun⟩
  have htwin : twinGrove.Built :=
    (hgrove.step (.copy ⟨0⟩) ⟨by decide, nofun⟩).step (.create "Global") ⟨nofun, nofun⟩
  have hplantation : plantation.Built :=
    (htwin.step (.append ⟨4⟩ ⟨0⟩) ⟨by decide, nofun⟩).step (.append ⟨4⟩ ⟨2⟩) ⟨by decide, nofun⟩
  exact hplantation.aside rfl (by decide)

/-- On top of one more operation, under the standard bounds, the processor visits
the two scopes, and there is room for it. -/
theorem sub_scopes_visited_growing :
    growingContext.operator = .ok growingOperator ∧
      (DrainSetting.mk .standard ⟨0⟩).Roomy [.atomic growingContext, idling 9]
        ⟨growingWorld, 0, false⟩ ∧
      (growingWorld.heap.Forest ∧ growingWorld.heap.nextLevel^[2] [⟨4⟩] = [⟨1⟩, ⟨3⟩]) ∧
      ∃ l₁ p₁ l₂ d,
        (DrainSetting.mk .standard ⟨0⟩).Visits growingContext growingOperator
          [(⟨1⟩, ⟨1⟩), (⟨1⟩, ⟨3⟩)] ⟨growingWorld, 0, false⟩ l₁ p₁ ∧
        (DrainSetting.mk .standard ⟨0⟩).Ends none [idling 9] p₁ l₂ d ∧
        (l₁ ++ l₂).length = 5 := by
  let r : DrainSetting := ⟨.standard, ⟨0⟩⟩
  have hop : growingContext.operator = .ok growingOperator := rfl
  have hends : ∃ l d, r.Ends none [.atomic growingContext, idling 9] ⟨growingWorld, 0, false⟩ l d ∧
      d.outcome = .ended none ∧ d.stack = [] ∧ l.length = 5 := ⟨_, _, ⟨20, rfl, rfl⟩, rfl, rfl, rfl⟩
  obtain ⟨l, d, hends, ho, hs, hlength⟩ := hends
  have hroom := hends.roomy ho
  have hforest : growingWorld.heap.Forest := growingWorld_built.forest
  obtain ⟨hvisited, huniform, -⟩ := DrainSetting.sub_scopes_visited r growingContext growingOperator
    hop [idling 9] ⟨growingWorld, 0, false⟩
  obtain ⟨ss, hplaces, -, hlevels, -⟩ := huniform ⟨1⟩ 2 rfl hforest (by decide)
  have hss : growingWorld.heap.nextLevel^[2] [⟨4⟩] = [⟨1⟩, ⟨3⟩] := by decide
  obtain rfl : ss = [⟨1⟩, ⟨3⟩] := hlevels.trans hss
  refine ⟨hop, hroom, ⟨hforest, hss⟩, ?_⟩
  rcases ((hvisited _ hplaces hroom).1 l d).mp hends with
    ⟨l₁, p₁, l₂, hvisits, hbelow, rfl⟩ | ⟨d₁, -, hne, rfl⟩
  · exact ⟨l₁, p₁, l₂, d, hvisits, hbelow, hlength⟩
  · exact absurd (List.append_eq_nil_iff.mp hs).1 hne

end Sample

end ScopeFlow
