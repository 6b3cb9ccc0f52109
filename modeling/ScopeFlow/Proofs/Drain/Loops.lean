import ScopeFlow.Proofs.Drain.Composites

/-!
# Loops

A loop is run by scheduling itself: it reads `Terminate`, and unless that holds
it answers its body, its terminator and itself once more. Nothing of a round is
left on the stack when the loop comes up again, so a loop is a while loop that
takes no more room in its last round than in its first.

* `DrainSetting.GoesRound` and `DrainSetting.Finishes` are the two ways in
  which a loop is executed, each followed by its lemma on what the drain leads
  to;
* `DrainSetting.Rounds` is any number of rounds one after another, with what
  stays the same all along (`Rounds.binds`, `Rounds.leads`);
* `DrainSetting.loop_iterates`: by strong induction on the deeds of a drain,
  each round being at least one of them.
-/

namespace ScopeFlow

/-- A loop of a graph, under its number. -/
structure LoopOperator where
  id : OperatorId
  op : Operator
  body : Option OperatorId
  terminator : Option OperatorId
  kind : op.kind = .loop body terminator

/-- A context that binds a loop. -/
structure Context.Binds (c : Context) (loop : LoopOperator) : Prop where
  operatorId? : c.operatorId? = some loop.id
  operator : c.operator = .ok loop.op

namespace LoopOperator

variable {loop : LoopOperator} {c : Context} {h h' : Heap}

/-- What one round runs, and where: the body and then the terminator, as far as
there are any, on the scope of the loop. -/
def places (loop : LoopOperator) (c : Context) : List (OperatorId × ScopeId) :=
  (loop.body.toList ++ loop.terminator.toList).map fun id => (id, c.scope)

/-- The contexts of one round, numbered from `n` on. -/
def round (loop : LoopOperator) (c : Context) (n : Nat) : List Context :=
  c.childrenFrom n (loop.places c)

/-- The loop once more. -/
def again (loop : LoopOperator) (c : Context) (n : Nat) : Context :=
  c.sibling loop.id [loop.id] ⟨n⟩

theorem isBuiltIn (loop : LoopOperator) : loop.op.kind.isBuiltIn = true := by
  rw [loop.kind]
  rfl

theorem work_eq (loop : LoopOperator) (cancelled : Bool) (c : Context) :
    loop.op.work cancelled c = c.runLoop loop.body loop.terminator := by
  unfold Operator.work
  rw [loop.kind]

end LoopOperator

/-- Two contexts at the same place: under the same frame and on the same scope. -/
structure Context.SamePlace (c c' : Context) : Prop where
  depth : c'.depth = c.depth
  parent : c'.parent? = c.parent?
  scope : c'.scope = c.scope

namespace Context.SamePlace

variable {c c' c'' : Context}

theorem refl : c.SamePlace c := ⟨rfl, rfl, rfl⟩

theorem trans (h : c.SamePlace c') (h' : c'.SamePlace c'') : c.SamePlace c'' :=
  ⟨h'.depth.trans h.depth, h'.parent.trans h.parent, h'.scope.trans h.scope⟩

theorem sibling (c : Context) (id : OperatorId) (trail : List OperatorId) (n : ContextId) :
    c.SamePlace (c.sibling id trail n) :=
  ⟨sibling_depth .., sibling_parent? .., sibling_scope ..⟩

end Context.SamePlace

namespace Context.Binds

variable {loop : LoopOperator} {c : Context} {h h' : Heap}

theorem again (hc : c.Binds loop) (n : Nat) : (loop.again c n).Binds loop := by
  obtain ⟨id, own, s, trail, parent, rfl⟩ := ne_root_of_operator hc.operator
  obtain rfl : own = loop.id := Option.some.inj hc.operatorId?
  exact ⟨rfl, hc.operator⟩

theorem again_trail (hc : c.Binds loop) (n : Nat) : (loop.again c n).trail = [loop.id] := by
  obtain ⟨id, own, s, trail, parent, rfl⟩ := ne_root_of_operator hc.operator
  rfl

/-- A loop that is not done answers its round and itself. -/
theorem work_again (hc : c.Binds loop) (cancelled : Bool)
    (hread : c.getBool "Terminate" h = (.ok false, h')) :
    loop.op.work cancelled c h =
      (.ok (Operation.inSequence ((loop.round c h'.contexts).map .atomic ++
        [.atomic (loop.again c (h'.contexts + (loop.places c).length))])),
        { h' with contexts := h'.contexts + (loop.places c).length + 1 }) := by
  have hround : c.childrenHere (loop.body.toList ++ loop.terminator.toList) h' =
      (.ok ((loop.round c h'.contexts).map .atomic),
        { h' with contexts := h'.contexts + (loop.places c).length }) :=
    childrenOn_apply c (loop.places c) h'
  rw [loop.work_eq, runLoop, Act.bind_apply, hread]
  dsimp only
  rw [if_neg Bool.false_ne_true, Act.bind_apply, hround]
  dsimp only
  rw [reenter, hc.operatorId?]
  rfl

/-- A loop that is done answers its successor. -/
theorem work_done (hc : c.Binds loop) (cancelled : Bool)
    (hread : c.getBool "Terminate" h = (.ok true, h'))
    (hnew : ∀ s ∈ loop.op.successor, s ∉ c.trail) :
    loop.op.work cancelled c h =
      (.ok (Operation.inSequence ((c.following loop.op h'.contexts).map .atomic)),
        { h' with contexts := h'.contexts + (c.following loop.op h'.contexts).length }) := by
  rw [loop.work_eq, runLoop, Act.bind_apply, hread]
  exact successor_eq hc.operator hnew

end Context.Binds

namespace DrainSetting

/-! ## The bounds -/

/-- Has a drain run into a bound, that on the stack or that on the nesting of
contexts? -/
def Bounced (r : DrainSetting) (o : Outcome) : Prop :=
  r.Overflow o ∨ ∃ operator, o = .failed (.graphCycle operator
    ("execution contexts nested deeper than " ++ toString r.config.maxContextDepth))

/-- The drain of a stack runs into no bound. -/
def Fits (r : DrainSetting) (stack : List Operation) (p : Progress) : Prop :=
  ∀ l d, r.Ends none stack p l d → ¬ r.Bounced d.outcome

/-- The same of operations on top of so many others, which are idle here. -/
def FitsAbove (r : DrainSetting) (height : Nat) (ops : List Operation) (p : Progress) : Prop :=
  r.Fits (ops ++ List.replicate height (.sequence [])) p

variable {r : DrainSetting} {loop : LoopOperator} {c c' : Context} {p p' q : Progress}
  {ops below : List Operation} {again : Context} {l : List Deed}

theorem Fits.roomy {stack : List Operation} (h : r.Fits stack p) : r.Roomy stack p :=
  fun l d hd hover => h l d hd (.inl hover)

theorem not_bounced_ended (halt : Option Halt) : ¬ r.Bounced (.ended halt) := by
  rintro (⟨operator, ho⟩ | ⟨operator, ho⟩) <;> cases ho

/-- A failure of another kind is not for the bounds. -/
theorem not_bounced {e : Failure} (he : ∀ operator reason, e = .graphCycle operator reason →
    reason = "successor chain revisits this operator") : ¬ r.Bounced (.failed e) := by
  -- The three texts begin with different letters.
  rintro (⟨operator, ho⟩ | ⟨operator, ho⟩)
  · have htext := he operator _ (Outcome.failed.inj ho)
    have hfirst := congrArg (fun s : String => s.toList.head?) htext
    simp [String.toList_append] at hfirst
  · have htext := he operator _ (Outcome.failed.inj ho)
    have hfirst := congrArg (fun s : String => s.toList.head?) htext
    simp [String.toList_append] at hfirst

/-! ## One execution -/

/-- A loop is executed and is not done: it answers these operations, and itself
after them. -/
inductive GoesRound (r : DrainSetting) (loop : LoopOperator) (c : Context) (p : Progress) :
    List Operation → Context → Progress → Prop
  | mk {h : Heap} (unhalted : r.halts? p = none) (depth : c.depth ≤ r.config.maxContextDepth)
      (reads : c.getBool "Terminate" p.world.heap = (.ok false, h)) :
      GoesRound r loop c p ((loop.round c h.contexts).map .atomic)
        (loop.again c (h.contexts + (loop.places c).length))
        (p.worked { h with contexts := h.contexts + (loop.places c).length + 1 })

/-- A loop is executed and is done: it answers its successor, if it has one. -/
inductive Finishes (r : DrainSetting) (loop : LoopOperator) (c : Context) (p : Progress) :
    List Operation → Progress → Prop
  | mk {h : Heap} (unhalted : r.halts? p = none) (depth : c.depth ≤ r.config.maxContextDepth)
      (reads : c.getBool "Terminate" p.world.heap = (.ok true, h))
      (new : ∀ s ∈ loop.op.successor, s ∉ c.trail) :
      Finishes r loop c p ((c.following loop.op h.contexts).map .atomic)
        (p.worked { h with contexts := h.contexts + (c.following loop.op h.contexts).length })

theorem GoesRound.unhalted (hg : r.GoesRound loop c p ops again q) : r.halts? p = none := by
  obtain ⟨unhalted, -, -⟩ := hg
  exact unhalted

theorem GoesRound.again_eq (hg : r.GoesRound loop c p ops again q) :
    ∃ n, again = loop.again c n := by
  obtain ⟨-, -, -⟩ := hg
  exact ⟨_, rfl⟩

theorem Finishes.unhalted (hf : r.Finishes loop c p ops q) : r.halts? p = none := by
  obtain ⟨unhalted, -, -, -⟩ := hf
  exact unhalted

theorem GoesRound.leads (hg : r.GoesRound loop c p ops again q) (hc : c.Binds loop)
    (hstack : below.length + 1 ≤ r.config.maxStackDepth) :
    r.Leads (.atomic c :: below) p [(c, q)] (ops ++ .atomic again :: below) q := by
  obtain ⟨unhalted, depth, reads⟩ := hg
  have he : r.Enters c below.length p := ⟨unhalted, hstack, depth⟩
  have hleads := Leads.of_work he hc.operator loop.isBuiltIn (hc.work_again _ reads)
  rwa [List.append_assoc] at hleads

theorem Finishes.leads (hf : r.Finishes loop c p ops q) (hc : c.Binds loop)
    (hstack : below.length + 1 ≤ r.config.maxStackDepth) :
    r.Leads (.atomic c :: below) p [(c, q)] (ops ++ below) q := by
  obtain ⟨unhalted, depth, reads, new⟩ := hf
  have he : r.Enters c below.length p := ⟨unhalted, hstack, depth⟩
  exact .of_work he hc.operator loop.isBuiltIn (hc.work_done _ reads new)

/-- What the execution of a loop fails with is not for the bounds. -/
theorem not_bounced_of_work (hc : c.Binds loop) {cancelled : Bool} {h h' : Heap} {e : Failure}
    (hwork : loop.op.work cancelled c h = (.error e, h')) : ¬ r.Bounced (.failed e) := by
  refine not_bounced fun operator reason he => ?_
  subst he
  rw [loop.work_eq, Context.runLoop, Act.bind_apply] at hwork
  rcases hbool : c.getBool "Terminate" h with ⟨e | finished, h₁⟩
  · rw [hbool] at hwork
    obtain rfl : e = .graphCycle operator reason := Except.error.inj (Prod.mk.inj hwork).1
    exact absurd (congrArg Prod.fst hbool) Context.typed_ne_graphCycle
  · rw [hbool] at hwork
    cases finished with
    | true => exact Context.successor_graphCycle hc.operator (congrArg Prod.fst hwork)
    | false =>
      have hagain := hc.work_again cancelled hbool
      rw [loop.work_eq, Context.runLoop, Act.bind_apply, hbool] at hagain
      cases hwork.symm.trans hagain

/-- What a drain does with a loop on top of its stack. -/
inductive LoopStep (r : DrainSetting) (loop : LoopOperator) (c : Context) (below : List Operation)
    (p : Progress) : Prop
  | halts {why : Halt} : r.halts? p = some why → LoopStep r loop c below p
  | round {ops : List Operation} {again : Context} {q : Progress} :
      r.GoesRound loop c p ops again q →
      r.Leads (.atomic c :: below) p [(c, q)] (ops ++ .atomic again :: below) q →
      LoopStep r loop c below p
  | end {ops : List Operation} {q : Progress} : r.Finishes loop c p ops q →
      r.Leads (.atomic c :: below) p [(c, q)] (ops ++ below) q → LoopStep r loop c below p
  | fails {e : Failure} {w : World} : r.halts? p = none →
      r.execute c below.length p.world = (.error e, w) →
      (below.length + 1 ≤ r.config.maxStackDepth → c.depth ≤ r.config.maxContextDepth →
        ¬ r.Bounced (.failed e)) → LoopStep r loop c below p

theorem loopStep (hc : c.Binds loop) (below : List Operation) (p : Progress) :
    r.LoopStep loop c below p := by
  cases r.workStep hc.operator loop.isBuiltIn below.length p with
  | halts hdue => exact .halts hdue
  | fails hdue hexecute hwork =>
    refine .fails hdue hexecute fun hstack hdepth => ?_
    obtain ⟨h, hwork⟩ := hwork ⟨hdue, hstack, hdepth⟩
    exact not_bounced_of_work hc hwork
  | works he hwork =>
    -- What succeeds has read `Terminate` and come by either answer.
    rw [loop.work_eq] at hwork
    obtain ⟨finished, h, hread, hnext⟩ := Act.bind_eq_ok hwork
    cases finished with
    | false =>
      have hg : r.GoesRound loop c p _ _ _ := .mk he.unhalted he.depth hread
      exact .round hg (hg.leads hc he.stack)
    | true =>
      have hnew := Context.successor_new hc.operator hnext
      have hf : r.Finishes loop c p _ _ := .mk he.unhalted he.depth hread hnew
      exact .end hf (hf.leads hc he.stack)

/-! ## Rounds -/

/-- One round of a loop, all that it schedules included: the loop is executed
and is not done, and then its body and its terminator are drained to the end.
The loop comes up again in another context. -/
inductive Round (r : DrainSetting) (loop : LoopOperator) (c : Context) (p : Progress) :
    List Deed → Context → Progress → Prop
  | mk {ops : List Operation} {again : Context} {q p' : Progress} {l : List Deed} :
      r.GoesRound loop c p ops again q → r.InTurn ops q l ⟨.ended none, [], p'⟩ →
      Round r loop c p ((c, q) :: l) again p'

/-- Rounds one after another. -/
inductive Rounds (r : DrainSetting) (loop : LoopOperator) :
    Context → Progress → List Deed → Context → Progress → Prop
  | done (c : Context) (p : Progress) : Rounds r loop c p [] c p
  | more {c c' c'' : Context} {p p' p'' : Progress} {l l' : List Deed} :
      r.Round loop c p l c' p' → Rounds r loop c' p' l' c'' p'' →
      Rounds r loop c p (l ++ l') c'' p''

/-- The end of a loop: it is executed and is done, and then its successor is
drained to the end. -/
inductive Leaves (r : DrainSetting) (loop : LoopOperator) (c : Context) (p : Progress) :
    List Deed → Progress → Prop
  | mk {ops : List Operation} {q p' : Progress} {l : List Deed} :
      r.Finishes loop c p ops q → r.InTurn ops q l ⟨.ended none, [], p'⟩ →
      Leaves r loop c p ((c, q) :: l) p'

/-- The first deeds of a loop up to the end of its round, or of what follows it. -/
inductive TakesUp (r : DrainSetting) (loop : LoopOperator) (c : Context) (p : Progress) :
    List Deed → Prop
  | nothing : TakesUp r loop c p []
  | round {ops : List Operation} {again : Context} {q : Progress} {l : List Deed} :
      r.GoesRound loop c p ops again q → r.InTurnBegins ops q l → TakesUp r loop c p ((c, q) :: l)
  | end {ops : List Operation} {q : Progress} {l : List Deed} :
      r.Finishes loop c p ops q → r.InTurnBegins ops q l → TakesUp r loop c p ((c, q) :: l)
  | failure {e : Failure} {w : World} : r.halts? p = none →
      r.execute c 0 p.world = (.error e, w) → TakesUp r loop c p [(c, p.fall e w)]

namespace Round

theorem again_eq (hr : r.Round loop c p l c' p') : ∃ n, c' = loop.again c n := by
  obtain ⟨hg, -⟩ := hr
  exact hg.again_eq

/-- After a round the stack is what it was, with the loop on top. -/
theorem leads (hr : r.Round loop c p l c' p') (hc : c.Binds loop)
    (hroom : r.Roomy (.atomic c :: below) p) :
    r.Leads (.atomic c :: below) p l (.atomic c' :: below) p' := by
  obtain @⟨ops, again, q, p', l, hg, hturn⟩ := hr
  have hround := hg.leads hc (hroom.le_bound (move_eq_perform.mpr ⟨hg.unhalted, rfl⟩))
  have hroom' := hround.roomy hroom
  exact hround.trans (.of_dry hroom' ((ends_iff_inTurn hroom'.upper).mpr hturn))

end Round

namespace Rounds

/-- All along, the loop stays where it is in the tree of contexts and on its
scope, and its trail is that of a chain which has just begun. -/
theorem binds (hr : r.Rounds loop c p l c' p') (hc : c.Binds loop) :
    c'.Binds loop ∧ c.SamePlace c' ∧ (c' = c ∨ c'.trail = [loop.id]) := by
  induction hr with
  | done c p => exact ⟨hc, .refl, .inl rfl⟩
  | @more c c₁ c₂ p p₁ p₂ l l' hround hrounds ih =>
    obtain ⟨n, rfl⟩ := hround.again_eq
    obtain ⟨hc₂, hplace, htrail⟩ := ih (hc.again n)
    have hagain : c.SamePlace (loop.again c n) := .sibling c loop.id [loop.id] ⟨n⟩
    refine ⟨hc₂, hagain.trans hplace, .inr ?_⟩
    rcases htrail with rfl | htrail
    · exact hc.again_trail n
    · exact htrail

theorem leads (hr : r.Rounds loop c p l c' p') (hc : c.Binds loop)
    (hroom : r.Roomy (.atomic c :: below) p) :
    r.Leads (.atomic c :: below) p l (.atomic c' :: below) p' := by
  induction hr with
  | done c p => exact .refl
  | @more c c₁ c₂ p p₁ p₂ l l' hround hrounds ih =>
    have hfirst := hround.leads hc hroom
    obtain ⟨n, rfl⟩ := hround.again_eq
    exact hfirst.trans (ih (hc.again n) (hfirst.roomy hroom))

end Rounds

theorem Leaves.leads (hl : r.Leaves loop c p l p') (hc : c.Binds loop)
    (hroom : r.Roomy (.atomic c :: below) p) : r.Leads (.atomic c :: below) p l below p' := by
  obtain @⟨ops, q, p', l, hf, hturn⟩ := hl
  have hend := hf.leads hc (hroom.le_bound (move_eq_perform.mpr ⟨hf.unhalted, rfl⟩))
  have hroom' := hend.roomy hroom
  exact hend.trans (.of_dry hroom' ((ends_iff_inTurn hroom'.upper).mpr hturn))

theorem TakesUp.begins (ht : r.TakesUp loop c p l) (hc : c.Binds loop)
    (hroom : r.Roomy [.atomic c] p) : r.Begins none [.atomic c] p l := by
  have hstack : r.halts? p = none → ([] : List Operation).length + 1 ≤ r.config.maxStackDepth :=
    fun hdue => hroom.le_bound (move_eq_perform.mpr ⟨hdue, rfl⟩)
  cases ht with
  | nothing => exact .nil
  | round hg hturn =>
    have hround := hg.leads hc (hstack hg.unhalted)
    have hroom' := hround.roomy hroom
    refine (hround.begins _).mpr (.inr ⟨_, rfl, (begins_append_iff hroom').mpr (.inl ?_)⟩)
    exact (begins_iff_inTurn hroom'.upper).mpr hturn
  | «end» hf hturn =>
    have hend := hf.leads hc (hstack hf.unhalted)
    have hroom' := hend.roomy hroom
    refine (hend.begins _).mpr (.inr ⟨_, rfl, (begins_append_iff hroom').mpr (.inl ?_)⟩)
    exact (begins_iff_inTurn hroom'.upper).mpr hturn
  | failure hdue hexecute => exact (begins_error_iff hdue hexecute).mpr (.inr rfl)

/-! ## Whole loops -/

/-- A loop that runs dry has gone round so often, and has then been left. -/
theorem rounds_of_ends (hc : c.Binds loop) (hroom : r.Roomy [.atomic c] p)
    (hends : r.Ends none [.atomic c] p l ⟨.ended none, [], p'⟩) :
    ∃ l₁ c' p₁ l₂, r.Rounds loop c p l₁ c' p₁ ∧ r.Leaves loop c' p₁ l₂ p' ∧ l = l₁ ++ l₂ := by
  -- Every round is at least the one deed of the loop itself.
  induction hlength : l.length using Nat.strong_induction_on generalizing l c p with
  | _ n ih =>
    subst hlength
    cases loopStep (r := r) hc [] p with
    | halts hdue =>
      obtain ⟨-, hd⟩ := (ends_halt (move_eq_halt.mpr hdue)).mp hends
      cases hd
    | fails hdue hexecute _ =>
      obtain ⟨-, hd⟩ := (ends_error (move_eq_perform.mpr ⟨hdue, rfl⟩) hexecute).mp hends
      cases hd
    | @«end» ops q hf hend =>
      have hroom' := hend.roomy hroom
      obtain ⟨l', rfl, hrest⟩ := (hend.ends _ _).mp hends
      rw [List.append_nil] at hrest
      exact ⟨[], c, p, _, .done c p, ⟨hf, (ends_iff_inTurn hroom'.upper).mp hrest⟩, rfl⟩
    | @round ops again q hg hround =>
      have hroom' := hround.roomy hroom
      obtain ⟨l', rfl, hrest⟩ := (hround.ends _ _).mp hends
      obtain ⟨l₁, p₁, l₂, hops, hagain, rfl⟩ := (ends_append_dry_iff hroom').mp hrest
      obtain ⟨k, rfl⟩ := hg.again_eq
      have hshorter : l₂.length < ([(c, q)] ++ (l₁ ++ l₂)).length := by
        rw [List.length_append, List.length_append, List.length_singleton]
        omega
      obtain ⟨l₃, c', p₂, l₄, hrounds, hleaves, rfl⟩ :=
        ih l₂.length hshorter (hc.again k) (hroom'.below hops) hagain rfl
      have hturn := (ends_iff_inTurn hroom'.upper).mp hops
      exact ⟨(c, q) :: l₁ ++ l₃, c', p₂, l₄, .more ⟨hg, hturn⟩ hrounds, hleaves, by simp⟩

/-- The drain of a loop runs dry if it goes round some times and is then left. -/
theorem ends_loop_iff (hc : c.Binds loop) (hroom : r.Roomy [.atomic c] p) :
    r.Ends none [.atomic c] p l ⟨.ended none, [], p'⟩ ↔
      ∃ l₁ c' p₁ l₂, r.Rounds loop c p l₁ c' p₁ ∧ r.Leaves loop c' p₁ l₂ p' ∧ l = l₁ ++ l₂ := by
  constructor
  · exact rounds_of_ends hc hroom
  · intro ⟨l₁, c', p₁, l₂, hrounds, hleaves, hl⟩
    have hfirst := hrounds.leads hc hroom
    have hlast := hleaves.leads (hrounds.binds hc).1 (hfirst.roomy hroom)
    refine ((hfirst.trans hlast).ends l _).mpr ⟨[], ?_, ends_nil.mpr ⟨rfl, rfl⟩⟩
    rw [List.append_nil, hl]

/-- What comes after a loop comes after its rounds and its end. -/
theorem after_loop_iff {After : Progress → List Deed → Prop} (hc : c.Binds loop)
    (hroom : r.Roomy [.atomic c] p) :
    (∃ l₁ p₁ l₂, r.Ends none [.atomic c] p l₁ ⟨.ended none, [], p₁⟩ ∧ After p₁ l₂ ∧
      l = l₁ ++ l₂) ↔
    ∃ l₁ c' p₁ l₂ p₂ l₃, r.Rounds loop c p l₁ c' p₁ ∧ r.Leaves loop c' p₁ l₂ p₂ ∧ After p₂ l₃ ∧
      l = l₁ ++ l₂ ++ l₃ := by
  constructor
  · intro ⟨l₁, p₁, l₂, hloop, hafter, hl⟩
    obtain ⟨l₃, c', p₂, l₄, hrounds, hleaves, rfl⟩ := (ends_loop_iff hc hroom).mp hloop
    exact ⟨l₃, c', p₂, l₄, p₁, l₂, hrounds, hleaves, hafter, hl⟩
  · intro ⟨l₁, c', p₁, l₂, p₂, l₃, hrounds, hleaves, hafter, hl⟩
    have hloop := (ends_loop_iff hc hroom).mpr ⟨l₁, c', p₁, l₂, hrounds, hleaves, rfl⟩
    exact ⟨l₁ ++ l₂, p₂, l₃, hloop, hafter, hl⟩

/-- The first deeds of a loop are rounds, and then a beginning. -/
theorem rounds_of_begins (hc : c.Binds loop) (hroom : r.Roomy [.atomic c] p)
    (hbegins : r.Begins none [.atomic c] p l) :
    ∃ l₁ c' p₁ l₂, r.Rounds loop c p l₁ c' p₁ ∧ r.TakesUp loop c' p₁ l₂ ∧ l = l₁ ++ l₂ := by
  induction hlength : l.length using Nat.strong_induction_on generalizing l c p with
  | _ n ih =>
    subst hlength
    cases loopStep (r := r) hc [] p with
    | halts hdue =>
      rw [begins_halt (move_eq_halt.mpr hdue)] at hbegins
      exact ⟨[], c, p, l, .done c p, hbegins ▸ .nothing, rfl⟩
    | fails hdue hexecute _ =>
      refine ⟨[], c, p, l, .done c p, ?_, rfl⟩
      rcases (begins_error_iff hdue hexecute).mp hbegins with rfl | rfl
      · exact .nothing
      · exact .failure hdue hexecute
    | @«end» ops q hf hend =>
      have hroom' := hend.roomy hroom
      rw [List.append_nil] at hend hroom'
      refine ⟨[], c, p, l, .done c p, ?_, rfl⟩
      rcases hend.begins_iff.mp hbegins with rfl | ⟨l', rfl, hrest⟩
      · exact .nothing
      · exact .end hf ((begins_iff_inTurn hroom').mp hrest)
    | @round ops again q hg hround =>
      have hroom' := hround.roomy hroom
      rcases hround.begins_iff.mp hbegins with rfl | ⟨l', rfl, hrest⟩
      · exact ⟨[], c, p, [], .done c p, .nothing, rfl⟩
      · rcases (begins_append_iff hroom').mp hrest with hops | ⟨l₁, p₁, l₂, hops, hagain, rfl⟩
        · exact ⟨[], c, p, (c, q) :: l', .done c p,
            .round hg ((begins_iff_inTurn hroom'.upper).mp hops), rfl⟩
        · obtain ⟨k, rfl⟩ := hg.again_eq
          have hshorter : l₂.length < ((c, q) :: (l₁ ++ l₂)).length := by
            rw [List.length_cons, List.length_append]
            omega
          obtain ⟨l₃, c', p₂, l₄, hrounds, htakes, rfl⟩ :=
            ih l₂.length hshorter (hc.again k) (hroom'.below hops) hagain rfl
          have hturn := (ends_iff_inTurn hroom'.upper).mp hops
          exact ⟨(c, q) :: l₁ ++ l₃, c', p₂, l₄, .more ⟨hg, hturn⟩ hrounds, htakes, by simp⟩

theorem begins_loop_iff (hc : c.Binds loop) (hroom : r.Roomy [.atomic c] p) :
    r.Begins none [.atomic c] p l ↔
      ∃ l₁ c' p₁ l₂, r.Rounds loop c p l₁ c' p₁ ∧ r.TakesUp loop c' p₁ l₂ ∧ l = l₁ ++ l₂ := by
  constructor
  · exact rounds_of_begins hc hroom
  · intro ⟨l₁, c', p₁, l₂, hrounds, htakes, hl⟩
    have hfirst := hrounds.leads hc hroom
    exact (hfirst.begins l).mpr (.inr ⟨l₂, hl,
      htakes.begins (hrounds.binds hc).1 (hfirst.roomy hroom)⟩)

/-! ## Room for any number of rounds -/

/-- What a part of a stack fits above, it also fits above anything else of the
same height, as far as the part itself goes. -/
theorem FitsAbove.part {upper : List Operation} {d : Drained}
    (hfits : r.FitsAbove below.length upper p)
    (hends : r.Ends none (upper ++ below) p l d) :
    (∃ l₁ p₁ l₂, r.Ends none upper p l₁ ⟨.ended none, [], p₁⟩ ∧ r.Ends none below p₁ l₂ d ∧
      l = l₁ ++ l₂) ∨ ¬ r.Bounced d.outcome := by
  rcases (ends_on_floor_iff List.length_replicate hfits.roomy).mp hends with hdry |
    ⟨d₁, hupper, hs, rfl⟩
  · exact .inl hdry
  · right
    have hidle := (ends_append_iff hfits.roomy).mpr (.inr ⟨d₁, hupper, hs, rfl⟩)
    exact hfits l (d₁.above (List.replicate below.length (.sequence []))) hidle

theorem fits_idle (height : Nat) : r.Fits (List.replicate height (.sequence [])) p := by
  induction height with
  | zero =>
    intro l d hends
    obtain ⟨-, rfl⟩ := ends_nil.mp hends
    exact not_bounced_ended none
  | succ height ih =>
    intro l d hends
    rw [List.replicate_succ] at hends
    cases hdue : r.halts? p with
    | some why =>
      obtain ⟨-, rfl⟩ := (ends_halt (move_eq_halt.mpr hdue)).mp hends
      exact not_bounced_ended (some why)
    | none =>
      have hm : r.move none (.sequence []) p = .unpack [] := by rw [move, hdue]
      exact ih l d ((ends_unpack hm).mp hends)

theorem Fits.above {upper : List Operation} (hfits : r.Fits (upper ++ below) p) :
    r.FitsAbove below.length upper p := by
  intro l d hends
  rcases (ends_on_floor_iff List.length_replicate.symm hfits.roomy).mp hends with
    ⟨l₁, p₁, l₂, -, hidle, -⟩ | ⟨d₁, hupper, hs, rfl⟩
  · exact fits_idle below.length l₂ d hidle
  · have hwhole := (ends_append_iff hfits.roomy).mpr (.inr ⟨d₁, hupper, hs, rfl⟩)
    exact hfits l (d₁.above below) hwhole

theorem Leads.fits {stack stack' : List Operation} (h : r.Leads stack p l stack' p')
    (hfits : r.Fits stack p) : r.Fits stack' p' :=
  fun l' d hd => hfits (l ++ l') d ((h.ends _ _).mpr ⟨l', rfl, hd⟩)

/-- Where the bounds hold of the loop itself, of every round and of what comes
after the last, they hold of the loop, however often it goes round. -/
theorem loop_fits (hc : c.Binds loop) (hstack : below.length + 1 ≤ r.config.maxStackDepth)
    (hdepth : c.depth ≤ r.config.maxContextDepth)
    (hrounds : ∀ l c' p' ops again q, r.Rounds loop c p l c' p' →
      r.GoesRound loop c' p' ops again q → r.FitsAbove (below.length + 1) ops q)
    (hend : ∀ l c' p' ops q, r.Rounds loop c p l c' p' → r.Finishes loop c' p' ops q →
      r.Fits (ops ++ below) q) : r.Fits (.atomic c :: below) p := by
  intro l d hends
  induction hlength : l.length using Nat.strong_induction_on generalizing l c p with
  | _ n ih =>
    subst hlength
    cases loopStep (r := r) hc below p with
    | halts hdue =>
      obtain ⟨-, rfl⟩ := (ends_halt (move_eq_halt.mpr hdue)).mp hends
      exact not_bounced_ended _
    | fails hdue hexecute hfails =>
      obtain ⟨-, rfl⟩ := (ends_error (move_eq_perform.mpr ⟨hdue, rfl⟩) hexecute).mp hends
      exact hfails hstack hdepth
    | @«end» ops q hf hleads =>
      obtain ⟨l', rfl, hrest⟩ := (hleads.ends _ _).mp hends
      exact hend [] c p ops q (.done c p) hf l' d hrest
    | @round ops again q hg hleads =>
      have hfits : r.FitsAbove (Operation.atomic again :: below).length ops q :=
        hrounds [] c p ops again q (.done c p) hg
      obtain ⟨l', rfl, hrest⟩ := (hleads.ends _ _).mp hends
      rcases hfits.part hrest with ⟨l₁, p₁, l₂, hops, hagain, rfl⟩ | hcut
      · have hround : r.Round loop c p ((c, q) :: l₁) again p₁ :=
          ⟨hg, (ends_iff_inTurn hfits.roomy.upper).mp hops⟩
        obtain ⟨k, rfl⟩ := hg.again_eq
        have hshorter : l₂.length < ([(c, q)] ++ (l₁ ++ l₂)).length := by
          rw [List.length_append, List.length_append, List.length_singleton]
          omega
        refine ih l₂.length hshorter (hc.again k) ?_ (fun l c' p' ops again q hr => ?_)
          (fun l c' p' ops q hr => ?_) l₂ hagain rfl
        · rwa [LoopOperator.again, Context.sibling_depth]
        · exact hrounds _ c' p' ops again q (.more hround hr)
        · exact hend _ c' p' ops q (.more hround hr)
      · exact hcut

/-- Whether there is room for a loop is seen round by round. -/
theorem fits_loop_iff (hc : c.Binds loop) (hstack : below.length + 1 ≤ r.config.maxStackDepth)
    (hdepth : c.depth ≤ r.config.maxContextDepth) : r.Fits (.atomic c :: below) p ↔
      (∀ l c' p' ops again q, r.Rounds loop c p l c' p' → r.GoesRound loop c' p' ops again q →
        r.FitsAbove (below.length + 1) ops q) ∧
      ∀ l c' p' ops q, r.Rounds loop c p l c' p' → r.Finishes loop c' p' ops q →
        r.Fits (ops ++ below) q := by
  constructor
  · intro hfits
    -- A drain that runs into no bound does not do so from any round on.
    have hat : ∀ {l c' p'}, r.Rounds loop c p l c' p' →
        c'.Binds loop ∧ r.Fits (.atomic c' :: below) p' := fun hr =>
      ⟨(hr.binds hc).1, (hr.leads hc hfits.roomy).fits hfits⟩
    refine ⟨fun l c' p' ops again q hr hg => ?_, fun l c' p' ops q hr hf => ?_⟩
    · obtain ⟨hc', hfits'⟩ := hat hr
      have hround := (hg.leads hc' hstack).fits hfits'
      exact hround.above
    · obtain ⟨hc', hfits'⟩ := hat hr
      exact (hf.leads hc' hstack).fits hfits'
  · intro ⟨hrounds, hend⟩
    exact loop_fits hc hstack hdepth hrounds hend

/-- **Loops.** A loop on top of a stack is a while loop in constant space. Its
drain goes round: it reads `Terminate`, and while that is false drains its body
and then its terminator, as far as it has them, each with all that it schedules;
once `Terminate` reads true it drains its successor, and then the stack. If it is
halted or fails on the way, the stack is left below what remains; if it goes
round for ever, so do its deeds.

At the beginning of every round the stack is what it was, with the loop on top,
whose context has the depth, the parent and the scope that it had at first, and
a trail of itself alone. So there is room for the loop, however often it goes
round, if and only if there is room for every round above the loop and the stack,
and for what comes after the last. -/
theorem loop_iterates (r : DrainSetting) (loop : LoopOperator) (c : Context)
    (hc : c.Binds loop) (below : List Operation) (p : Progress) :
    (r.Roomy (.atomic c :: below) p →
      (∀ l d, r.Ends none (.atomic c :: below) p l d ↔
        (∃ l₁ c' p₁ l₂ p₂ l₃, r.Rounds loop c p l₁ c' p₁ ∧ r.Leaves loop c' p₁ l₂ p₂ ∧
          r.Ends none below p₂ l₃ d ∧ l = l₁ ++ l₂ ++ l₃) ∨
        ∃ d₁, r.Ends none [.atomic c] p l d₁ ∧ d₁.stack ≠ [] ∧ d = d₁.above below) ∧
      (∀ l, r.Begins none (.atomic c :: below) p l ↔
        (∃ l₁ c' p₁ l₂, r.Rounds loop c p l₁ c' p₁ ∧ r.TakesUp loop c' p₁ l₂ ∧ l = l₁ ++ l₂) ∨
        ∃ l₁ c' p₁ l₂ p₂ l₃, r.Rounds loop c p l₁ c' p₁ ∧ r.Leaves loop c' p₁ l₂ p₂ ∧
          r.Begins none below p₂ l₃ ∧ l = l₁ ++ l₂ ++ l₃) ∧
      ∀ l c' p', r.Rounds loop c p l c' p' →
        r.Leads (.atomic c :: below) p l (.atomic c' :: below) p') ∧
    (∀ l c' p', r.Rounds loop c p l c' p' →
      c'.Binds loop ∧ c.SamePlace c' ∧ (c' = c ∨ c'.trail = [loop.id])) ∧
    (below.length + 1 ≤ r.config.maxStackDepth → c.depth ≤ r.config.maxContextDepth →
      (r.Fits (.atomic c :: below) p ↔
        (∀ l c' p' ops again q, r.Rounds loop c p l c' p' → r.GoesRound loop c' p' ops again q →
          r.FitsAbove (below.length + 1) ops q) ∧
        ∀ l c' p' ops q, r.Rounds loop c p l c' p' → r.Finishes loop c' p' ops q →
          r.Fits (ops ++ below) q)) := by
  refine ⟨fun hroom => ?_, fun l c' p' hrounds => hrounds.binds hc, fits_loop_iff hc⟩
  have hroom' : r.Roomy ([.atomic c] ++ below) p := hroom
  refine ⟨fun l d => ?_, fun l => ?_, fun l c' p' hrounds => hrounds.leads hc hroom⟩
  · exact (ends_append_iff hroom').trans (or_congr (after_loop_iff hc hroom'.upper) Iff.rfl)
  · exact (begins_append_iff hroom').trans
      (or_congr (begins_loop_iff hc hroom'.upper) (after_loop_iff hc hroom'.upper))

end DrainSetting

namespace Sample

/-- A loop with a body that does nothing and a terminator that assigns the first
item, a value that is true, to `Terminate`, whose default is the second; then an
operator that does nothing. -/
def onceGraph : SharedGraph :=
  ⟨⟨0⟩, ⟨"Once", .empty,
    #[⟨"Loop", ⟨[{ Parameter.lookup "Terminate" .bool with default := some ⟨1⟩ }]⟩, some ⟨3⟩,
        .loop (some ⟨1⟩) (some ⟨2⟩)⟩,
      ⟨"Idle", .empty, none, .empty⟩,
      ⟨"Stop", ⟨[{ Parameter.lookup "Left" .any with actual := "Terminate" },
        { Parameter.lookup "Right" .any with fixed := some ⟨0⟩ }]⟩, none, .assigner⟩,
      ⟨"After", .empty, none, .empty⟩], some ⟨0⟩⟩⟩

/-- The loop of this graph. -/
def onceLoop : LoopOperator where
  id := ⟨0⟩
  op := ⟨"Loop", ⟨[{ Parameter.lookup "Terminate" .bool with default := some ⟨1⟩ }]⟩, some ⟨3⟩,
    .loop (some ⟨1⟩) (some ⟨2⟩)⟩
  body := some ⟨1⟩
  terminator := some ⟨2⟩
  kind := rfl

/-- The loop at the start of a run. -/
def onceContext : Context := .frame ⟨1⟩ ⟨0⟩ ⟨0⟩ [⟨0⟩] (.root ⟨0⟩ onceGraph ⟨0⟩)

/-- A world with the two values and one scope without variables. -/
def onceWorld : World :=
  { World.empty with
    heap := ⟨#[.bool true, .bool false], #[⟨"Global", .empty, [], none⟩], 2, 1⟩ }

/-- The loop on top of one more operation, under the standard bounds: it is left
after it has gone round, and there is room for every round. -/
theorem loop_iterates_once :
    onceContext.Binds onceLoop ∧
      (DrainSetting.mk .standard ⟨0⟩).Fits [.atomic onceContext, idling 3] ⟨onceWorld, 0, false⟩ ∧
      (∃ l₁ c' p₁ l₂ p₂ l₃ d,
        (DrainSetting.mk .standard ⟨0⟩).Rounds onceLoop onceContext ⟨onceWorld, 0, false⟩ l₁ c' p₁ ∧
        (DrainSetting.mk .standard ⟨0⟩).Leaves onceLoop c' p₁ l₂ p₂ ∧
        (DrainSetting.mk .standard ⟨0⟩).Ends none [idling 3] p₂ l₃ d ∧
        (l₁ ++ l₂ ++ l₃).length = 6) ∧
      ∀ l c' p' ops again q,
        (DrainSetting.mk .standard ⟨0⟩).Rounds onceLoop onceContext ⟨onceWorld, 0, false⟩ l c' p' →
        (DrainSetting.mk .standard ⟨0⟩).GoesRound onceLoop c' p' ops again q →
        (DrainSetting.mk .standard ⟨0⟩).FitsAbove 2 ops q := by
  let r : DrainSetting := ⟨.standard, ⟨0⟩⟩
  have hbinds : onceContext.Binds onceLoop := ⟨rfl, rfl⟩
  have hends : ∃ l d, r.Ends none [.atomic onceContext, idling 3] ⟨onceWorld, 0, false⟩ l d ∧
      d.outcome = .ended none ∧ d.stack = [] ∧ l.length = 6 := ⟨_, _, ⟨20, rfl, rfl⟩, rfl, rfl, rfl⟩
  obtain ⟨l, d, hends, ho, hs, hlength⟩ := hends
  have hfits : r.Fits [.atomic onceContext, idling 3] ⟨onceWorld, 0, false⟩ := by
    intro l' d' h
    rw [← (hends.unique h).2, ho]
    exact DrainSetting.not_bounced_ended none
  obtain ⟨hiterates, -, hfits_iff⟩ :=
    DrainSetting.loop_iterates r onceLoop onceContext hbinds [idling 3] ⟨onceWorld, 0, false⟩
  refine ⟨hbinds, hfits, ?_, ((hfits_iff (by decide) (by decide)).mp hfits).1⟩
  rcases ((hiterates hfits.roomy).1 l d).mp hends with
    ⟨l₁, c', p₁, l₂, p₂, l₃, hrounds, hleaves, hbelow, rfl⟩ | ⟨d₁, -, hne, rfl⟩
  · exact ⟨l₁, c', p₁, l₂, p₂, l₃, d, hrounds, hleaves, hbelow, hlength⟩
  · exact absurd (List.append_eq_nil_iff.mp hs).1 hne

end Sample

end ScopeFlow
