import ScopeFlow.Proofs.Clone.Roots
import ScopeFlow.Proofs.Operator.BuiltIn
import ScopeFlow.Proofs.Operator.Scheduled
import ScopeFlow.Proofs.Operator.Tasks

/-!
# References at run time

A graph that passes its check has every operator that its own operators,
declarations and initial operator refer to. Operators also come from
variables, where a placeholder picks them up. As long as the variables of a
region hold no others, built-in operators put none there that the graph does
not have, schedule nothing that it does not have, and do not fail over one
(`Context.execute_known`).
-/

namespace ScopeFlow

/-- Is the value, where it is an operator, one of the graph? -/
def Value.Known (g : Graph) (v : Value) : Prop := ∀ id, v.operator? = some id → g.has id = true

/-- A failure over an operator that the graph does not have, or over none
where one should be bound. -/
def Failure.Stray : Failure → Prop
  | unknownOperator _ => True
  | operatorFailed _ text =>
    text = "the graph frame binds no operator" ∨ text = "cannot re-enter the graph frame"
  | _ => False

/-- A message that shows a difference somewhere is another one. -/
theorem Failure.not_stray {name text : String} (f : List Char → Option Char)
    (hframe : f text.toList ≠ f "the graph frame binds no operator".toList)
    (hagain : f text.toList ≠ f "cannot re-enter the graph frame".toList) :
    ¬ (operatorFailed name text).Stray := by
  rintro (h | h)
  · exact hframe (h ▸ rfl)
  · exact hagain (h ▸ rfl)

namespace Graph

variable {g : Graph} {h : Heap}

/-- The operators that a graph is built from refer to one another only. -/
structure Closed (g : Graph) : Prop where
  initial : ∀ {id}, g.initial = some id → g.has id = true
  successor : ∀ {op id}, op ∈ g.operators → op.successor = some id → g.has id = true
  child : ∀ {op id}, op ∈ g.operators → id ∈ op.kind.children → g.has id = true

/-- What the check of a graph says. -/
theorem closed_of_validate (hvalid : g.validate h = .ok ()) :
    g.Closed ∧ ∀ i ∈ g.held, (h.value i).Known g := by
  have hall := validate_eq_ok_iff.mp hvalid
  have hoperator : ∀ {op : Operator}, op ∈ g.operators → ∀ id ∈ op.references h, g.has id = true := by
    intro op hop id hid
    refine hall id (List.mem_append_left _ (List.mem_append_right _ ?_))
    exact List.mem_flatMap.mpr ⟨op, Array.mem_toList_iff.mpr hop, hid⟩
  have hheld : ∀ {items : List ItemId} {i : ItemId}, i ∈ items →
      (∀ id ∈ h.operatorsIn items, g.has id = true) → (h.value i).Known g := by
    intro items i hi hknown id hid
    exact hknown id (List.mem_filterMap.mpr ⟨i, hi, hid⟩)
  refine ⟨⟨fun {id} hid => ?_, fun {op id} hop hid => ?_, fun {op id} hop hid => ?_⟩, fun i hi => ?_⟩
  · refine hall id (List.mem_append_left _ (List.mem_append_left _ ?_))
    rw [hid]
    exact List.mem_singleton_self id
  · refine hoperator hop id (List.mem_append_left _ (List.mem_append_left _ ?_))
    rw [hid]
    exact List.mem_singleton_self id
  · exact hoperator hop id (List.mem_append_left _ (List.mem_append_right _ hid))
  · rcases List.mem_append.mp hi with hi | hi
    · exact hheld hi fun id hid => hall id (List.mem_append_right _ hid)
    · obtain ⟨op, hop, hi⟩ := List.mem_flatMap.mp hi
      refine hheld hi fun id hid => ?_
      exact hoperator (Array.mem_toList_iff.mp hop) id (List.mem_append_right _ hid)

end Graph

namespace Context

/-- A context of a run under a graph frame: the operators that its frames bind
and have on their trails are the graph's, and only the graph frame binds none. -/
structure Known (c root : Context) : Prop where
  graph : c.graph = root.graph
  own : c.operatorId? ≠ none
  frame : ∀ f ∈ c.chain, ∀ id, f.operatorId? = some id → root.graph.graph.has id = true
  trail : ∀ f ∈ c.chain, ∀ id ∈ f.trail, root.graph.graph.has id = true
  top : ∀ f ∈ c.chain, f.operatorId? = none → f = root

/-- Such a context that searches scopes of a region only. -/
structure KnownIn (c root : Context) (R : ScopeId → Prop) : Prop extends c.Known root where
  scopes : ∀ t ∈ c.scopeChain, R t

end Context

/-! ## Names -/

/-- The items that a frame ends its part of a resolution with are some of those
listed. -/
def FrameEnd.HeldIn (items : List ItemId) : FrameEnd → Prop
  | fixed value => value ∈ items
  | circle _ => True
  | above w => ∀ i ∈ w.default, i ∈ items

/-- What a resolution comes to: items of declarations, or a failure over no
operator. -/
def Resolution.HeldIn (items : List ItemId) : Except Failure Resolution → Prop
  | .ok (fixed value _) => value ∈ items
  | .ok («variable» _ default _) => ∀ i ∈ default, i ∈ items
  | .error e => ¬ e.Stray

theorem followFrame_held {ps : Parameters} {items : List ItemId} (hps : ∀ i ∈ ps.held, i ∈ items)
    (left : Nat) : ∀ (seen : List String) {w : Passage}, (∀ i ∈ w.default, i ∈ items) →
      (followFrame ps left seen w).HeldIn items := by
  have hheld : ∀ {name : String} {p : Parameter}, ps.get? name = some p → ∀ i ∈ p.held, i ∈ items :=
    fun hget i hi => hps i (List.mem_flatMap.mpr ⟨_, List.mem_of_find?_eq_some hget, hi⟩)
  induction left with
  | zero =>
      intro seen w hw
      unfold followFrame
      cases ps.get? w.current with
      | none => exact hw
      | some p => exact trivial
  | succ left ih =>
      intro seen w hw
      unfold followFrame
      cases hget : ps.get? w.current with
      | none => exact hw
      | some p =>
          have hmeet : ∀ i ∈ (w.meet p).default, i ∈ items := by
            intro i hi
            rcases hd : w.default with _ | j
            · refine hheld hget i (List.mem_append_left _ ?_)
              simpa [Passage.meet, hd] using hi
            · refine hw i ?_
              simpa [Passage.meet, hd] using hi
          dsimp only
          split
          · exact trivial
          · split
            · next value hfixed =>
              refine hheld hget value (List.mem_append_right _ ?_)
              rw [hfixed]
              exact List.mem_singleton_self value
            · split
              · exact hmeet
              · exact ih _ hmeet

/-- What an operator's declarations hold, its graph's do. -/
theorem Graph.held_of_get {g : Graph} {id : OperatorId} {op : Operator} (h : g.get id = .ok op) :
    ∀ i ∈ op.parameters.held, i ∈ g.held := fun _ hi =>
  List.mem_append_right _
    (List.mem_flatMap.mpr ⟨op, Array.mem_toList_iff.mpr (mem_of_get h), hi⟩)

namespace Context

/-- Following names up a chain of frames comes to items of the graph's
declarations only. -/
theorem follow_ok_held {g : Graph} {parameter : String} {type : ValueType} (ctx : Context) :
    ∀ {w : Passage} {r : Resolution}, (∀ i ∈ w.default, i ∈ g.held) →
      ctx.follow g parameter type w = .ok r → Resolution.HeldIn g.held (.ok r) := by
  induction ctx with
  | root id g' s =>
      intro w r hw hr
      have hps : ∀ i ∈ g.parameters.held, i ∈ g.held := fun i hi => List.mem_append_left _ hi
      have hend := followFrame_held hps w.left [] hw
      unfold follow at hr
      cases hframe : followFrame g.parameters w.left [] w with
      | fixed value =>
          rw [hframe] at hend hr
          cases hr
          exact hend
      | circle names => rw [hframe] at hr; cases hr
      | above w' =>
          rw [hframe] at hend hr
          cases hr
          exact hend
  | frame id own s trail p ih =>
      intro w r hw hr
      unfold follow at hr
      cases hop : g.get own with
      | error e => rw [hop] at hr; cases hr
      | ok op =>
          have hend := followFrame_held (Graph.held_of_get hop) w.left [] hw
          rw [hop] at hr
          dsimp only at hr
          cases hframe : followFrame op.parameters w.left [] w with
          | fixed value =>
              rw [hframe] at hend hr
              cases hr
              exact hend
          | circle names => rw [hframe] at hr; cases hr
          | above w' =>
              rw [hframe] at hend hr
              exact ih hend hr

/-- A chain of known frames fails over no operator. -/
theorem follow_not_stray {g : Graph} {parameter : String} {type : ValueType} (ctx : Context)
    (hframes : ∀ f ∈ ctx.chain, ∀ id, f.operatorId? = some id → g.has id = true) :
    ∀ {w : Passage} {e : Failure}, ctx.follow g parameter type w = .error e → ¬ e.Stray := by
  induction ctx with
  | root id g' s =>
      intro w e he
      unfold follow at he
      split at he <;> cases he
      exact not_false
  | frame id own s trail p ih =>
      intro w e he
      obtain ⟨op, hop⟩ := Option.isSome_iff_exists.mp (hframes _ List.mem_cons_self own rfl)
      unfold follow Graph.get at he
      rw [hop] at he
      dsimp only at he
      split at he
      · cases he
      · cases he
        exact not_false
      · exact ih (fun f hf => hframes f (List.mem_cons_of_mem _ hf)) he

/-- Both together. -/
theorem follow_held {g : Graph} (parameter : String) (type : ValueType) (ctx : Context)
    (hframes : ∀ f ∈ ctx.chain, ∀ id, f.operatorId? = some id → g.has id = true) {w : Passage}
    (hw : ∀ i ∈ w.default, i ∈ g.held) :
    Resolution.HeldIn g.held (ctx.follow g parameter type w) := by
  cases hr : ctx.follow g parameter type w with
  | ok r => exact ctx.follow_ok_held hw hr
  | error e => exact ctx.follow_not_stray hframes hr

/-! ## Access -/

variable {root ctx : Context} {R : ScopeId → Prop} {h : Heap} {parameter name : String}
  {op : Operator} {α : Type}

/-- The variables of the region, and the declarations, hold known operators. -/
abbrev Grounds (root : Context) (R : ScopeId → Prop) (h : Heap) : Prop :=
  h.HoldsOnly (Value.Known root.graph.graph) R root.graph.graph.held

/-- An act that keeps them known and does not stray. -/
abbrev Steady (root : Context) (R : ScopeId → Prop) (P : α → Heap → Prop) (x : Act Heap α)
    (h : Heap) : Prop :=
  x.Upholds (root.Grounds R) (fun e => ¬ e.Stray) P h

theorem resolve_held (hctx : ctx.KnownIn root R) (parameter : String) :
    Resolution.HeldIn root.graph.graph.held (ctx.resolve parameter) := by
  obtain ⟨id, hid⟩ := Option.ne_none_iff_exists'.mp hctx.own
  have hhas := hctx.frame ctx ctx.self_mem_chain id hid
  obtain ⟨op, hop⟩ := Option.isSome_iff_exists.mp hhas
  unfold resolve parameters
  rw [hid, hctx.graph]
  dsimp only [Graph.get]
  rw [hop]
  dsimp only [Except.map]
  cases op.parameters.get? parameter with
  | none => exact not_false
  | some p =>
      refine follow_held parameter p.type ctx hctx.frame fun i hi => ?_
      cases hi

/-- A resolution as the first part of an act. -/
theorem resolve_steady (hctx : ctx.KnownIn root R) (hh : root.Grounds R h) (parameter : String) :
    root.Steady R (fun r h' => Resolution.HeldIn root.graph.graph.held (.ok r) ∧ h = h')
      (Act.ofExcept (ctx.resolve parameter)) h := by
  have hheld := resolve_held hctx parameter
  refine .ofExcept hh (fun r hr => ⟨?_, rfl⟩) fun e he => ?_
  · rw [hr] at hheld
    exact hheld
  · rw [he] at hheld
    exact hheld

theorem checkType_tame {type : ValueType} {i : ItemId} {e : Failure}
    (he : h.checkType parameter type i = .error e) : ¬ e.Stray := by
  unfold Heap.checkType at he
  dsimp only at he
  split at he
  · cases he
  · cases he
    exact not_false

theorem detached_steady (hh : root.Grounds R h) (type : ValueType) {i : ItemId}
    (hi : i ∈ root.graph.graph.held) :
    root.Steady R (fun j h' => (h'.value j).Known root.graph.graph) (detached parameter type i) h := by
  refine .bind (P := fun _ h' => h = h') (.look hh (fun _ _ => rfl) fun e => checkType_tame) ?_
  rintro _ _ - rfl
  refine .change (hh.newItem (hh.held hi)) ?_
  show ((h.newItem (h.value i)).2.value ⟨h.items.size⟩).Known root.graph.graph
  rw [Heap.value_newItem_self]
  exact hh.held hi

/-- A variable that is found has a known value. -/
theorem known_of_find? (hctx : ctx.KnownIn root R) (hh : root.Grounds R h) {s : ScopeId} {i : ItemId}
    (hfind : ctx.find? h name = some (s, i)) : (h.value i).Known root.graph.graph := by
  obtain ⟨hs, hbound⟩ := binding_of_findIn hfind
  exact hh.bound (hctx.scopes s hs) (Bindings.mem_of_lookup hbound)

theorem get_steady (hctx : ctx.KnownIn root R) (hh : root.Grounds R h) (parameter : String) :
    root.Steady R (fun i h' => (h'.value i).Known root.graph.graph) (ctx.get parameter) h := by
  refine .bind (resolve_steady hctx hh parameter) ?_
  rintro r _ - ⟨hheld, rfl⟩
  cases r with
  | fixed value type => exact detached_steady hh type hheld
  | «variable» name default type =>
      refine .bind (P := fun found h' => ctx.find? h name = found ∧ h = h') (.see hh ⟨rfl, rfl⟩) ?_
      rintro found _ - ⟨hfound, rfl⟩
      rcases found with _ | ⟨s, i⟩
      · cases default with
        | none => exact .fail hh not_false
        | some value => exact detached_steady hh type (hheld value rfl)
      · refine .bind (P := fun _ h' => h = h') (.look hh (fun _ _ => rfl) fun e => checkType_tame) ?_
        rintro _ _ - rfl
        exact .pure hh (known_of_find? hctx hh hfound)

theorem getOptional_steady (hctx : ctx.KnownIn root R) (hh : root.Grounds R h) (parameter : String) :
    root.Steady R (fun _ _ => True) (ctx.getOptional parameter) h := by
  refine .bind (get_steady hctx hh parameter).attempt ?_
  rintro r h' hh' ⟨-, herror⟩
  split
  · exact .pure hh' trivial
  · exact .pure hh' trivial
  · exact .fail hh' (herror _ rfl)

theorem getVariable_steady (hctx : ctx.KnownIn root R) (hh : root.Grounds R h) (parameter : String) :
    root.Steady R (fun _ _ => True) (ctx.getVariable parameter) h := by
  refine .bind (resolve_steady hctx hh parameter) ?_
  rintro r h hh -
  cases r with
  | fixed value type => exact .pure hh trivial
  | «variable» name default type =>
      refine .bind (P := fun _ _ => True) (.see hh trivial) ?_
      rintro found h hh -
      rcases found with _ | ⟨s, i⟩
      · exact .pure hh trivial
      · refine .bind (P := fun _ _ => True)
          (.look hh (fun _ _ => trivial) fun e => checkType_tame) ?_
        exact fun _ h hh _ => .pure hh trivial

theorem value_steady (hctx : ctx.KnownIn root R) (hh : root.Grounds R h) (parameter : String) :
    root.Steady R (fun v _ => v.Known root.graph.graph) (ctx.value parameter) h :=
  .bind (get_steady hctx hh parameter) fun _ _ hh' hi => .see hh' hi

/-- What is read as of a type is read off a known value. -/
theorem typed_steady (hctx : ctx.KnownIn root R) (hh : root.Grounds R h) (type : ValueType)
    (as? : Value → Option α) :
    root.Steady R (fun a _ => ∃ v : Value, v.Known root.graph.graph ∧ as? v = some a)
      (ctx.typed parameter type as?) h := by
  refine .bind (value_steady hctx hh parameter) fun v h' hh' hv => ?_
  cases hread : as? v with
  | none => exact .fail hh' not_false
  | some a => exact .pure hh' ⟨v, hv, hread⟩

/-- What is only asked for leaves nothing to say of the answer. -/
theorem read_steady (hctx : ctx.KnownIn root R) (hh : root.Grounds R h) (type : ValueType)
    (as? : Value → Option α) : root.Steady R (fun _ _ => True) (ctx.typed parameter type as?) h :=
  (typed_steady hctx hh type as?).mono fun _ _ _ => trivial

theorem setItem_steady (hctx : ctx.KnownIn root R) (hh : root.Grounds R h) (parameter : String)
    {i : ItemId} (hi : (h.value i).Known root.graph.graph) :
    root.Steady R (fun _ _ => True) (ctx.setItem parameter i) h := by
  refine .bind (resolve_steady hctx hh parameter) ?_
  rintro r _ - ⟨-, rfl⟩
  cases r with
  | fixed value type => exact .fail hh not_false
  | «variable» name default type =>
      refine .bind (P := fun _ h' => h = h') (.look hh (fun _ _ => rfl) fun e => checkType_tame) ?_
      rintro _ _ - rfl
      exact .modify (hh.bindVariable _ name hi) trivial

/-- A fresh item with a known value, bound through a parameter. -/
theorem setFresh_steady (hctx : ctx.KnownIn root R) (hh : root.Grounds R h) {v : Heap → Value}
    (hv : (v h).Known root.graph.graph) :
    root.Steady R (fun _ _ => True)
      (Act.change (fun h => h.newItem (v h)) >>= ctx.setItem parameter) h := by
  refine .bind (P := fun i h' => (h'.value i).Known root.graph.graph)
    (.change (hh.newItem hv) ?_) fun i h' hh' hi => setItem_steady hctx hh' parameter hi
  rw [show (h.newItem (v h)).1 = ⟨h.items.size⟩ from rfl, Heap.value_newItem_self]
  exact hv

theorem set_steady (hctx : ctx.KnownIn root R) (hh : root.Grounds R h) {v : Value}
    (hv : v.Known root.graph.graph) :
    root.Steady R (fun _ _ => True) (ctx.set parameter v) h :=
  setFresh_steady (v := fun _ => v) hctx hh hv

/-! ## Leaves -/

/-- Values that are no operators are known. -/
theorem known_of_none {g : Graph} {v : Value} (hv : v.operator? = none) : v.Known g := by
  intro id hid
  rw [hv] at hid
  cases hid

theorem assign_steady (hctx : ctx.KnownIn root R) (hh : root.Grounds R h) :
    root.Steady R (fun _ _ => True) ctx.assign h :=
  .bind (get_steady hctx hh "Right") fun right _ hh' hright =>
    setFresh_steady (v := fun h => h.value right) hctx hh' hright

theorem count_steady (hctx : ctx.KnownIn root R) (hh : root.Grounds R h) :
    root.Steady R (fun _ _ => True) ctx.count h := by
  refine .bind (read_steady hctx hh .int Value.int?) fun increment h hh _ => ?_
  refine .bind (getVariable_steady hctx hh "Value") fun found h hh _ => ?_
  cases found with
  | some i => exact .modify (hh.setValue (known_of_none rfl)) trivial
  | none =>
      refine .bind (getOptional_steady hctx hh "Value") fun default h hh _ => ?_
      refine .bind (P := fun _ _ => True) (.see hh trivial) fun start h hh _ => ?_
      exact set_steady hctx hh (known_of_none rfl)

theorem compare_steady (hctx : ctx.KnownIn root R) (hh : root.Grounds R h) (name : String)
    (relation : Comparison) : root.Steady R (fun _ _ => True) (ctx.compare name relation) h := by
  refine .bind (value_steady hctx hh "Left") fun left h hh _ => ?_
  refine .bind (value_steady hctx hh "Right") fun right h hh _ => ?_
  split
  · exact set_steady hctx hh (known_of_none rfl)
  · exact .fail hh (Failure.not_stray (fun l => l[7]?) (by simp) (by simp))

theorem createVariables_steady (hctx : ctx.KnownIn root R) (hh : root.Grounds R h)
    (ps : List Parameter) : root.Steady R (fun _ _ => True) (ctx.createVariables ps) h := by
  induction ps generalizing h with
  | nil => exact .pure hh trivial
  | cons p rest ih =>
      refine .bind (resolve_steady hctx hh p.name) ?_
      rintro r h hh ⟨hheld, -⟩
      cases r with
      | fixed value type => exact ih hh
      | «variable» name default type =>
          cases default with
          | none => exact ih hh
          | some initial =>
              have hinitial := hh.held (hheld initial rfl)
              refine .bind (P := fun _ _ => True) (.modify ?_ trivial) fun _ h hh _ => ih hh
              split
              · exact hh
              · refine (hh.newItem hinitial).bindVariable _ _ ?_
                show ((h.newItem (h.value initial)).2.value ⟨h.items.size⟩).Known _
                rw [Heap.value_newItem_self]
                exact hinitial

theorem checkCancelled_steady (hh : root.Grounds R h) (cancelled : Bool) :
    root.Steady R (fun _ _ => True) (checkCancelled cancelled) h := by
  unfold checkCancelled
  split
  · exact .fail hh not_false
  · exact .pure hh trivial

theorem createSubScopes_steady (hctx : ctx.KnownIn root R) (hh : root.Grounds R h) (name : String)
    (cancelled : Bool) : root.Steady R (fun _ _ => True) (ctx.createSubScopes name cancelled) h := by
  refine .bind (read_steady hctx hh .int Value.int?) fun n h hh _ => ?_
  split
  · exact .fail hh (Failure.not_stray (fun l => l[0]?) (by simp) (by simp))
  · refine .bind (checkCancelled_steady hh _) fun _ h hh _ => ?_
    exact .modify (hh.appendFresh ctx.scope _) trivial

theorem removeAllSubScopes_steady (hh : root.Grounds R h) :
    root.Steady R (fun _ _ => True) ctx.removeAllSubScopes h :=
  .modify (hh.clearChildren ctx.scope) trivial

theorem noSubScope_tame (name : String) (index : Int64) (count : Nat) :
    ¬ (noSubScope name index count).Stray :=
  Failure.not_stray (fun l => l[0]?) (by simp) (by simp)

theorem removeSubScope_steady (hctx : ctx.KnownIn root R) (hh : root.Grounds R h) (name : String) :
    root.Steady R (fun _ _ => True) (ctx.removeSubScope name) h := by
  refine .bind (read_steady hctx hh .int Value.int?) fun index h hh _ => ?_
  have hmissed : ∀ {h : Heap}, root.Grounds R h → root.Steady R (fun _ _ => True) (do
      let count ← Act.see fun h => (h.scope ctx.scope).children.length
      Act.fail (noSubScope name index count) : Act Heap Unit) h := by
    intro h hh
    refine .bind (P := fun _ _ => True) (.see hh trivial) fun count h hh _ => ?_
    exact .fail hh (noSubScope_tame name index count)
  dsimp only
  split
  · exact .bind (P := fun removed _ => removed = none) (.pure hh rfl) fun removed h hh hnone => by
      rw [hnone]
      exact hmissed hh
  · refine .bind (P := fun _ _ => True) (.change (hh.removeChild ctx.scope _) trivial)
      fun removed h hh _ => ?_
    cases removed with
    | none => exact hmissed hh
    | some s => exact .pure hh trivial

theorem addChild_tame {s child : ScopeId} {e : Failure} (he : h.addChild s child = .error e) :
    ¬ e.Stray := by
  unfold Heap.addChild Heap.insertChild at he
  split at he
  · cases he
    exact not_false
  · split at he
    · cases he
      exact not_false
    · dsimp only at he
      split at he
      · cases he
        exact not_false
      · cases he

theorem duplicateSubScope_steady (hctx : ctx.KnownIn root R) (hh : root.Grounds R h) (name : String)
    (cancelled : Bool) :
    root.Steady R (fun _ _ => True) (ctx.duplicateSubScope name cancelled) h := by
  refine .bind (P := fun children _ => ∀ t ∈ children, R t)
    (.see hh fun t ht => hh.child (hctx.scopes _ ctx.scope_mem_scopeChain) ht)
    fun children h hh hchildren => ?_
  refine .bind (read_steady hctx hh .int Value.int?) fun index h hh _ => ?_
  split
  · exact .fail hh (noSubScope_tame name index _)
  · next source hpick =>
    have hsource : R source := hchildren source (pickSubScope_mem hpick)
    refine .bind (checkCancelled_steady hh cancelled) fun _ h hh _ => ?_
    obtain ⟨hcopied, hcopy⟩ := hh.copyAlone hsource
    refine .bind (P := fun copy _ => R copy) (.change hcopied hcopy) fun copy h hh hcopy => ?_
    refine .bind (P := fun _ _ => True) (.modify (hh.rename copy _) trivial) fun _ h hh _ => ?_
    exact .commit hh (fun h' hadd => ⟨hh.addChild hcopy hadd, trivial⟩) fun e => addChild_tame

/-! ## Composites -/

theorem childrenOn_steady (hh : root.Grounds R h) (places : List (OperatorId × ScopeId)) :
    root.Steady R (fun _ _ => True) (ctx.childrenOn places) h := by
  have hrun := ctx.childrenOn_apply places h
  refine ⟨?_, fun _ _ => trivial, fun e he => ?_⟩
  · rw [hrun]
    exact hh.of_values rfl fun _ => .inl rfl
  · rw [hrun] at he
    cases he

/-- Children, and a task that is made of them. -/
theorem children_steady (hh : root.Grounds R h) (places : List (OperatorId × ScopeId))
    (f : List Operation → Task) :
    root.Steady R (fun _ _ => True) (f <$> ctx.childrenOn places) h := by
  rw [map_eq_pure_bind]
  exact .bind (childrenOn_steady hh places) fun _ _ hh _ => .pure hh trivial

theorem batch_steady (hctx : ctx.KnownIn root R) (hh : root.Grounds R h)
    (places : List (OperatorId × ScopeId)) :
    root.Steady R (fun _ _ => True) (ctx.childrenOn places >>= ctx.batch) h := by
  refine .bind (childrenOn_steady hh places) fun ops h hh _ => ?_
  exact .bind (read_steady hctx hh .bool Value.bool?) fun _ _ hh _ => .pure hh trivial

end Context

section Execution

open Context

variable {root ctx c : Context} {R : ScopeId → Prop} {h : Heap} {op : Operator}

theorem Operator.task_steady (hctx : ctx.KnownIn root R) (hh : root.Grounds R h) (op : Operator)
    (cancelled : Bool) : root.Steady R (fun _ _ => True) (op.task cancelled ctx) h := by
  have hdone : ∀ {x : Act Heap Unit}, root.Steady R (fun _ _ => True) x h →
      root.Steady R (fun _ _ => True) (x >>= fun _ => pure (Task.before [])) h :=
    fun hx => .bind hx fun _ _ hh _ => .pure hh trivial
  unfold task
  split
  · exact .pure hh trivial
  · exact .pure hh trivial
  · exact hdone (assign_steady hctx hh)
  · exact hdone (count_steady hctx hh)
  · exact hdone (compare_steady hctx hh _ _)
  · exact hdone (createVariables_steady hctx hh _)
  · exact hdone (createSubScopes_steady hctx hh _ _)
  · exact hdone (removeAllSubScopes_steady hh)
  · exact hdone (removeSubScope_steady hctx hh _)
  · exact hdone (duplicateSubScope_steady hctx hh _ _)
  · exact children_steady hh _ _
  · refine .bind (P := fun _ _ => True) (.see hh trivial) fun subs h hh _ => ?_
    split
    · exact .fail hh (Failure.not_stray (fun l => l.reverse[0]?) (by simp) (by simp))
    · exact batch_steady hctx hh _
  · refine .bind (P := fun _ _ => True) (.see hh trivial) fun places h hh _ => ?_
    exact batch_steady hctx hh _
  · refine .bind (read_steady hctx hh .bool Value.bool?) fun condition h hh _ => ?_
    exact children_steady hh _ _
  · refine .bind (read_steady hctx hh .bool Value.bool?) fun finished h hh _ => ?_
    split
    · exact .pure hh trivial
    · exact children_steady hh _ _
  · -- What the parameter stands for is an operator of the graph.
    refine .bind (typed_steady hctx hh .operator Value.operator?) fun target h hh htarget => ?_
    obtain ⟨v, hv, hread⟩ := htarget
    have hneed := (Graph.need_eq_ok_iff (u := ())).mpr (hv target hread)
    rw [← hctx.graph] at hneed
    refine .bind (P := fun _ _ => True) (.ofExcept hh (fun _ _ => trivial) fun e he => ?_)
      fun _ h hh _ => children_steady hh _ _
    rw [hneed] at he
    cases he

/-- A known context binds an operator that the graph has. -/
theorem Context.Known.operator (hctx : ctx.Known root) :
    ∃ op, ctx.operator = .ok op ∧ op ∈ root.graph.graph.operators := by
  obtain ⟨id, hid⟩ := Option.ne_none_iff_exists'.mp hctx.own
  obtain ⟨op, hop⟩ := Option.isSome_iff_exists.mp (hctx.frame ctx ctx.self_mem_chain id hid)
  refine ⟨op, ?_, Array.mem_of_getElem? hop⟩
  unfold Context.operator
  rw [hid, hctx.graph]
  dsimp only [Graph.get]
  rw [hop]

theorem Context.goOn_steady (hclosed : root.graph.graph.Closed) (hctx : ctx.KnownIn root R)
    (hh : root.Grounds R h) (t : Task) : root.Steady R (fun _ _ => True) (ctx.goOn t) h := by
  cases t with
  | before ops =>
      obtain ⟨op, hop, hmem⟩ := hctx.operator
      refine .bind (P := fun _ _ => True) (.bind (P := fun found _ => found = op)
        (.ofExcept hh (fun found hfound => ?_) fun e he => ?_) ?_) fun _ h hh _ => .pure hh trivial
      · rw [hop] at hfound
        exact (Except.ok.inj hfound).symm
      · rw [hop] at he
        cases he
      · rintro _ h hh rfl
        split
        · exact .pure hh trivial
        · next found next hnext =>
          split
          · -- The revisited operator is one of the graph, and is named.
            obtain ⟨again, hagain⟩ := Option.isSome_iff_exists.mp (hclosed.successor hmem hnext)
            have hget : ctx.graph.graph.get next = .ok again := by
              unfold Graph.get
              rw [hctx.graph, hagain]
            refine .bind (P := fun _ _ => True) (.ofExcept hh (fun _ _ => trivial) fun e he => ?_)
              fun _ h hh _ => .fail hh not_false
            rw [hget] at he
            cases he
          · exact .bind (P := fun _ _ => True) (.change hh.newContext trivial)
              fun _ h hh _ => .pure hh trivial
  | round ops =>
      obtain ⟨own, hown⟩ := Option.ne_none_iff_exists'.mp hctx.own
      refine .bind (P := fun _ _ => True) ?_ fun _ h hh _ => .pure hh trivial
      unfold reenter
      rw [hown]
      exact .bind (P := fun _ _ => True) (.change hh.newContext trivial)
        fun _ h hh _ => .pure hh trivial

/-- What is scheduled by a known context is known. -/
theorem Context.Begets.known (hclosed : root.graph.graph.Closed) (hctx : ctx.Known root)
    (hop : ctx.operator = .ok op) (hc : ctx.Begets op c) : c.Known root := by
  have hmem := ctx.operator_mem hop hctx.graph
  cases hc with
  | @child id hcalls n s =>
      have hid : root.graph.graph.has id = true := by
        rcases hcalls with hchild | ⟨-, hhas⟩
        · exact hclosed.child hmem hchild
        · rwa [hctx.graph] at hhas
      exact {
        graph := hctx.graph
        own := nofun
        frame := List.forall_mem_cons.mpr ⟨fun i hi => Option.some.inj hi ▸ hid, hctx.frame⟩
        trail := List.forall_mem_cons.mpr ⟨fun i hi => List.mem_singleton.mp hi ▸ hid, hctx.trail⟩
        top := List.forall_mem_cons.mpr ⟨nofun, hctx.top⟩ }
  | @hop next hnext hnew n =>
      obtain ⟨id, own, s, trail, parent, rfl⟩ := ne_root_of_operator hop
      have hid := hclosed.successor hmem hnext
      obtain ⟨hown, hframe⟩ := List.forall_mem_cons.mp hctx.frame
      obtain ⟨htrail, hbefore⟩ := List.forall_mem_cons.mp hctx.trail
      exact {
        graph := hctx.graph
        own := nofun
        frame := List.forall_mem_cons.mpr ⟨fun i hi => Option.some.inj hi ▸ hid, hframe⟩
        trail := List.forall_mem_cons.mpr ⟨fun i hi => (List.mem_append.mp hi).elim (htrail i)
          fun hi => List.mem_singleton.mp hi ▸ hid, hbefore⟩
        top := List.forall_mem_cons.mpr ⟨nofun, (List.forall_mem_cons.mp hctx.top).2⟩ }
  | @again body terminator own hloop hown n =>
      obtain ⟨id, own', s, trail, parent, rfl⟩ := ne_root_of_operator hop
      obtain ⟨hid, hframe⟩ := List.forall_mem_cons.mp hctx.frame
      have hid := hid own hown
      exact {
        graph := hctx.graph
        own := nofun
        frame := List.forall_mem_cons.mpr ⟨fun i hi => Option.some.inj hi ▸ hid, hframe⟩
        trail := List.forall_mem_cons.mpr ⟨fun i hi => List.mem_singleton.mp hi ▸ hid,
          (List.forall_mem_cons.mp hctx.trail).2⟩
        top := List.forall_mem_cons.mpr ⟨nofun, (List.forall_mem_cons.mp hctx.top).2⟩ }

/-- In a closed graph of built-in operators an execution on known values
leaves known values, answers with known contexts, and does not stray. -/
theorem Context.execute_known (hg : root.graph.BuiltIn) (hclosed : root.graph.graph.Closed)
    (hctx : ctx.KnownIn root R) {w : World} (hw : root.Grounds R w.heap) (setting : Setting) :
    root.Grounds R (ctx.execute setting w).2.heap ∧
      (∀ next, (ctx.execute setting w).1 = .ok next →
        ∀ c ∈ Operation.contextsOfAll next.toList, c.KnownIn root R) ∧
      ∀ e, (ctx.execute setting w).1 = .error e → ¬ e.Stray := by
  obtain ⟨op, hop, hmem⟩ := hctx.operator
  have hrun : ctx.execute setting w =
      World.onHeap (op.work (w.isCancelled setting.token) ctx) w := by
    rw [execute, Act.bind_apply, Act.ofExcept_apply, hop]
    exact Operator.execute_builtIn (hg op hmem) setting ctx w
  have hwork : root.Steady R (fun _ _ => True) (op.work (w.isCancelled setting.token) ctx) w.heap := by
    rw [op.work_eq]
    exact .bind (op.task_steady hctx hw _) fun t h hh _ => goOn_steady hclosed hctx hh t
  refine ⟨?_, fun next hnext c hc => ?_, fun e he => ?_⟩
  · rw [hrun]
    exact hwork.state
  · obtain ⟨op', hop', hissues⟩ := execute_issues (Prod.ext hnext rfl)
    refine { (hissues.begets hc).known hclosed hctx.toKnown hop' with scopes := fun t ht => ?_ }
    rcases (ctx.execute_schedules setting w next hnext c hc).mem_scopeChain ht with ht | hbelow
    · exact hctx.scopes t ht
    · exact hw.below (hctx.scopes _ ctx.scope_mem_scopeChain) hbelow
  · rw [hrun] at he
    exact hwork.failure e he

end Execution

end ScopeFlow
