import ScopeFlow.Proofs.Engine.Reached
import ScopeFlow.Proofs.Likeness.Views

/-!
# Copies of engines

A copy of an engine shares nothing with the original, and goes on as the
original does: whatever the order in which calls are made on the two, each of
them answers and shows what the engine would by itself, had it not been
copied, and leaves what the other holds as it is.

* `Stands` compares an engine in a world of two with an engine by itself,
  `Stands.call` is what one call on either of the two does to both;
* `play_stands` says the same of any number of calls, and `copy_resumes` of
  those on an engine and its copy.
-/

namespace ScopeFlow

/-! ## What is seen -/

/-- What is seen of an engine after a call. -/
structure View where
  result : Except Failure (Option RunState)
  state : RunState
  error : Option Failure
  executed : Nat
  /-- How many operations are pending. -/
  pending : Nat
  /-- The names and values in the tree below the global scope. -/
  tree : Option Snapshot
  /-- Which variables in the tree share an item. -/
  sharing : Option (List Heap.SharingRow)

/-- What is seen after a call. -/
def Called.view (x : Called) : View :=
  ⟨x.result, x.engine.state, x.engine.error, x.engine.executed, x.engine.continuation.length,
    x.engine.scope.map x.world.heap.snapshot, x.engine.scope.map x.world.heap.sharing⟩

/-- What is seen after each of several calls on an engine by itself. -/
def Engine.views (fuel : Nat) : List Call → Engine → World → Option (List View)
  | [], _, _ => some []
  | c :: calls, e, w =>
    match e.call fuel w c with
    | none => none
    | some x => (views fuel calls x.engine x.world).map (x.view :: ·)

/-! ## What is held -/

/-- The scopes that some scopes give access to, upwards and downwards. -/
inductive Heap.Near (h : Heap) (held : List ScopeId) : ScopeId → Prop
  | held {s : ScopeId} : s ∈ held → Near h held s
  | child {s c : ScopeId} : Near h held s → c ∈ (h.scope s).children → Near h held c
  | parent {s p : ScopeId} : Near h held s → (h.scope s).parent = some p → Near h held p

namespace Engine

/-- The contexts that an engine holds: those of its pending operations, with
the frames above them. -/
def contexts (e : Engine) : List Context :=
  (Operation.contextsOfAll e.continuation).flatMap Context.chain

/-- The graphs that an engine holds. -/
def graphs (e : Engine) : List SharedGraph := e.graph.toList ++ e.contexts.map Context.graph

/-- The scopes that an engine gives access to. -/
def HoldsScope (e : Engine) (h : Heap) (s : ScopeId) : Prop := h.Near e.heldScopes s

/-- The items that an engine gives access to: those of variables, and those of
declarations. -/
def HoldsItem (e : Engine) (h : Heap) (i : ItemId) : Prop :=
  (∃ s, e.HoldsScope h s ∧ ∃ entry ∈ (h.scope s).bindings.entries, entry.2 = i) ∨
    ∃ g ∈ e.graphs, i ∈ g.graph.held

/-- Two engines that share nothing. -/
structure Apart (e e' : Engine) (h : Heap) : Prop where
  scopes : ∀ s, e.HoldsScope h s → ¬ e'.HoldsScope h s
  items : ∀ i, e.HoldsItem h i → ¬ e'.HoldsItem h i
  contexts : ∀ c ∈ e.contexts, ∀ c' ∈ e'.contexts, c.id ≠ c'.id
  graphs : ∀ g ∈ e.graphs, ∀ g' ∈ e'.graphs, g.id ≠ g'.id

/-- All that an engine gives access to is as it was, and so are the requests
made to it. -/
structure Untouched (e : Engine) (w w' : World) : Prop where
  scopes : ∀ s, e.HoldsScope w.heap s → w'.heap.scope s = w.heap.scope s
  items : ∀ i, e.HoldsItem w.heap i → w'.heap.value i = w.heap.value i
  control : w'.control e.control = w.control e.control
  cancelled : w'.isCancelled (w'.token e.control) = w.isCancelled (w.token e.control)

end Engine

/-! ## Two engines in one world -/

/-- An engine, or a copy of it. -/
inductive Side where
  | original
  | copy
deriving DecidableEq

namespace Side

/-- The other one. -/
def other : Side → Side
  | original => copy
  | copy => original

/-- One thing for the one and another for the other. -/
def pair {α : Type} (x y : α) : Side → α
  | original => x
  | copy => y

/-- Of what is done or seen on either side, the part of one side. -/
def part {α : Type} (side : Side) (l : List (Side × α)) : List α :=
  (l.filter fun x => decide (x.1 = side)).map Prod.snd

theorem other_ne (side : Side) : side.other ≠ side := by
  cases side <;> decide

@[simp] theorem other_other (side : Side) : side.other.other = side := by
  cases side <;> rfl

theorem eq_other {side t : Side} (h : t ≠ side) : t = side.other := by
  cases side <;> cases t <;> first | rfl | exact absurd rfl h

@[simp] theorem part_cons_self {α : Type} {side : Side} {x : α} {l : List (Side × α)} :
    side.part ((side, x) :: l) = x :: side.part l := by
  simp [part]

theorem part_cons_ne {α : Type} {side t : Side} {x : α} {l : List (Side × α)} (h : t ≠ side) :
    t.part ((side, x) :: l) = t.part l := by
  simp [part, Ne.symm h]

theorem part_append {α : Type} (side : Side) {l m : List (Side × α)} :
    side.part (l ++ m) = side.part l ++ side.part m := by
  simp [part]

end Side

/-- Two engines in one world. -/
structure Duo where
  engine : Side → Engine
  world : World

namespace Duo

/-- A call on one of the two, and what is seen of that one then. -/
def turn (fuel : Nat) (d : Duo) (side : Side) (c : Call) : Option (Duo × View) :=
  ((d.engine side).call fuel d.world c).map fun x =>
    (⟨Function.update d.engine side x.engine, x.world⟩, x.view)

/-- Calls on either of the two in some order, and what is seen after each. -/
def play (fuel : Nat) : List (Side × Call) → Duo → Option (Duo × List (Side × View))
  | [], d => some (d, [])
  | (side, c) :: turns, d =>
    match d.turn fuel side c with
    | none => none
    | some (d', v) => (play fuel turns d').map fun x => (x.1, (side, v) :: x.2)

end Duo

/-- An engine and a copy that is made of it by itself. -/
def Engine.duo (e : Engine) (w : World) : Duo where
  engine := Side.pair e (e.copy .empty w).1
  world := (e.copy .empty w).2.2

/-! ## What is held is renamed to -/

theorem Region.Closed.mem_scopeChain {P : Region} {h : Heap} (hP : P.Closed h) {ctx : Context}
    (hctx : P.contexts ctx) {s : ScopeId} (hs : s ∈ ctx.scopeChain) : P.scopes s := by
  induction ctx with
  | root id g s' =>
      obtain rfl := List.mem_singleton.mp hs
      exact (hP.context hctx).2.2
  | frame id op s' trail p ih =>
      obtain ⟨-, hs', hp⟩ := hP.context hctx
      rw [Context.scopeChain] at hs
      split at hs
      · exact ih hp hs
      · rcases List.mem_cons.mp hs with rfl | hs
        · exact hs'
        · exact ih hp hs

section

variable {ρ : Renaming} {h k : Heap} {e e' : Engine} (ha : Agree ρ h k) (he : e.Alike ρ e')
  (hin : ρ.Inner)
include ha he

theorem Engine.Alike.context_mem {d : Context} (hd : d ∈ e'.contexts) : ∃ c, ρ.contexts c d := by
  obtain ⟨x, hx, hd⟩ := List.mem_flatMap.mp hd
  obtain ⟨_, -, hx'⟩ := forall₂_mem he.diagonal.continuation.contexts hx
  obtain ⟨_, -, hd'⟩ := ha.diagonal.source_closed.mem_chain ⟨_, hx'⟩ hd
  exact hd'

theorem Engine.Alike.graph_mem {g' : SharedGraph} (hg : g' ∈ e'.graphs) :
    ∃ g, ρ.graphs g g' := by
  rcases List.mem_append.mp hg with hg | hg
  · obtain ⟨_, -, hg'⟩ := rel_left he.diagonal.graph (Option.mem_toList.mp hg)
    exact hg'
  · obtain ⟨d, hd, rfl⟩ := List.mem_map.mp hg
    obtain ⟨c, hcd⟩ := context_mem ha he hd
    exact ⟨_, ha.context_graph hcd⟩

include hin

theorem Engine.Alike.scope_mem {t : ScopeId} (ht : e'.HoldsScope k t) : ∃ s, ρ.scopes s t := by
  induction ht with
  | held hs =>
      rcases List.mem_append.mp hs with hs | hs
      · obtain ⟨_, -, hs'⟩ := rel_left he.diagonal.scope (Option.mem_toList.mp hs)
        exact hs'
      · obtain ⟨op, hop, hs⟩ := List.mem_flatMap.mp hs
        obtain ⟨d, hd, hs⟩ := List.mem_flatMap.mp hs
        obtain ⟨_, -, hd'⟩ := forall₂_mem he.diagonal.continuation.contexts
          (Operation.mem_contextsOfAll.mpr ⟨op, hop, hd⟩)
        obtain ⟨_, -, hs'⟩ := ha.diagonal.source_closed.mem_scopeChain ⟨_, hd'⟩ hs
        exact hs'
  | child _ hc ih =>
      obtain ⟨s, hst⟩ := ih
      obtain ⟨c, -, hcd⟩ := forall₂_mem (ha.scope hst).2.2.children.flip hc
      exact ⟨c, hcd⟩
  | parent _ hp ih =>
      obtain ⟨s, hst⟩ := ih
      exact ((ha.scope hst).2.2.parent _ hp).resolve_right (hin _)

theorem Engine.Alike.item_mem {j : ItemId} (hj : e'.HoldsItem k j) : ∃ i, ρ.items i j := by
  rcases hj with ⟨t, ht, entry, hentry, rfl⟩ | ⟨g', hg, hj⟩
  · obtain ⟨s, hst⟩ := scope_mem ha he hin ht
    obtain ⟨entry', -, hsame⟩ := forall₂_mem (ha.scope hst).2.2.bindings.flip hentry
    exact ⟨entry'.2, hsame.2⟩
  · obtain ⟨g, hgg⟩ := graph_mem ha he hg
    obtain ⟨_, -, hj'⟩ := ha.diagonal.source_closed.held ⟨g', rfl, g, hgg⟩ j hj
    exact hj'

end

/-! ## One call -/

/-- Calls that come to the same show the same. -/
theorem Called.Alike.view {ρ : Renaming} {a b : ControlId} {w : World} {x y : Called}
    (h : Called.Alike ρ a b w x y) : x.view = y.view := by
  obtain ⟨ρ', -, he, hw⟩ := h.frame
  have hscope : x.engine.scope.map x.world.heap.snapshot =
      y.engine.scope.map y.world.heap.snapshot ∧
      x.engine.scope.map x.world.heap.sharing = y.engine.scope.map y.world.heap.sharing := by
    have hscope := he.scope
    generalize x.engine.scope = s at hscope ⊢
    generalize y.engine.scope = t at hscope ⊢
    cases hscope with
    | none => exact ⟨rfl, rfl⟩
    | some hst =>
        exact ⟨congrArg some (hw.heap.snapshot_eq hst), congrArg some (hw.heap.sharing_eq hst)⟩
  unfold Called.view
  rw [h.result, he.state, he.error, he.executed, he.continuation.length_eq, hscope.1, hscope.2]

/-- An engine stands in a world as another one does by itself, and nothing has
been asked of it. -/
structure Stands (ρ : Renaming) (e₀ : Engine) (w₀ : World) (e : Engine) (w : World) : Prop where
  world : w₀.Alike ρ e₀.control e.control w
  engine : e₀.Alike ρ e
  inner : ρ.Inner
  quiet : w.halt? e.control = none

/-- Renamings that do not lead to the same. -/
structure Renaming.Apart (α β : Renaming) : Prop where
  items : ∀ {i i' j}, α.items i j → ¬ β.items i' j
  scopes : ∀ {s s' t}, α.scopes s t → ¬ β.scopes s' t
  graphs : ∀ {g g' x y}, α.graphs g x → β.graphs g' y → x.id ≠ y.id
  contexts : ∀ {c c' x y}, α.contexts c x → β.contexts c' y → x.id ≠ y.id

theorem Renaming.Apart.symm {α β : Renaming} (h : α.Apart β) : β.Apart α :=
  ⟨fun hb ha => h.items ha hb, fun hb ha => h.scopes ha hb,
    fun hb ha => (h.graphs ha hb).symm, fun hb ha => (h.contexts ha hb).symm⟩

/-- What a change that is confined leads to stays apart from what is there. -/
theorem Confined.apart {α α' β : Renaming} {h k k' : Heap} (hconf : Confined α α' k k')
    (hb : Agree β h k) (hapart : α.Apart β) : α'.Apart β where
  items := by
    intro i i' j hij hij'
    rcases hconf.newItem hij with hold | hnew
    · exact hapart.items hold hij'
    · exact Nat.not_le.mpr (hb.item hij').2.1 hnew
  scopes := by
    intro s s' t hst hst'
    rcases hconf.newScope hst with hold | hnew
    · exact hapart.scopes hold hst'
    · exact Nat.not_le.mpr (hb.scope hst').2.1 hnew
  graphs := by
    intro g g' x y hgx hgy hid
    rcases hconf.newGraph hgx with hold | hnew
    · exact hapart.graphs hold hgy hid
    · rw [hid] at hnew
      exact Nat.not_le.mpr (hb.graph hgy).2.1 hnew
  contexts := by
    intro c c' x y hcx hcy hid
    rcases hconf.newContext hcx with hold | hnew
    · exact hapart.contexts hold hcy hid
    · rw [hid] at hnew
      exact Nat.not_le.mpr (hb.context hcy).2.1 hnew

/-- Engines that stand apart share nothing. -/
theorem Engine.Alike.apart {α β : Renaming} {h h' k : Heap} {e₁ e₂ e e' : Engine}
    (ha : Agree α h k) (hb : Agree β h' k) (he : e₁.Alike α e) (he' : e₂.Alike β e')
    (hin : α.Inner) (hin' : β.Inner) (hapart : α.Apart β) : e.Apart e' k where
  scopes := by
    intro s hs hs'
    obtain ⟨_, hs⟩ := he.scope_mem ha hin hs
    obtain ⟨_, hs'⟩ := he'.scope_mem hb hin' hs'
    exact hapart.scopes hs hs'
  items := by
    intro i hi hi'
    obtain ⟨_, hi⟩ := he.item_mem ha hin hi
    obtain ⟨_, hi'⟩ := he'.item_mem hb hin' hi'
    exact hapart.items hi hi'
  contexts := by
    intro c hc c' hc'
    obtain ⟨_, hc⟩ := he.context_mem ha hc
    obtain ⟨_, hc'⟩ := he'.context_mem hb hc'
    exact hapart.contexts hc hc'
  graphs := by
    intro g hg g' hg'
    obtain ⟨_, hg⟩ := he.graph_mem ha hg
    obtain ⟨_, hg'⟩ := he'.graph_mem hb hg'
    exact hapart.graphs hg hg'

/-- A call shows what it shows on the engine by itself, and leaves another
engine where it stands. -/
theorem Stands.call {α β : Renaming} {e₁ e₂ e e' : Engine} {w₁ w₂ w : World}
    (hα : Stands α e₁ w₁ e w) (hβ : Stands β e₂ w₂ e' w) (hapart : α.Apart β) (fuel : Nat)
    (c : Call) :
    Option.Rel (fun x₁ x => x₁.view = x.view ∧ e'.Untouched w x.world ∧
      ∃ α', Stands α' x₁.engine x₁.world x.engine x.world ∧ Stands β e₂ w₂ e' x.world ∧
        α'.Apart β) (e₁.call fuel w₁ c) (e.call fuel w c) := by
  refine rel_imp (fun {x₁ x} hx => ?_) (Engine.call_alike hα.engine hα.world fuel c)
  have hview := hx.view
  obtain ⟨⟨α', hconf, he', hw'⟩, -, hcontrol, hcontrol', hrequests, -⟩ := hx
  have hsame := hrequests hα.quiet
  have hb := hβ.world.heap
  -- What the other engine holds is not among what this one has changed.
  have hitem : ∀ {i j}, β.items i j → x.world.heap.value j = w.heap.value j :=
    fun hij => hconf.keptItem (hb.item hij).2.1 fun _ hi => hapart.items hi hij
  have hscope : ∀ {s t}, β.scopes s t → x.world.heap.scope t = w.heap.scope t :=
    fun hst => hconf.keptScope (hb.scope hst).2.1 fun _ hs => hapart.scopes hs hst
  have hkept : x.world.isCancelled (x.world.token e'.control) =
      w.isCancelled (w.token e'.control) := by
    unfold World.token World.isCancelled
    rw [hsame.control, hsame.tokens]
  refine ⟨hview, ⟨fun t ht => ?_, fun j hj => ?_, hsame.control _, hkept⟩, α', ⟨?_, he', hconf.inner hα.inner, ?_⟩,
    ⟨⟨?_, ?_, ?_, ?_, ?_⟩, hβ.engine, hβ.inner, ?_⟩, hconf.apart hb hapart⟩
  · obtain ⟨s, hst⟩ := hβ.engine.scope_mem hb hβ.inner ht
    exact hscope hst
  · obtain ⟨i, hij⟩ := hβ.engine.item_mem hb hβ.inner hj
    exact hitem hij
  · rw [hcontrol, hcontrol']
    exact hw'
  · rw [hcontrol', hsame.halt?]
    exact hα.quiet
  · exact hb.keep hconf.items hconf.scopes hconf.graphs hconf.contexts hitem hscope
      hw'.heap.rooted'
  · rw [hsame.control]
    exact hβ.world.pause
  · rw [hsame.control]
    exact hβ.world.stop
  · rw [hsame.control]
    exact hβ.world.abort
  · rw [hkept]
    exact hβ.world.cancelled
  · rw [hsame.halt?]
    exact hβ.quiet

/-! ## Any number of calls -/

/-- Each of two engines stands as an engine by itself does, apart from the
other. -/
def Duo.Stands (d : Duo) (e₀ : Side → Engine) (w₀ : Side → World) : Prop :=
  ∃ ρ : Side → Renaming,
    (∀ side, ScopeFlow.Stands (ρ side) (e₀ side) (w₀ side) (d.engine side) d.world) ∧
      ∀ side, (ρ side).Apart (ρ side.other)

namespace Duo

variable {d d' : Duo} {e₀ : Side → Engine} {w₀ : Side → World} {fuel : Nat}

/-- A call on one of two engines is a call on the engine that it stands as. -/
theorem Stands.turn (h : d.Stands e₀ w₀) (fuel : Nat) (side : Side) (c : Call) :
    Option.Rel (fun x y => x.view = y.2 ∧
        (d.engine side.other).Untouched d.world y.1.world ∧
          y.1.Stands (Function.update e₀ side x.engine) (Function.update w₀ side x.world))
      ((e₀ side).call fuel (w₀ side) c) (d.turn fuel side c) := by
  obtain ⟨ρ, hst, hapart⟩ := h
  have hcall := (hst side).call (hst side.other) (hapart side) fuel c
  unfold Duo.turn
  generalize (e₀ side).call fuel (w₀ side) c = x at hcall ⊢
  generalize (d.engine side).call fuel d.world c = y at hcall ⊢
  cases hcall with
  | none => exact .none
  | some hxy =>
      obtain ⟨hview, hun, α, hα, hβ, hαβ⟩ := hxy
      refine .some ⟨hview, hun, Function.update ρ side α, fun t => ?_, fun t => ?_⟩
      · by_cases ht : t = side
        · subst ht
          simpa using hα
        · obtain rfl := Side.eq_other ht
          simpa [Side.other_ne] using hβ
      · by_cases ht : t = side
        · subst ht
          simpa [Side.other_ne] using hαβ
        · obtain rfl := Side.eq_other ht
          simpa [Side.other_ne, Side.other_other] using hαβ.symm

/-- A call on one of two engines leaves what the other one holds as it is. -/
theorem Stands.untouched (h : d.Stands e₀ w₀) {side : Side} {c : Call} {v : View}
    (hturn : d.turn fuel side c = some (d', v)) :
    d'.engine side.other = d.engine side.other ∧
      (d.engine side.other).Untouched d.world d'.world := by
  have hcall := h.turn fuel side c
  rw [hturn] at hcall
  generalize (e₀ side).call fuel (w₀ side) c = x at hcall
  cases hcall with
  | some hxy =>
      refine ⟨?_, hxy.2.1⟩
      obtain ⟨y, -, heq⟩ := Option.map_eq_some_iff.mp hturn
      cases heq
      exact Function.update_of_ne side.other_ne _ _

/-- Two engines that stand apart share nothing. -/
theorem Stands.apart (h : d.Stands e₀ w₀) :
    (d.engine .original).Apart (d.engine .copy) d.world.heap := by
  obtain ⟨ρ, hst, hapart⟩ := h
  exact Engine.Alike.apart (hst .original).world.heap (hst .copy).world.heap
    (hst .original).engine (hst .copy).engine (hst .original).inner (hst .copy).inner
    (hapart .original)

/-- What the calls of each side show, after one that is made on some side. -/
theorem views_part_cons {side : Side} {c : Call} {x : Called} {turns : List (Side × Call)}
    (hcall : (e₀ side).call fuel (w₀ side) c = some x) (t : Side) :
    (e₀ t).views fuel (t.part ((side, c) :: turns)) (w₀ t) =
      ((Function.update e₀ side x.engine t).views fuel (t.part turns)
        (Function.update w₀ side x.world t)).map (t.part [(side, x.view)] ++ ·) := by
  by_cases ht : t = side
  · subst ht
    rw [Function.update_self, Function.update_self, Side.part_cons_self, Side.part_cons_self,
      Engine.views, hcall]
    rfl
  · rw [Function.update_of_ne ht, Function.update_of_ne ht, Side.part_cons_ne ht,
      Side.part_cons_ne ht]
    exact Option.map_id'.symm

/-- Calls that are made on two engines show on each side what the calls of that
side show on the engine that it stands as. -/
theorem Stands.play {turns : List (Side × Call)} {views : List (Side × View)}
    (h : d.Stands e₀ w₀) (hplay : d.play fuel turns = some (d', views)) :
    (∀ side, (e₀ side).views fuel (side.part turns) (w₀ side) = some (side.part views)) ∧
      ∃ e₁ w₁, d'.Stands e₁ w₁ := by
  induction turns generalizing d e₀ w₀ views with
  | nil =>
      obtain ⟨rfl, rfl⟩ := Prod.mk.inj (Option.some.inj hplay)
      exact ⟨fun _ => rfl, e₀, w₀, h⟩
  | cons turn turns ih =>
      obtain ⟨side, c⟩ := turn
      have hturn := h.turn fuel side c
      rw [Duo.play] at hplay
      generalize d.turn fuel side c = y at hturn hplay
      cases hcall : (e₀ side).call fuel (w₀ side) c with
      | none =>
          rw [hcall] at hturn
          cases hturn
          cases hplay
      | some x =>
          rw [hcall] at hturn
          cases hturn with
          | some hxy =>
              obtain ⟨hview, -, hst⟩ := hxy
              obtain ⟨z, hz, heq⟩ := Option.map_eq_some_iff.mp hplay
              cases heq
              obtain ⟨hviews, hst'⟩ := ih hst hz
              refine ⟨fun t => ?_, hst'⟩
              rw [views_part_cons hcall, hviews t, ← hview]
              exact congrArg some t.part_append.symm

/-- Where calls on two engines do not all end, those of one side do not all end
on the engine that it stands as. -/
theorem Stands.play_none {turns : List (Side × Call)} (h : d.Stands e₀ w₀)
    (hplay : d.play fuel turns = none) :
    ∃ side, (e₀ side).views fuel (side.part turns) (w₀ side) = none := by
  induction turns generalizing d e₀ w₀ with
  | nil => cases hplay
  | cons turn turns ih =>
      obtain ⟨side, c⟩ := turn
      have hturn := h.turn fuel side c
      rw [Duo.play] at hplay
      generalize d.turn fuel side c = y at hturn hplay
      cases hcall : (e₀ side).call fuel (w₀ side) c with
      | none =>
          refine ⟨side, ?_⟩
          rw [Side.part_cons_self, Engine.views, hcall]
      | some x =>
          rw [hcall] at hturn
          cases hturn with
          | some hxy =>
              obtain ⟨-, -, hst⟩ := hxy
              obtain ⟨t, ht⟩ := ih hst (Option.map_eq_none_iff.mp hplay)
              exact ⟨t, by rw [views_part_cons hcall, ht]; rfl⟩

end Duo

/-- The first calls show what they show when more calls follow. -/
theorem Engine.views_take {fuel : Nat} {calls : List Call} {e : Engine} {w : World}
    {views : List View} (h : e.views fuel calls w = some views) (n : Nat) :
    e.views fuel (calls.take n) w = some (views.take n) := by
  induction n generalizing calls e w views with
  | zero =>
      rw [List.take_zero, List.take_zero]
      rfl
  | succ n ih =>
      cases calls with
      | nil =>
          cases h
          rfl
      | cons c calls =>
          rw [Engine.views] at h
          rw [List.take_succ_cons, Engine.views]
          generalize e.call fuel w c = y at h ⊢
          cases y with
          | none => cases h
          | some x =>
              obtain ⟨vs, hvs, rfl⟩ := Option.map_eq_some_iff.mp h
              rw [List.take_succ_cons]
              exact Option.map_eq_some_iff.mpr ⟨_, ih hvs, rfl⟩

/-! ## An engine and its copy -/

/-- Worlds whose heaps agree are alike where nothing is asked for. -/
theorem World.Alike.of_quiet {ρ : Renaming} {a b : ControlId} {w w' : World}
    (ha : Agree ρ w.heap w'.heap) (h : w.halt? a = none) (h' : w'.halt? b = none) :
    w.Alike ρ a b w' := by
  obtain ⟨habort, hstop, hcancelled, hpause⟩ := halt?_eq_none_iff.mp h
  obtain ⟨habort', hstop', hcancelled', hpause'⟩ := halt?_eq_none_iff.mp h'
  exact ⟨ha, hpause.trans hpause'.symm, hstop.trans hstop'.symm, habort.trans habort'.symm,
    hcancelled.trans hcancelled'.symm⟩

namespace Engine

variable {e : Engine} {w : World}

/-- Where nothing is asked of an engine, it and its copy stand as it did, apart
from each other. -/
theorem Sound.stands (h : e.Sound w) (hquiet : w.halt? e.control = none) :
    (e.duo w).Stands (fun _ => e) fun _ => w := by
  obtain ⟨hcontrol, ρ, ha, he, hin⟩ := h
  obtain ⟨hc, hal⟩ := copied_spec ha he
  have hkeeps := copied_keeps ha he
  have hagree := hc.agree ha.source_closed ha.source_silent
  have hspec := World.detachedControl_spec { w with heap := (e.copied w.heap).heap } e.control
  rw [← copy_heap] at hkeeps hagree
  have hquiet' : (e.copy .empty w).2.2.halt? e.control = none :=
    (hspec.halt? hcontrol).trans hquiet
  have hcopy : (e.copy .empty w).2.2.halt? (e.copy .empty w).1.control = none :=
    hspec.quiet hquiet
  have hapart : ρ.Apart ((e.copied w.heap).renaming ρ.source) := by
    refine ⟨fun hij hij' => ?_, fun hst hst' => ?_, fun hg hg' hid => ?_, fun hx hx' hid => ?_⟩
    · exact Nat.not_le.mpr (ha.item hij).2.1 (hc.item hij').2.1
    · exact Nat.not_le.mpr (ha.scope hst).2.1 (hc.scope hst').2.1
    · exact Nat.not_le.mpr (hid ▸ (ha.graph hg).2.1) (hc.graph hg').1
    · exact Nat.not_le.mpr (hid ▸ (ha.context hx).2.1) (hc.context hx').1
  refine ⟨Side.pair ρ ((e.copied w.heap).renaming ρ.source), fun side => ?_, fun side => ?_⟩
  · cases side with
    | original => exact ⟨.of_quiet hkeeps hquiet hquiet', he, hin, hquiet'⟩
    | copy => exact ⟨.of_quiet hagree hquiet hcopy, hal, fun _ => id, hcopy⟩
  · cases side with
    | original => exact hapart
    | copy => exact hapart.symm

/-- An engine and its copy share nothing, however calls are made on the two in
turn. Those on each of them show what they show on the engine that was copied,
so that calls that match show the same, and none touches what the other one
holds. -/
theorem copy_resumes (h : e.Reached w) (hquiet : w.halt? e.control = none) (fuel : Nat)
    (turns : List (Side × Call)) :
    ((e.duo w).play fuel turns = none ↔
        ∃ side : Side, e.views fuel (side.part turns) w = none) ∧
      ∀ d views, (e.duo w).play fuel turns = some (d, views) →
        (d.engine .original).Apart (d.engine .copy) d.world.heap ∧
        (∀ side : Side, e.views fuel (side.part turns) w = some (side.part views)) ∧
        (∀ n, (Side.original.part turns).take n = (Side.copy.part turns).take n →
          (Side.original.part views).take n = (Side.copy.part views).take n) ∧
        ∀ (side : Side) c d' v, d.turn fuel side c = some (d', v) →
          d'.engine side.other = d.engine side.other ∧
            (d.engine side.other).Untouched d.world d'.world := by
  have hstands := h.sound.stands hquiet
  refine ⟨⟨hstands.play_none, ?_⟩, ?_⟩
  · rintro ⟨side, hnone⟩
    cases hplay : (e.duo w).play fuel turns with
    | none => rfl
    | some x =>
        have := (hstands.play hplay).1 side
        rw [hnone] at this
        cases this
  · intro d views hplay
    obtain ⟨hviews, e₁, w₁, hd⟩ := hstands.play hplay
    refine ⟨hd.apart, hviews, fun n hn => ?_, fun side c d' v hturn => hd.untouched hturn⟩
    have horiginal := views_take (hviews .original) n
    have hcopy := views_take (hviews .copy) n
    rw [hn] at horiginal
    exact Option.some.inj (horiginal.symm.trans hcopy)

end Engine

namespace Sample

/-- A graph of two counters, one after the other. -/
def countingGraph : SharedGraph :=
  let parameters : Parameters := ⟨[.lookup "Value" .int,
    { Parameter.lookup "Increment" .int with fixed := some ⟨0⟩ }]⟩
  ⟨⟨0⟩, ⟨"Counting", .empty,
    #[⟨"First", parameters, some ⟨1⟩, .counter⟩, ⟨"Second", parameters, none, .counter⟩],
    some ⟨0⟩⟩⟩

/-- A scope with one sub-scope, which share a variable, and a control. -/
def countingWorld : World :=
  { World.empty.newControl.2 with
    heap := ⟨#[.int 2, .int 40],
      #[⟨"Global", ⟨[("Value", ⟨1⟩)]⟩, [⟨1⟩], none⟩, ⟨"A", ⟨[("Value", ⟨1⟩)]⟩, [], some ⟨0⟩⟩], 0, 1⟩ }

theorem countingWorld_sound : countingWorld.heap.Sound where
  bound := by
    rintro ⟨_ | _ | n⟩ entry he
    · obtain rfl := List.mem_singleton.mp he
      decide
    · obtain rfl := List.mem_singleton.mp he
      decide
    · cases he
  sorted := by
    rintro ⟨_ | _ | n⟩ <;> simp [Bindings.Sorted, Bindings.names, countingWorld, Heap.scope, Scope.named, Bindings.empty]
  child := by
    rintro ⟨_ | _ | n⟩ c hc
    · obtain rfl := List.mem_singleton.mp hc
      decide
    · cases hc
    · cases hc
  rooted := by
    rintro ⟨_ | _ | n⟩ p hp
    · cases hp
    · cases hp
      decide
    · cases hp
  ranked := by
    refine ⟨fun s => 1 - s.index, ?_⟩
    rintro ⟨_ | _ | n⟩ - c hc
    · obtain rfl := List.mem_singleton.mp hc
      decide
    · cases hc
    · cases hc

/-- A copy in the middle of a run: each of the two goes on to count twice. -/
theorem copy_resumes_counting :
    ∃ e w, Engine.Reached e w ∧ w.halt? e.control = none ∧
      ∃ d views, (e.duo w).play 9 [(.copy, .step), (.original, .step), (.original, .start),
          (.copy, .start)] = some (d, views) ∧
        (d.engine .original).Apart (d.engine .copy) d.world.heap ∧
        ∀ side : Side, (side.part views).map View.executed = [2, 2] := by
  have hprep : ∃ e w events x,
      (Engine.ofConfig .standard ⟨0⟩).prepare countingGraph ⟨0⟩ countingWorld =
          ⟨.ok (), e, w, events⟩ ∧
      e.call 9 w .step = some x ∧ x.world.halt? x.engine.control = none ∧
      (x.engine.views 9 [.step, .start] x.world).map (List.map View.executed) = some [2, 2] :=
    ⟨_, _, _, _, rfl, rfl, rfl, rfl⟩
  obtain ⟨e, w, events, x, hprep, hcall, hquiet, hviews⟩ := hprep
  have husable : countingGraph.UsableIn countingWorld.heap := ⟨by decide, by decide, by decide⟩
  have hreached : x.engine.Reached x.world :=
    .called (.prepared (by decide) countingWorld_sound husable (by decide) hprep) hcall
  have hresumes := Engine.copy_resumes hreached hquiet 9
    [(.copy, .step), (.original, .step), (.original, .start), (.copy, .start)]
  have hpart : ∀ side : Side, side.part [(Side.copy, Call.step), (.original, .step),
      (.original, .start), (.copy, .start)] = [.step, .start] := by
    intro side
    cases side <;> rfl
  obtain ⟨vs, hvs, hmap⟩ := Option.map_eq_some_iff.mp hviews
  cases hplay : (x.engine.duo x.world).play 9
      [(.copy, .step), (.original, .step), (.original, .start), (.copy, .start)] with
  | none =>
      obtain ⟨side, hnone⟩ := hresumes.1.mp hplay
      rw [hpart, hvs] at hnone
      cases hnone
  | some y =>
      obtain ⟨d, views⟩ := y
      obtain ⟨hapart, hsame, -⟩ := hresumes.2 d views hplay
      refine ⟨x.engine, x.world, hreached, hquiet, d, views, hplay, hapart, fun side => ?_⟩
      have hside := hsame side
      rw [hpart, hvs] at hside
      rw [← Option.some.inj hside, hmap]

end Sample

end ScopeFlow
