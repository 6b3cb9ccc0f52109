import ScopeFlow.Proofs.Engine.Copies
import ScopeFlow.Proofs.Engine.Intact
import ScopeFlow.Proofs.Likeness.Twins

/-!
# Runs that repeat

A graph whose operators make no requests can be run as often as one likes. Runs
leave its declarations as they are, so that the same calls on trees that look
the same show the same each time, and leave trees that look the same.

* `prepared_alike` makes engines alike that are prepared on such trees;
* `Trial` is what several runs have in common, `Trial.Runs` a history of runs,
  with anything in between that spares the declarations;
* `SharedGraph.runs_intact` puts this together with what single runs leave.
-/

namespace ScopeFlow

namespace Engine

/-- The world that calls lead to, as far as they return. -/
def leaves (fuel : Nat) : List Call → Engine → World → World
  | [], _, w => w
  | c :: calls, e, w =>
    match e.call fuel w c with
    | none => w
    | some x => leaves fuel calls x.engine x.world

variable {g : SharedGraph} {s s' : ScopeId} {w₀ w₀' w w' : World} {e₀ e₀' e e' : Engine}
  {events events' : List Event} {ρ : Renaming}

/-- Engines prepared with a graph on trees that look the same are alike, where
their tokens are. -/
theorem prepared_alike (hs : w₀.heap.Suits g s) (hs' : w₀'.heap.Suits g s') (hsilent : g.Silent)
    (hsnapshot : w₀.heap.snapshot s = w₀'.heap.snapshot s')
    (hheld : ∀ i ∈ g.graph.held, w₀.heap.value i = w₀'.heap.value i)
    (hconfig : e₀.config = e₀'.config) (hprep : e₀.prepare g s w₀ = ⟨.ok (), e, w, events⟩)
    (hprep' : e₀'.prepare g s' w₀' = ⟨.ok (), e', w', events'⟩)
    (hcancelled : w.isCancelled (w.token e.control) = w'.isCancelled (w'.token e'.control)) :
    ∃ ρ, e.Alike ρ e' ∧ w.Alike ρ e.control e'.control w' ∧ ρ.scopes s s' := by
  obtain ⟨ρ, hconf, ha, hops⟩ := firstOperations_alike (g := g) (s := s) (t := s')
    (hs.agree hs' hsilent hsnapshot hheld) ⟨rfl, rfl⟩ .top
  obtain ⟨rfl, rfl⟩ := prepare_ok hprep
  obtain ⟨rfl, rfl⟩ := prepare_ok hprep'
  have hst : ρ.scopes s s' := hconf.within.scopes .top
  have hgg : ρ.graphs g g := hconf.within.graphs ⟨rfl, rfl⟩
  refine ⟨ρ, ⟨hconfig, rfl, .some hst, .some hgg, hops, rfl, rfl, rfl⟩, ?_, hst⟩
  refine ⟨?_, ?_, ?_, ?_, hcancelled⟩
  · rw [(resetControl_frame _ _).1, (resetControl_frame _ _).1]
    exact ha
  all_goals
    dsimp only
    rw [control_resetControl, control_resetControl]

/-- The same calls show the same, and leave trees that look the same. -/
theorem views_alike (fuel : Nat) (calls : List Call) (he : e.Alike ρ e')
    (hw : w.Alike ρ e.control e'.control w') (hst : ρ.scopes s s') :
    e.views fuel calls w = e'.views fuel calls w' ∧
      (e.leaves fuel calls w).heap.snapshot s = (e'.leaves fuel calls w').heap.snapshot s' := by
  induction calls generalizing ρ e e' w w' with
  | nil => exact ⟨rfl, hw.heap.snapshot_eq hst⟩
  | cons c calls ih =>
      have hcall := call_alike he hw fuel c
      rw [views, views, leaves, leaves]
      generalize e.call fuel w c = x at hcall ⊢
      generalize e'.call fuel w' c = y at hcall ⊢
      cases hcall with
      | none => exact ⟨rfl, hw.heap.snapshot_eq hst⟩
      | @some x y hxy =>
          have hview := hxy.view
          obtain ⟨⟨ρ', hconf, he', hw'⟩, -, hcontrol, hcontrol', -⟩ := hxy
          rw [← hcontrol, ← hcontrol'] at hw'
          obtain ⟨hviews, htree⟩ := ih he' hw' (hconf.within.scopes hst)
          refine ⟨?_, htree⟩
          dsimp only
          rw [hviews, hview]

/-- Calls lead to states that the engine passes through. -/
theorem Underway.leaves (fuel : Nat) (calls : List Call) (hu : e.Underway g s w₀ w) :
    ∃ e' : Engine, e'.Underway g s w₀ (e.leaves fuel calls w) := by
  induction calls generalizing e w with
  | nil => exact ⟨e, hu⟩
  | cons c calls ih =>
      rw [Engine.leaves]
      cases hcall : e.call fuel w c with
      | none => exact ⟨e, hu⟩
      | some x => exact ih (hu.called hcall)

end Engine

/-! ## Trials -/

/-- What several runs have in common: the graph, the configuration of the
engines, whether their tokens are cancelled, how the trees look, and the calls
that are made. -/
structure Trial where
  graph : SharedGraph
  config : Config
  cancelled : Bool
  tree : Snapshot
  fuel : Nat
  calls : List Call

/-- What is seen of a run: after each call, unless one does not return, and of
the tree that is left. -/
structure Round where
  views : Option (List View)
  tree : Snapshot

namespace Trial

variable {t : Trial} {w w' v v' : World} {r r' : Round} {rounds : List Round}

/-- A run in a world: what is seen of it, and the world that it leaves. -/
inductive Run (t : Trial) (w : World) : Round → World → Prop
  | run {e₀ e : Engine} {s : ScopeId} {w' : World} {events : List Event} :
      w.heap.Suits t.graph s → w.heap.snapshot s = t.tree → e₀.config = t.config →
      e₀.prepare t.graph s w = ⟨.ok (), e, w', events⟩ →
      w'.isCancelled (w'.token e.control) = t.cancelled →
      Run t w ⟨e.views t.fuel t.calls w', (e.leaves t.fuel t.calls w').heap.snapshot s⟩
        (e.leaves t.fuel t.calls w')

/-- Do the declarations of the graph have the same values in both worlds? -/
def Spares (t : Trial) (w w' : World) : Prop :=
  ∀ i ∈ t.graph.graph.held, w'.heap.value i = w.heap.value i

/-- A run spares the declarations. -/
theorem Run.spares (h : t.Run w r w') : t.Spares w w' := by
  obtain ⟨hs, -, -, hprep, -⟩ := h
  obtain ⟨e', hu⟩ := (Engine.Underway.prepared hprep).leaves t.fuel t.calls
  exact ((hu.keeps hs).intact hs).value

/-- Runs in worlds with the same declarations show the same. -/
theorem Run.unique (hsilent : t.graph.Silent) (h : t.Run w r w') (h' : t.Run v r' v')
    (hspares : t.Spares w v) : r = r' := by
  obtain ⟨hs, htree, hconfig, hprep, hcancelled⟩ := h
  obtain ⟨hs', htree', hconfig', hprep', hcancelled'⟩ := h'
  obtain ⟨ρ, he, hw, hst⟩ := Engine.prepared_alike hs hs' hsilent (htree.trans htree'.symm)
    (fun i hi => (hspares i hi).symm) (hconfig.trans hconfig'.symm) hprep hprep'
    (hcancelled.trans hcancelled'.symm)
  obtain ⟨hviews, hleft⟩ := Engine.views_alike t.fuel t.calls he hw hst
  rw [hviews, hleft]

/-- Histories of runs, with anything between them that spares the
declarations. -/
inductive Runs (t : Trial) (w₀ : World) : List Round → World → Prop
  | none : Runs t w₀ [] w₀
  | next {rounds : List Round} {w w' w'' : World} {r : Round} : Runs t w₀ rounds w →
      t.Spares w w' → t.Run w' r w'' → Runs t w₀ (rounds ++ [r]) w''

/-- Every run of a history starts with the declarations as they were. -/
theorem Runs.spares {w₀ : World} (h : t.Runs w₀ rounds w) : t.Spares w₀ w ∧
    ∀ r ∈ rounds, ∃ v v', t.Spares w₀ v ∧ t.Run v r v' := by
  induction h with
  | none => exact ⟨fun _ _ => rfl, nofun⟩
  | next _ hspares hrun ih =>
      obtain ⟨hbefore, hrounds⟩ := ih
      have hstart : t.Spares w₀ _ := fun i hi => (hspares i hi).trans (hbefore i hi)
      refine ⟨fun i hi => (hrun.spares i hi).trans (hstart i hi), fun r hr => ?_⟩
      rcases List.mem_append.mp hr with hr | hr
      · exact hrounds r hr
      · obtain rfl := List.mem_singleton.mp hr
        exact ⟨_, _, hstart, hrun⟩

/-- All runs of a history show the same. -/
theorem Runs.all_eq {w₀ : World} (hsilent : t.graph.Silent) (h : t.Runs w₀ rounds w) :
    ∀ r ∈ rounds, ∀ r' ∈ rounds, r = r' := by
  intro r hr r' hr'
  obtain ⟨v, _, hspares, hrun⟩ := h.spares.2 r hr
  obtain ⟨v', _, hspares', hrun'⟩ := h.spares.2 r' hr'
  exact hrun.unique hsilent hrun' fun i hi => (hspares' i hi).trans (hspares i hi).symm

end Trial

/-- A graph that is prepared on a tree that is fit for it is left intact by
all that is done with the engine, and so is the tree. So the same calls on
trees that look the same show the same each time and leave trees that look the
same, as long as no operator makes requests. -/
theorem SharedGraph.runs_intact (g : SharedGraph) :
    (∀ (s : ScopeId) (w₀ : World) (e : Engine) (w : World), w₀.heap.Suits g s →
      e.Underway g s w₀ w → e.Intact g s w₀.heap w) ∧
    (g.Silent → ∀ (t : Trial) (w₀ : World) (rounds : List Round) (w : World), t.graph = g →
      t.Runs w₀ rounds w → ∀ r ∈ rounds, ∀ r' ∈ rounds, r = r') := by
  refine ⟨fun s w₀ e w hs hu => (hu.keeps hs).intact hs, ?_⟩
  rintro hsilent t w₀ rounds w rfl hruns
  exact hruns.all_eq hsilent

namespace Sample

/-- A graph of one counter, whose variable has a default. -/
def defaultingGraph : SharedGraph :=
  let parameters : Parameters := ⟨[{ Parameter.lookup "Value" .int with default := some ⟨0⟩ },
    { Parameter.lookup "Increment" .int with fixed := some ⟨1⟩ }]⟩
  ⟨⟨0⟩, ⟨"Defaulting", .empty, #[⟨"Count", parameters, none, .counter⟩], some ⟨0⟩⟩⟩

/-- The items of its declarations, and a control, but no scopes yet. -/
def unsown : World :=
  { World.empty.newControl.2 with heap := ⟨#[.int 0, .int 1], #[], 0, 1⟩ }

/-- Two trees that look the same, of one scope with one variable each. -/
def sown : World :=
  [ScopeOp.create "g", .create "g", .bindValue ⟨0⟩ "X" (.int 7), .bindValue ⟨1⟩ "X" (.int 7)].foldl
    (fun w op => (op.run w).2) unsown

/-- The graph prepared on a scope. -/
def defaulting (w : World) (s : ScopeId) : Reply Unit :=
  (Engine.ofConfig .standard ⟨0⟩).prepare defaultingGraph s w

/-- Runs from start to end. -/
def defaultingTrial : Trial :=
  ⟨defaultingGraph, .standard, false, sown.heap.snapshot ⟨0⟩, 9, [.start]⟩

/-- The first tree after a run. -/
def harvested : World :=
  (defaulting sown ⟨0⟩).engine.leaves 9 [.start] (defaulting sown ⟨0⟩).world

theorem sown_forest : sown.heap.Forest := by
  have hunsown : unsown.Built := .start rfl
  have hsown : sown.Built :=
    (((hunsown.step (.create "g") ⟨nofun, nofun⟩).step (.create "g") ⟨nofun, nofun⟩).step
      (.bindValue ⟨0⟩ "X" (.int 7)) ⟨by decide, nofun⟩).step
      (.bindValue ⟨1⟩ "X" (.int 7)) ⟨by decide, nofun⟩
  exact hsown.forest

/-- A scope by itself with one variable, whose item is not of a declaration. -/
theorem suits_single {h : Heap} {s : ScopeId} {i : ItemId} (hf : h.Forest)
    (hscope : h.scope s = ⟨"g", ⟨[("X", i)]⟩, [], none⟩) (hs : s.index < h.scopes.size)
    (hgraphs : 0 < h.graphs) (hitems : 2 ≤ h.items.size) (hi : 2 ≤ i.index) :
    h.Suits defaultingGraph s := by
  have hbelow : ∀ t, h.Below s t → t = s := by
    intro t ht
    induction ht with
    | self => rfl
    | child _ hc ih =>
        rw [ih, hscope] at hc
        cases hc
  have hbound : ∀ t name j, h.Below s t → h.binding? t name = some j → name = "X" ∧ j = i := by
    intro t name j ht hj
    rw [hf.toSound.binding?_iff, hbelow t ht, hscope] at hj
    exact Prod.mk.inj (List.mem_singleton.mp hj)
  have hheld : ∀ j ∈ defaultingGraph.graph.held, j.index < 2 := by decide
  refine ⟨hf, hs, hgraphs, fun j hj => ?_, fun t name j ht hj hmem => ?_, ?_⟩
  · exact Nat.lt_of_lt_of_le (hheld j hj) hitems
  · obtain ⟨-, rfl⟩ := hbound t name j ht hj
    exact absurd (hheld j hmem) (by omega)
  · intro t u name other j ht hu hj hj'
    exact ⟨(hbelow t ht).trans (hbelow u hu).symm,
      (hbound t name j ht hj).1.trans (hbound u other j hu hj').1.symm⟩

/-- Two runs on trees that look the same: the default is copied each time, and
each tree gets a variable of its own. -/
theorem defaulting_runs_intact :
    (∃ e : Engine, e.Underway defaultingGraph ⟨0⟩ sown harvested ∧
      e.Intact defaultingGraph ⟨0⟩ sown.heap harvested) ∧
    ∃ r r' w, defaultingTrial.Runs sown [r, r'] w ∧ r = r' ∧
      r.tree.valueAt? [] "Value" = some (.int 1) := by
  have hsuits : sown.heap.Suits defaultingGraph ⟨0⟩ :=
    suits_single sown_forest rfl (by decide) (by decide) (by decide) (by decide)
  have hprep : defaulting sown ⟨0⟩ = ⟨.ok (), (defaulting sown ⟨0⟩).engine,
      (defaulting sown ⟨0⟩).world, (defaulting sown ⟨0⟩).events⟩ := rfl
  obtain ⟨e, hu⟩ := (Engine.Underway.prepared hprep).leaves 9 [.start]
  have hsuits' : harvested.heap.Suits defaultingGraph ⟨1⟩ :=
    suits_single (hu.keeps hsuits).tidy.forest rfl (by decide) (by decide) (by decide) (by decide)
  have hprep' : defaulting harvested ⟨1⟩ = ⟨.ok (), (defaulting harvested ⟨1⟩).engine,
      (defaulting harvested ⟨1⟩).world, (defaulting harvested ⟨1⟩).events⟩ := rfl
  have hfirst := Trial.Run.run (t := defaultingTrial) hsuits rfl rfl hprep rfl
  have hsecond := Trial.Run.run (t := defaultingTrial) hsuits' rfl rfl hprep' rfl
  have hruns := (Trial.Runs.none.next (fun _ _ => rfl) hfirst).next (fun _ _ => rfl) hsecond
  obtain ⟨hintact, hrepeats⟩ := defaultingGraph.runs_intact
  refine ⟨⟨e, hu, hintact _ _ _ _ hsuits hu⟩, _, _, _, hruns, ?_, rfl⟩
  refine hrepeats ?_ defaultingTrial _ _ _ rfl hruns _ ?_ _ ?_
  · exact SharedGraph.BuiltIn.silent (by decide)
  · exact List.mem_cons_self
  · exact List.mem_cons_of_mem _ List.mem_cons_self

end Sample

end ScopeFlow
