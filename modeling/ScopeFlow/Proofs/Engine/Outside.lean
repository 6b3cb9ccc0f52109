import ScopeFlow.Proofs.Engine.References
import ScopeFlow.Proofs.Engine.Repeats
import ScopeFlow.Proofs.Operator.Locality

/-!
# Outside of a run

A graph is prepared on a scope. Whatever is executed from then on binds and
searches scopes that were below it and scopes made meanwhile, no others
(`Engine.Reaches`), so that all other scopes stay as they were, and with them
the items that are bound nowhere else (`Engine.Underway.spares`).
-/

namespace ScopeFlow

open Operation (AllFit)

namespace Heap

variable {h₀ h h' : Heap} {s t : ScopeId}

/-- What was outside of a tree is as it was, and is still outside. -/
structure Spares (h₀ : Heap) (s : ScopeId) (h : Heap) : Prop where
  scope : ∀ t : ScopeId, t.index < h₀.scopes.size → ¬ h₀.Below s t →
    h.scope t = h₀.scope t ∧ ¬ h.Below s t
  item : ∀ i : ItemId, i.index < h₀.items.size →
    (∀ t name, h₀.binding? t name = some i → ¬ h₀.Below s t) →
      h.value i = h₀.value i ∧ ∀ t name, h.binding? t name = some i →
        ¬ h₀.Below s t ∧ h₀.binding? t name = some i

end Heap

namespace Engine

variable {h₀ h : Heap} {s : ScopeId}

/-- A forest in which the scopes of a tree and those made meanwhile keep to
themselves. -/
structure Confines (h₀ : Heap) (s : ScopeId) (h : Heap) : Prop where
  forest : h.Forest
  items : h₀.items.size ≤ h.items.size
  scopes : h₀.scopes.size ≤ h.scopes.size
  closed : ∀ {t c}, Reaches h₀ s t → c ∈ (h.scope t).children → Reaches h₀ s c
  outside : ∀ {t}, ¬ Reaches h₀ s t → h.scope t = h₀.scope t
  bound : ∀ {t name i}, h.binding? t name = some i →
    h₀.binding? t name = some i ∨ h₀.items.size ≤ i.index
  value : ∀ {i : ItemId}, i.index < h₀.items.size →
    (∀ t name, h₀.binding? t name = some i → ¬ h₀.Below s t) → h.value i = h₀.value i

/-- A context that searches such scopes only. -/
def Searches (h₀ : Heap) (s : ScopeId) (h : Heap) (ctx : Context) : Prop :=
  ∀ t ∈ ctx.scopeChain, Reaches h₀ s t ∧ t.index < h.scopes.size

namespace Confines

variable {t u : ScopeId}

theorem start (hf : h₀.Forest) : Confines h₀ s h₀ where
  forest := hf
  items := Nat.le_refl _
  scopes := Nat.le_refl _
  closed := by
    rintro t c (ht | hle) hc
    · exact .inl (ht.child hc)
    · rw [Heap.scope_of_le hle] at hc
      cases hc
  outside := fun _ => rfl
  bound := .inl
  value := fun _ _ => rfl

theorem below (hc : Confines h₀ s h) (ht : Reaches h₀ s t) (htu : h.Below t u) :
    Reaches h₀ s u := by
  induction htu with
  | self => exact ht
  | child _ hmem ih => exact hc.closed ih hmem

theorem spares (hc : Confines h₀ s h) : h₀.Spares s h := by
  have hreaches : ∀ {t : ScopeId}, t.index < h₀.scopes.size → ¬ h₀.Below s t →
      ¬ Reaches h₀ s t := by
    rintro t ht hno (hbelow | hle)
    · exact hno hbelow
    · omega
  refine ⟨fun t ht hno => ⟨hc.outside (hreaches ht hno), fun hbelow => ?_⟩,
    fun i hi hout => ⟨hc.value hi hout, fun t name hbound => ?_⟩⟩
  · exact hreaches ht hno (hc.below (.inl .self) hbelow)
  · rcases hc.bound hbound with hbound | hle
    · exact ⟨hout t name hbound, hbound⟩
    · omega

/-- One execution in a context that searches nothing outside. -/
theorem execute {ctx : Context} {w : World} (hw : Confines h₀ s w.heap)
    (hctx : Searches h₀ s w.heap ctx) (setting : Setting) :
    Confines h₀ s (ctx.execute setting w).2.heap ∧
      w.heap.scopes.size ≤ (ctx.execute setting w).2.heap.scopes.size ∧
      ∀ next, (ctx.execute setting w).1 = .ok next → ∀ c ∈ Operation.contextsOfAll next.toList,
        Searches h₀ s (ctx.execute setting w).2.heap c := by
  have hwithin : ctx.Within w.heap := fun t ht => (hctx t ht).2
  have hscope := (hctx _ ctx.scope_mem_scopeChain).1
  have hforest := Context.execute_forest hw.forest hwithin setting
  have hlocal := Context.execute_local hw.forest hwithin setting
  have hschedules := ctx.execute_schedules setting w
  generalize ctx.execute setting w = r at hforest hlocal hschedules ⊢
  obtain ⟨answer, w'⟩ := r
  dsimp only at hforest hlocal hschedules ⊢
  refine ⟨⟨hforest, Nat.le_trans hw.items hlocal.items, Nat.le_trans hw.scopes hlocal.scopes,
    ?_, ?_, ?_, ?_⟩, hlocal.scopes, fun next hnext c hc t ht => ?_⟩
  · intro t c ht hmem
    rcases hlocal.attached hmem with hmem | hle
    · exact hw.closed ht hmem
    · exact .inr (Nat.le_trans hw.scopes hle)
  · intro t hno
    -- A scope outside is neither searched nor bound, nor a sub-scope of one that is.
    have hlt : t.index < w.heap.scopes.size := by
      have hold : ¬ h₀.scopes.size ≤ t.index := fun hle => hno (.inr hle)
      have hgrown := hw.scopes
      omega
    have hchain : t ∉ ctx.scopeChain := fun ht => hno (hctx t ht).1
    have hbound : t ≠ ctx.scope := fun heq => hno (heq ▸ hscope)
    have hparent : (w'.heap.scope t).parent = (w.heap.scope t).parent :=
      (hlocal.parent hlt).resolve_right fun hdetached => hno (hw.closed hscope hdetached.1)
    rw [← hw.outside hno]
    calc w'.heap.scope t
        = ⟨(w'.heap.scope t).name, (w'.heap.scope t).bindings, (w'.heap.scope t).children,
            (w'.heap.scope t).parent⟩ := rfl
      _ = w.heap.scope t := by
          rw [hlocal.name hlt, hlocal.bindings hlt hchain, hlocal.children hlt hbound, hparent]
  · intro t name i hi
    rcases hlocal.bound hi with hi | hle
    · exact hw.bound hi
    · exact .inr (Nat.le_trans hw.items hle)
  · intro i hi hout
    have hunseen : ¬ ctx.Sees w.heap i := by
      rintro ⟨t, name, ht, hbound⟩
      rcases hw.bound hbound with hbound | hle
      · rcases (hctx t ht).1 with hbelow | hnew
        · exact hout t name hbound hbelow
        · rw [Heap.binding?, Heap.scope_of_le hnew] at hbound
          cases hbound
      · omega
    exact (hlocal.value (Nat.lt_of_lt_of_le hi hw.items) hunseen).trans (hw.value hi hout)
  · rcases (hschedules next hnext c hc).mem_scopeChain ht with ht | hbelow
    · exact ⟨(hctx t ht).1, Nat.lt_of_lt_of_le (hctx t ht).2 hlocal.scopes⟩
    · obtain ⟨rank, hr⟩ := hw.forest.ranks
      have hthere := (hbelow.rank_le hr (hwithin _ ctx.scope_mem_scopeChain)).1
      exact ⟨hw.below hscope hbelow, Nat.lt_of_lt_of_le hthere hlocal.scopes⟩

theorem keepsUp (r : DrainSetting) (h₀ : Heap) (s : ScopeId) :
    r.KeepsUp (Confines h₀ s) (Searches h₀ s) := by
  intro w ctx pending hw hctx
  rcases r.execute_cases ctx pending with ⟨failure, -, hfails⟩ | hexecutes
  · rw [hfails]
    exact ⟨⟨hw, fun _ hc => hc⟩, nofun⟩
  · rw [hexecutes]
    obtain ⟨hgood, hsize, hnext⟩ := hw.execute hctx ⟨_, some r.control⟩
    refine ⟨⟨hgood, fun c hc t ht => ⟨(hc t ht).1, ?_⟩⟩, hnext⟩
    exact Nat.lt_of_lt_of_le (hc t ht).2 hsize

end Confines

/-- From a preparation on, in every state between calls and after every
execution, all that was outside of the tree is as it was. -/
theorem Underway.spares {e : Engine} {g : SharedGraph} {w₀ w : World}
    (hu : e.Underway g s w₀ w) (hf : w₀.heap.Forest) (hs : s.index < w₀.heap.scopes.size) :
    w₀.heap.Spares s w.heap ∧
      ∀ fuel budget, ∀ x ∈ e.callEfforts fuel budget w,
        w₀.heap.Spares s x.progress.world.heap := by
  have hfirst : Confines w₀.heap s (firstOperations g s w₀.heap).2 := by
    have hstart : Confines w₀.heap s w₀.heap := .start hf
    unfold firstOperations
    cases g.graph.initial with
    | none => exact hstart
    | some initial =>
        -- Identities of contexts are all that is made.
        exact ⟨hf.newContext.newContext, hstart.items, hstart.scopes, hstart.closed,
          hstart.outside, hstart.bound, hstart.value⟩
  have hpool : ∀ c ∈ Operation.pool (firstOperations g s w₀.heap).1,
      Searches w₀.heap s (firstOperations g s w₀.heap).2 c := by
    intro c hc t ht
    obtain rfl := firstOperations_scopeChain (Operation.mem_pool.mp hc) ht
    exact ⟨.inl .self, Nat.lt_of_lt_of_le hs hfirst.scopes⟩
  obtain ⟨⟨hgood, -⟩, hefforts, -⟩ :=
    hu.keeps_up (Confines.keepsUp e.setting w₀.heap s) hfirst hpool
  exact ⟨hgood.spares, fun fuel budget x hx => (hefforts fuel budget x hx).after.spares⟩

/-- The execution of a built-in operator changes variables of scopes that its
context searches, the sub-scopes of the bound scope, and the item of the
variable that a counter counts with; composites change nothing. So a run leaves
all that is outside of the tree that it was prepared on as it was. -/
theorem effects_local :
    (∀ (ctx : Context) (op : Operator) (setting : Setting) (w : World), ctx.operator = .ok op →
      op.kind.isBuiltIn = true → w.heap.Forest → ctx.Within w.heap →
        ctx.Effects op w.heap (ctx.execute setting w).2.heap) ∧
    (∀ (e : Engine) (g : SharedGraph) (s : ScopeId) (w₀ w : World), e.Underway g s w₀ w →
      w₀.heap.Forest → s.index < w₀.heap.scopes.size →
        w₀.heap.Spares s w.heap ∧ ∀ fuel budget, ∀ x ∈ e.callEfforts fuel budget w,
          w₀.heap.Spares s x.progress.world.heap) :=
  ⟨fun _ _ setting _ hop hbuilt hf hctx => Context.execute_effects hop hbuilt hf hctx setting,
    fun _ _ _ _ _ hu hf hs => hu.spares hf hs⟩

end Engine

namespace Sample

/-- A graph of one counter, for a variable that is there. -/
def tallyGraph : SharedGraph :=
  let parameters : Parameters := ⟨[{ Parameter.lookup "Value" .int with actual := "X" },
    { Parameter.lookup "Increment" .int with fixed := some ⟨1⟩ }]⟩
  ⟨⟨0⟩, ⟨"Tally", .empty, #[⟨"Count", parameters, none, .counter⟩], some ⟨0⟩⟩⟩

/-- The counter about to run on one of two trees that look the same. -/
def tally : Context := .frame ⟨1⟩ ⟨0⟩ ⟨0⟩ [⟨0⟩] (.root ⟨0⟩ tallyGraph ⟨0⟩)

/-- What is counted in the one tree leaves the other alone. -/
theorem effects_local_tally :
    (∃ op, tally.operator = .ok op ∧
      tally.Effects op sown.heap (tally.execute ⟨⟨0⟩, none⟩ sown).2.heap ∧
      (tally.execute ⟨⟨0⟩, none⟩ sown).2.heap.value ⟨2⟩ = .int 8) ∧
    ∃ e w, Engine.Underway tallyGraph ⟨0⟩ sown e w ∧ w.heap.value ⟨2⟩ = .int 8 ∧
      w.heap.scope ⟨1⟩ = sown.heap.scope ⟨1⟩ ∧ w.heap.value ⟨3⟩ = .int 7 := by
  have hrun : ∃ e w events x, (Engine.ofConfig .standard ⟨0⟩).prepare tallyGraph ⟨0⟩ sown =
      ⟨.ok (), e, w, events⟩ ∧ e.call 9 w .start = some x ∧ x.world.heap.value ⟨2⟩ = .int 8 :=
    ⟨_, _, _, _, rfl, rfl, rfl⟩
  obtain ⟨e, w, events, x, hprep, hcall, hvalue⟩ := hrun
  have hu : x.engine.Underway tallyGraph ⟨0⟩ sown x.world := .called (.prepared hprep) hcall
  -- The scope that is prepared has no sub-scopes.
  have hbelow : ∀ t, sown.heap.Below ⟨0⟩ t → t = ⟨0⟩ := by
    intro t ht
    induction ht with
    | self => rfl
    | child _ hc ih =>
        rw [ih] at hc
        cases hc
  have hscope : ¬ sown.heap.Below ⟨0⟩ ⟨1⟩ := fun h => absurd (hbelow _ h) (by decide)
  have hitem : ∀ t name, sown.heap.binding? t name = some ⟨3⟩ → ¬ sown.heap.Below ⟨0⟩ t := by
    intro t name hbound ht
    rw [hbelow t ht, sown_forest.toSound.binding?_iff] at hbound
    exact absurd (Prod.mk.inj (List.mem_singleton.mp hbound)).2 (by decide)
  obtain ⟨hexecution, hruns⟩ := Engine.effects_local
  refine ⟨⟨_, rfl, ?_, rfl⟩, x.engine, x.world, hu, hvalue, ?_⟩
  · refine hexecution tally _ ⟨⟨0⟩, none⟩ sown rfl rfl sown_forest fun t ht => ?_
    obtain rfl := List.mem_singleton.mp ht
    decide
  · obtain ⟨hspares, -⟩ := hruns x.engine tallyGraph ⟨0⟩ sown x.world hu sown_forest (by decide)
    exact ⟨(hspares.scope ⟨1⟩ (by decide) hscope).1,
      (hspares.item ⟨3⟩ (by decide) hitem).1.trans rfl⟩

end Sample

end ScopeFlow
