import ScopeFlow.Proofs.Clone.Forest
import ScopeFlow.Proofs.Likeness.Schedule

/-!
# Sessions as renamings

What a session has copied from a region is a renaming, and by it the heap
before agrees with the heap since, if no operator gets another number
(`CopiedAll.agree`). A copying yields what
it should if it keeps the invariant, adds to the renaming, and answers what is
alike by it; the rules follow the ways in which copyings are put together.
-/

namespace ScopeFlow

/-! ## Numbers of operators -/

/-- An operator that refers to others by other numbers. -/
def Operator.mapOperators (φ : OperatorId → OperatorId) (op : Operator) : Operator :=
  { op with successor := op.successor.map φ, kind := op.kind.mapOperators φ }

/-- A graph whose operators refer to one another by other numbers. -/
def Graph.mapOperators (φ : OperatorId → OperatorId) (g : Graph) : Graph :=
  { g with operators := g.operators.map (Operator.mapOperators φ), initial := g.initial.map φ }

/-- A context for an operator of another number, below the same parent. -/
def Context.mapOperators (φ : OperatorId → OperatorId) : Context → Context
  | root id g s => root id g s
  | frame id op s trail p => frame id (φ op) s (trail.map φ) p

@[simp] theorem OperatorKind.mapOperators_id (kind : OperatorKind) :
    kind.mapOperators id = kind := by
  cases kind <;> simp [mapOperators]

@[simp] theorem Operator.mapOperators_id (op : Operator) : op.mapOperators id = op := by
  simp [mapOperators]

@[simp] theorem Graph.mapOperators_id (g : Graph) : g.mapOperators id = g := by
  have hid : Operator.mapOperators id = id := funext Operator.mapOperators_id
  simp [mapOperators, hid]

theorem Context.mapOperators_eq {φ : OperatorId → OperatorId} (hφ : ∀ op, φ op = op)
    (ctx : Context) : ctx.mapOperators φ = ctx := by
  have hid : φ = fun op => op := funext hφ
  cases ctx <;> simp [mapOperators, hid]

section

variable (φ : OperatorId → OperatorId) (ctx : Context)

@[simp] theorem Context.scope_mapOperators : (ctx.mapOperators φ).scope = ctx.scope := by
  cases ctx <;> rfl

@[simp] theorem Context.parent?_mapOperators : (ctx.mapOperators φ).parent? = ctx.parent? := by
  cases ctx <;> rfl

@[simp] theorem Context.operatorId?_mapOperators :
    (ctx.mapOperators φ).operatorId? = ctx.operatorId?.map φ := by
  cases ctx <;> rfl

@[simp] theorem Context.trail_mapOperators : (ctx.mapOperators φ).trail = ctx.trail.map φ := by
  cases ctx <;> rfl

end

/-! ## What has been copied -/

/-- What has been copied from a region, and to what. -/
def Copying.renaming (P : Region) (c : Copying) : Renaming where
  items := c.session.itemTo
  scopes := c.session.scopeTo
  graphs g g' := P.graphs g ∧ c.session.graphs.lookup g.id = some g'
  contexts x y := P.contexts x ∧ c.session.contexts.lookup x.id = some y
  outer _ := False

theorem Copying.Later.within {P : Region} {own : ScopeId → Prop} {c c' : Copying}
    (h : c.Later own c') : (c.renaming P).Within (c'.renaming P) where
  items := h.item
  scopes := h.scope
  graphs := by
    intro g g' hg
    refine ⟨hg.1, ?_⟩
    rw [h.graphs]
    exact hg.2
  contexts := by
    intro x y hx
    refine ⟨hx.1, ?_⟩
    rw [h.contexts]
    exact hx.2
  outer := id

/-- The invariant of copying from a region while no scope is being copied. -/
structure CopiedAll (P : Region) (φ : OperatorId → OperatorId) (h₀ : Heap) (c : Copying) : Prop
    extends Copied P φ h₀ (fun _ => False) c where
  graph : ∀ {g g'}, (c.renaming P).graphs g g' →
    h₀.graphs ≤ g'.id.index ∧ g'.id.index < c.heap.graphs ∧
      (g.graph.mapOperators φ).Alike (c.renaming P) g'.graph
  graph_inj : ∀ {g₁ g₁' g₂ g₂'}, (c.renaming P).graphs g₁ g₁' → (c.renaming P).graphs g₂ g₂' →
    g₁'.id = g₂'.id → g₁ = g₂
  context : ∀ {x y}, (c.renaming P).contexts x y →
    h₀.contexts ≤ y.id.index ∧ y.id.index < c.heap.contexts ∧
      (x.mapOperators φ).Alike (c.renaming P) y
  context_inj : ∀ {x y x' y'}, (c.renaming P).contexts x y → (c.renaming P).contexts x' y' →
    y.id = y'.id → x = x'
  graphKeys : (c.session.graphs.map Prod.fst).Nodup
  contextKeys : (c.session.contexts.map Prod.fst).Nodup
  graph_of_key : ∀ id ∈ c.session.graphs.map Prod.fst, ∃ g, P.graphs g ∧ g.id = id
  context_of_key : ∀ id ∈ c.session.contexts.map Prod.fst, ∃ x, P.contexts x ∧ x.id = id

/-- Some changes of a session, besides which the graphs and contexts of other
identities stay as they are. -/
structure Advance (P : Region) (φ : OperatorId → OperatorId) (h₀ : Heap) (G : GraphId → Prop)
    (C : ContextId → Prop) (c c' : Copying) : Prop where
  copied : CopiedAll P φ h₀ c'
  within : (c.renaming P).Within (c'.renaming P)
  graphs : ∀ id, ¬ G id → c'.session.graphs.lookup id = c.session.graphs.lookup id
  contexts : ∀ id, ¬ C id → c'.session.contexts.lookup id = c.session.contexts.lookup id
  linked : h₀.Forest → c.Linked h₀ → c'.Linked h₀

section

variable {P : Region} {φ : OperatorId → OperatorId} {h₀ : Heap} {G G' : GraphId → Prop}
  {C C' : ContextId → Prop} {c c' c'' : Copying}

/-- The heap that is copied from agrees with the heap since. -/
theorem CopiedAll.agree (hP : P.Closed h₀) (hsilent : ∀ {g}, P.graphs g → g.Silent)
    (hc : CopiedAll P id h₀ c) : Agree (c.renaming P) h₀ c.heap where
  item := by
    intro i j hij
    obtain ⟨hi, -, hj, hv⟩ := hc.item hij
    exact ⟨hP.item hi, hj, by rw [hv, Value.mapOperator_id]⟩
  item_iff := hc.item_iff
  scope := by
    intro s t hst
    obtain ⟨hs, -, ht, hparent⟩ := hc.scope hst
    obtain ⟨hname, hbindings, hchildren⟩ := hc.content hst id
    exact ⟨hP.scope hs, ht, hname, hbindings, hP.sorted hs, hchildren,
      fun q hq => .inl (hparent q hq)⟩
  scope_iff := hc.scope_iff
  graph := by
    intro g g' hg
    obtain ⟨-, hlt, hal⟩ := hc.graph hg
    rw [Graph.mapOperators_id] at hal
    exact ⟨hP.graph hg.1, hlt, hsilent hg.1, hal⟩
  graph_id := by
    intro g₁ g₁' g₂ g₂' h₁ h₂ hid
    have heq : g₁ = g₂ := hid.elim (hP.graph_id h₁.1 h₂.1) (hc.graph_inj h₁ h₂)
    subst heq
    exact ⟨rfl, Option.some.inj (h₁.2.symm.trans h₂.2)⟩
  context := by
    intro x y hxy
    obtain ⟨-, hlt, hal⟩ := hc.context hxy
    rw [Context.mapOperators_eq (φ := id) fun _ => rfl] at hal
    exact ⟨(hP.context hxy.1).1, hlt, hal⟩
  context_id := by
    intro x y x' y' h₁ h₂ hid
    have heq : x = x' := hid.elim (hP.context_id h₁.1 h₂.1) (hc.context_inj h₁ h₂)
    subst heq
    exact ⟨rfl, Option.some.inj (h₁.2.symm.trans h₂.2)⟩
  outer := False.elim
  rooted := hP.rooted
  rooted' := hc.rooted
  ranked := by
    obtain ⟨rank, hrank⟩ := hP.ranked
    exact ⟨rank, fun s ⟨_, hst⟩ => hrank s (hc.scope hst).1⟩

/-- The invariant holds before anything is copied. -/
theorem CopiedAll.start (hP : P.Closed h₀) (ops : List (OperatorId × OperatorId)) :
    CopiedAll P (Session.mapping ops).operator h₀ ⟨.mapping ops, h₀⟩ where
  toCopied := .start hP.rooted ops
  graph := fun h => by cases h.2
  graph_inj := fun h => by cases h.2
  context := fun h => by cases h.2
  context_inj := fun h => by cases h.2
  graphKeys := .nil
  contextKeys := .nil
  graph_of_key := fun _ h => by cases h
  context_of_key := fun _ h => by cases h

/-- The invariant holds before anything is copied in an empty session. -/
theorem CopiedAll.start_empty (hP : P.Closed h₀) : CopiedAll P id h₀ ⟨.empty, h₀⟩ :=
  .start hP []

/-- Copying items and scopes keeps what is known about graphs and contexts. -/
theorem CopiedAll.later {own : ScopeId → Prop} (hc : CopiedAll P φ h₀ c)
    (hc' : Copied P φ h₀ (fun _ => False) c') (hl : c.Later own c') : CopiedAll P φ h₀ c' := by
  have hgraphs : (c'.renaming P).graphs = (c.renaming P).graphs := by
    unfold Copying.renaming
    rw [hl.graphs]
  have hcontexts : (c'.renaming P).contexts = (c.renaming P).contexts := by
    unfold Copying.renaming
    rw [hl.contexts]
  exact { hc' with
    graph := by
      intro g g' hg
      rw [hgraphs] at hg
      obtain ⟨hle, hlt, hal⟩ := hc.graph hg
      rw [hl.graphCount]
      exact ⟨hle, hlt, hal.mono hl.within⟩
    graph_inj := by
      rw [hgraphs]
      exact hc.graph_inj
    context := by
      intro x y hxy
      rw [hcontexts] at hxy
      obtain ⟨hle, hlt, hal⟩ := hc.context hxy
      rw [hl.contextCount]
      exact ⟨hle, hlt, hal.mono hl.within⟩
    context_inj := by
      rw [hcontexts]
      exact hc.context_inj
    graphKeys := by
      rw [hl.graphs]
      exact hc.graphKeys
    contextKeys := by
      rw [hl.contexts]
      exact hc.contextKeys
    graph_of_key := by
      rw [hl.graphs]
      exact hc.graph_of_key
    context_of_key := by
      rw [hl.contexts]
      exact hc.context_of_key }

namespace Advance

theorem refl (hc : CopiedAll P φ h₀ c) : Advance P φ h₀ G C c c :=
  ⟨hc, .refl, fun _ _ => rfl, fun _ _ => rfl, fun _ hl => hl⟩

theorem trans (h : Advance P φ h₀ G C c c') (h' : Advance P φ h₀ G C c' c'') :
    Advance P φ h₀ G C c c'' where
  copied := h'.copied
  within := h.within.trans h'.within
  graphs := fun id hid => (h'.graphs id hid).trans (h.graphs id hid)
  contexts := fun id hid => (h'.contexts id hid).trans (h.contexts id hid)
  linked := fun hf hl => h'.linked hf (h.linked hf hl)

theorem mono (h : Advance P φ h₀ G C c c') (hgs : ∀ id, G id → G' id)
    (hcs : ∀ id, C id → C' id) : Advance P φ h₀ G' C' c c' where
  copied := h.copied
  within := h.within
  graphs := fun id hid => h.graphs id fun h => hid (hgs id h)
  contexts := fun id hid => h.contexts id fun h => hid (hcs id h)
  linked := h.linked

theorem later {own : ScopeId → Prop} (hc : CopiedAll P φ h₀ c)
    (hc' : Copied P φ h₀ (fun _ => False) c') (hl : c.Later own c')
    (hlinked : h₀.Forest → c.Linked h₀ → c'.Linked h₀) : Advance P φ h₀ G C c c' where
  copied := hc.later hc' hl
  within := hl.within
  graphs := fun id _ => by rw [hl.graphs]
  contexts := fun id _ => by rw [hl.contexts]
  linked := hlinked

end Advance

end

/-! ## Rules -/

/-- From any session that has copied what `ρ` says, a copying goes on to one
whose answer is as `R` says. -/
def Copy.Yields {α : Type} (P : Region) (φ : OperatorId → OperatorId) (h₀ : Heap)
    (G : GraphId → Prop) (C : ContextId → Prop) (ρ : Renaming) (R : Renaming → α → Prop)
    (x : Copy α) : Prop :=
  ∀ c, CopiedAll P φ h₀ c → ρ.Within (c.renaming P) →
    Advance P φ h₀ G C c (x c).2 ∧ R ((x c).2.renaming P) (x c).1

namespace Copy.Yields

variable {α β : Type} {P : Region} {φ : OperatorId → OperatorId} {h₀ : Heap}
  {G G' : GraphId → Prop} {C C' : ContextId → Prop} {ρ : Renaming} {R : Renaming → α → Prop}
  {S : Renaming → β → Prop} {x : Copy α}

theorem pure {a : α} (h : ∀ ρ', ρ.Within ρ' → R ρ' a) :
    Yields P φ h₀ G C ρ R (Pure.pure a : Copy α) :=
  fun _ hc hw => ⟨.refl hc, h _ hw⟩

theorem bind {f : α → Copy β} (hx : Yields P φ h₀ G C ρ R x)
    (hf : ∀ ρ' a, ρ.Within ρ' → R ρ' a → Yields P φ h₀ G C ρ' S (f a)) :
    Yields P φ h₀ G C ρ S (x >>= f) := by
  intro c hc hw
  obtain ⟨hadv, ha⟩ := hx c hc hw
  obtain ⟨hadv', hb⟩ := hf _ _ (hw.trans hadv.within) ha _ hadv.copied .refl
  exact ⟨hadv.trans hadv', hb⟩

theorem mono (hx : Yields P φ h₀ G C ρ R x) (hgs : ∀ id, G id → G' id)
    (hcs : ∀ id, C id → C' id) : Yields P φ h₀ G' C' ρ R x := by
  intro c hc hw
  obtain ⟨hadv, ha⟩ := hx c hc hw
  exact ⟨hadv.mono hgs hcs, ha⟩

/-- The session maps operators as it does all along. -/
theorem session : Yields P φ h₀ G C ρ (fun _ σ => σ.operator = φ) Copy.session :=
  fun _ hc _ => ⟨.refl hc, hc.operators⟩

theorem item (hP : P.Closed h₀) {i : ItemId} (hi : P.items i) :
    Yields P φ h₀ G C ρ (fun ρ' => ρ'.items i) i.copy := by
  intro c hc _
  obtain ⟨hc', hl, hto, -⟩ := ItemId.copy_copied hP hc.toCopied hi
  obtain ⟨hheap, hsession⟩ := i.copy_scopes c
  exact ⟨.later hc hc' hl fun _ hlinked => hlinked.of_scopes hheap hsession, hto⟩

theorem item? (hP : P.Closed h₀) {i? : Option ItemId} (hi : ∀ i ∈ i?.toList, P.items i) :
    Yields P φ h₀ G C ρ (fun ρ' => Option.Rel ρ'.items i?) (copyItem? i?) := by
  cases i? with
  | none => exact .pure fun _ _ => .none
  | some i =>
      refine .bind (.item hP (hi i (by simp))) fun ρ' j _ hij => ?_
      exact .pure fun _ hw => .some (hw.items hij)

theorem scope (hP : P.Closed h₀) {s : ScopeId} (hs : P.scopes s) :
    Yields P φ h₀ G C ρ (fun ρ' => ρ'.scopes s) s.copy := by
  intro c hc _
  obtain ⟨rank, hrank⟩ := hP.ranked
  have h := ScopeId.copy_copied hP hrank hc.toCopied hs
  exact ⟨.later hc h.copied h.later fun hf hlinked =>
    ScopeId.copy_linked hP hf hc.toCopied hlinked hs, h.found⟩

end Copy.Yields

end ScopeFlow
