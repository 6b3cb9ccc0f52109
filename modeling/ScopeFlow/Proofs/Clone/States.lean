import ScopeFlow.Engine.Clone
import ScopeFlow.Proofs.Clone.Sessions

/-!
# Copies of graphs, contexts and engines

Each copying yields something alike by the session that it leaves. A context
is registered after the frames above it, which are other contexts, so that its
own identity is still free by then.
-/

namespace ScopeFlow

open Copy

variable {P : Region} {φ : OperatorId → OperatorId} {h₀ : Heap} {G : GraphId → Prop}
  {C : ContextId → Prop} {ρ : Renaming}

/-! ## Graphs -/

theorem Parameter.copy_yields (hP : P.Closed h₀) {p : Parameter} (hp : ∀ i ∈ p.held, P.items i) :
    Yields P φ h₀ G C ρ (fun ρ' q => p.Alike ρ' q) p.copy := by
  unfold Parameter.copy
  refine .bind (.item? hP fun i hi => hp i (List.mem_append_left _ hi)) ?_
  intro ρ' default _ hdefault
  refine .bind (.item? hP fun i hi => hp i (List.mem_append_right _ hi)) ?_
  intro ρ'' fixed hw hfixed
  exact .pure fun σ hw' => ⟨rfl, rfl, rfl, rfl, rel_imp (hw.trans hw').items hdefault,
    rel_imp hw'.items hfixed⟩

theorem copyParameterList_yields (hP : P.Closed h₀) (ps : List Parameter)
    (hps : ∀ p ∈ ps, ∀ i ∈ p.held, P.items i) :
    Yields P φ h₀ G C ρ (fun ρ' => List.Forall₂ (Parameter.Alike ρ') ps)
      (copyParameterList ps) := by
  induction ps generalizing ρ with
  | nil => exact .pure fun _ _ => .nil
  | cons p ps ih =>
      rw [copyParameterList]
      refine .bind (Parameter.copy_yields hP (hps p List.mem_cons_self)) fun ρ' q _ hq => ?_
      refine .bind (ih fun p hp => hps p (List.mem_cons_of_mem _ hp)) fun ρ'' qs hw hqs => ?_
      exact .pure fun σ hw' => .cons (hq.mono (hw.trans hw')) (hqs.imp fun _ _ h => h.mono hw')

theorem Parameters.copy_yields (hP : P.Closed h₀) {ps : Parameters}
    (hps : ∀ i ∈ ps.held, P.items i) :
    Yields P φ h₀ G C ρ (fun ρ' qs => ps.Alike ρ' qs) ps.copy := by
  unfold Parameters.copy
  refine .bind (copyParameterList_yields hP ps.list fun p hp i hi => ?_) fun ρ' qs _ hqs => ?_
  · exact hps i (List.mem_flatMap.mpr ⟨p, hp, hi⟩)
  · have hall : ps.Alike ρ' ⟨qs⟩ := hqs
    exact .pure fun σ hw => hall.mono hw

theorem Operator.copy_yields (hP : P.Closed h₀) {op : Operator}
    (hop : ∀ i ∈ op.parameters.held, P.items i) :
    Yields P φ h₀ G C ρ (fun ρ' op' => (op.mapOperators φ).Alike ρ' op') op.copy := by
  unfold Operator.copy
  refine .bind (Parameters.copy_yields hP hop) fun ρ' ps _ hps => ?_
  refine .bind .session fun ρ'' σ hw hσ => .pure fun τ hw' => ⟨rfl, ?_, ?_, ?_⟩
  · exact hps.mono (hw.trans hw')
  · rw [hσ]
    rfl
  · rw [hσ]
    rfl

theorem copyOperators_yields (hP : P.Closed h₀) (ops : List Operator)
    (hops : ∀ op ∈ ops, ∀ i ∈ op.parameters.held, P.items i) :
    Yields P φ h₀ G C ρ (fun ρ' ops' => List.Forall₂ (fun op op' =>
      (op.mapOperators φ).Alike ρ' op') ops ops') (copyOperators ops) := by
  induction ops generalizing ρ with
  | nil => exact .pure fun _ _ => .nil
  | cons op ops ih =>
      rw [copyOperators]
      refine .bind (Operator.copy_yields hP (hops op List.mem_cons_self)) fun ρ' op' _ hop => ?_
      refine .bind (ih fun o ho => hops o (List.mem_cons_of_mem _ ho)) fun ρ'' ops' hw h => ?_
      exact .pure fun σ hw' => .cons (hop.mono (hw.trans hw')) (h.imp fun _ _ ho => ho.mono hw')

theorem Graph.copy_yields (hP : P.Closed h₀) {g : Graph} (hg : ∀ i ∈ g.held, P.items i) :
    Yields P φ h₀ G C ρ (fun ρ' g' => (g.mapOperators φ).Alike ρ' g') g.copy := by
  unfold Graph.copy
  refine .bind (Parameters.copy_yields hP fun i hi => hg i (List.mem_append_left _ hi)) ?_
  intro ρ' ps _ hps
  refine .bind (copyOperators_yields hP g.operators.toList ?_) ?_
  · intro op hop i hi
    exact hg i (List.mem_append_right _ (List.mem_flatMap.mpr ⟨op, hop, hi⟩))
  · intro ρ'' ops hw hops
    refine .bind .session fun ρ₃ σ hw' hσ => .pure fun τ hw'' => ⟨rfl, ?_, ?_, ?_⟩
    · exact hps.mono (hw.trans (hw'.trans hw''))
    · show List.Forall₂ _ (g.operators.map (Operator.mapOperators φ)).toList ops
      rw [Array.toList_map, List.forall₂_map_left_iff]
      exact hops.imp fun _ _ ho => ho.mono (hw'.trans hw'')
    · rw [hσ]
      rfl

theorem SharedGraph.copy_found {g g' : SharedGraph} {c : Copying}
    (h : c.session.graphs.lookup g.id = some g') : g.copy c = (g', c) := by
  rw [SharedGraph.copy, Copy.bind_apply]
  simp only [Copy.session_apply, h]
  rfl

/-- A copying after putting the copy of a graph to use. -/
def Copying.registerGraph (c : Copying) (id : GraphId) (g : Graph) : Copying :=
  ⟨{ c.session with graphs := (id, ⟨⟨c.heap.graphs⟩, g⟩) :: c.session.graphs },
    c.heap.newGraph.2⟩

theorem SharedGraph.copy_fresh {g : SharedGraph} {c : Copying}
    (h : c.session.graphs.lookup g.id = none) :
    g.copy c = (⟨⟨(g.graph.copy c).2.heap.graphs⟩, (g.graph.copy c).1⟩,
      (g.graph.copy c).2.registerGraph g.id (g.graph.copy c).1) := by
  rw [SharedGraph.copy, Copy.bind_apply]
  simp only [Copy.session_apply, h]
  rfl

theorem registerGraph_advance {c : Copying} (hP : P.Closed h₀) (hc : CopiedAll P φ h₀ c)
    {g : SharedGraph} {g' : Graph} (hg : P.graphs g)
    (hno : c.session.graphs.lookup g.id = none)
    (hal : (g.graph.mapOperators φ).Alike (c.renaming P) g') :
    Advance P φ h₀ (fun _ => True) C c (c.registerGraph g.id g') := by
  have hne : ∀ {x : SharedGraph} {x'}, c.session.graphs.lookup x.id = some x' → x.id ≠ g.id := by
    intro x x' hx heq
    rw [heq, hno] at hx
    cases hx
  have hw : (c.renaming P).Within ((c.registerGraph g.id g').renaming P) :=
    { (Renaming.Within.refl : (c.renaming P).Within (c.renaming P)) with
      graphs := fun hx => ⟨hx.1, lookup_cons_iff.mpr (.inr ⟨hne hx.2, hx.2⟩)⟩ }
  refine ⟨?_, hw, fun _ h => absurd trivial h, fun _ _ => rfl, fun _ hl => hl.of_scopes rfl rfl⟩
  have hgraph : ∀ {x x'}, ((c.registerGraph g.id g').renaming P).graphs x x' →
      x = g ∧ x' = ⟨⟨c.heap.graphs⟩, g'⟩ ∨ (c.renaming P).graphs x x' := by
    rintro x x' ⟨hx, hl⟩
    rcases lookup_cons_iff.mp hl with ⟨hid, heq⟩ | ⟨-, hold⟩
    · exact .inl ⟨hP.graph_id hx hg hid, heq.symm⟩
    · exact .inr ⟨hx, hold⟩
  exact { hc with
    kept := hc.kept.trans .newGraph
    content := fun hst hb => (hc.content hst hb).mono hw.items hw.scopes
    graph := by
      intro x x' hx
      rcases hgraph hx with ⟨rfl, rfl⟩ | hold
      · exact ⟨hc.kept.graphs, Nat.lt_succ_self _, hal.mono hw⟩
      · obtain ⟨hle, hlt, hal'⟩ := hc.graph hold
        exact ⟨hle, Nat.lt_succ_of_lt hlt, hal'.mono hw⟩
    graph_inj := by
      intro x x' y y' hx hy hid
      rcases hgraph hx with ⟨rfl, rfl⟩ | hold
      · rcases hgraph hy with ⟨rfl, -⟩ | hold'
        · rfl
        · have hlt := (hc.graph hold').2.1
          rw [← hid] at hlt
          exact absurd hlt (Nat.lt_irrefl _)
      · rcases hgraph hy with ⟨rfl, rfl⟩ | hold'
        · have hlt := (hc.graph hold).2.1
          rw [hid] at hlt
          exact absurd hlt (Nat.lt_irrefl _)
        · exact hc.graph_inj hold hold' hid
    context := by
      intro x y hxy
      obtain ⟨hle, hlt, hal'⟩ := hc.context hxy
      exact ⟨hle, hlt, hal'.mono hw⟩
    context_inj := hc.context_inj
    graphKeys := List.nodup_cons.mpr ⟨not_mem_keys hno, hc.graphKeys⟩
    graph_of_key := by
      intro id hid
      rcases List.mem_cons.mp hid with rfl | hold
      · exact ⟨g, hg, rfl⟩
      · exact hc.graph_of_key id hold }

theorem SharedGraph.copy_yields (hP : P.Closed h₀) {g : SharedGraph} (hg : P.graphs g) :
    Yields P φ h₀ (fun _ => True) C ρ (fun ρ' g' => ρ'.graphs g g') g.copy := by
  intro c hc _
  cases hfound : c.session.graphs.lookup g.id with
  | some g' =>
      rw [copy_found hfound]
      exact ⟨.refl hc, hg, hfound⟩
  | none =>
      rw [copy_fresh hfound]
      obtain ⟨hadv, hal⟩ := Graph.copy_yields (G := fun _ => False) (C := C) hP (hP.held hg)
        c hc .refl
      have hno := hadv.graphs g.id False.elim
      rw [hfound] at hno
      refine ⟨(hadv.mono (fun _ _ => trivial) fun _ h => h).trans
        (registerGraph_advance hP hadv.copied hg hno hal), hg, ?_⟩
      exact lookup_cons_iff.mpr (.inl ⟨rfl, rfl⟩)

/-! ## Contexts -/

theorem Region.Closed.context_graph (hP : P.Closed h₀) {ctx : Context} (h : P.contexts ctx) :
    P.graphs ctx.graph := by
  induction ctx with
  | root id g s => exact (hP.context h).2.1
  | frame id op s trail p ih => exact ih (hP.context h).2.2

theorem Region.Closed.context_scope (hP : P.Closed h₀) {ctx : Context} (h : P.contexts ctx) :
    P.scopes ctx.scope := by
  cases ctx with
  | root id g s => exact (hP.context h).2.2
  | frame id op s trail p => exact (hP.context h).2.1

theorem Region.Closed.context_parent (hP : P.Closed h₀) {ctx p : Context} (h : P.contexts ctx)
    (hp : ctx.parent? = some p) : P.contexts p := by
  cases ctx with
  | root id g s => cases hp
  | frame id op s trail p' =>
      cases hp
      exact (hP.context h).2.2

theorem Context.depth_le {ctx x : Context} (hx : x ∈ ctx.chain) : x.depth ≤ ctx.depth := by
  induction ctx with
  | root id g s =>
      obtain rfl := List.mem_singleton.mp hx
      exact Nat.le_refl _
  | frame id op s trail p ih =>
      rcases List.mem_cons.mp hx with rfl | hx
      · exact Nat.le_refl _
      · exact Nat.le_succ_of_le (ih hx)

theorem Region.Closed.mem_chain (hP : P.Closed h₀) {ctx x : Context} (h : P.contexts ctx)
    (hx : x ∈ ctx.chain) : P.contexts x := by
  induction ctx with
  | root id g s =>
      rw [Context.chain, List.mem_singleton] at hx
      rw [hx]
      exact h
  | frame id op s trail p ih =>
      rw [Context.chain, List.mem_cons] at hx
      rcases hx with rfl | hx
      · exact h
      · exact ih (hP.context h).2.2 hx

/-- A copying after registering the copy of a context. -/
def Copying.registerContext (c : Copying) (x y : Context) : Copying :=
  ⟨{ c.session with contexts := (x.id, y) :: c.session.contexts }, c.heap.newContext.2⟩

theorem registerContext_advance {c : Copying} (hP : P.Closed h₀) (hc : CopiedAll P φ h₀ c)
    {x y : Context} (hx : P.contexts x) (hno : c.session.contexts.lookup x.id = none)
    (hid : y.id = ⟨c.heap.contexts⟩) (hal : (x.mapOperators φ).Alike (c.renaming P) y) :
    Advance P φ h₀ G (fun id => id = x.id) c (c.registerContext x y) := by
  have hne : ∀ {a : Context} {b}, c.session.contexts.lookup a.id = some b → a.id ≠ x.id := by
    intro a b ha heq
    rw [heq, hno] at ha
    cases ha
  have hw : (c.renaming P).Within ((c.registerContext x y).renaming P) :=
    { (Renaming.Within.refl : (c.renaming P).Within (c.renaming P)) with
      contexts := fun ha => ⟨ha.1, lookup_cons_iff.mpr (.inr ⟨hne ha.2, ha.2⟩)⟩ }
  refine ⟨?_, hw, fun _ _ => rfl, fun id h => ?_, fun _ hl => hl.of_scopes rfl rfl⟩
  · have hcontext : ∀ {a b}, ((c.registerContext x y).renaming P).contexts a b →
        a = x ∧ b = y ∨ (c.renaming P).contexts a b := by
      rintro a b ⟨ha, hl⟩
      rcases lookup_cons_iff.mp hl with ⟨heq, heq'⟩ | ⟨-, hold⟩
      · exact .inl ⟨hP.context_id ha hx heq, heq'.symm⟩
      · exact .inr ⟨ha, hold⟩
    exact { hc with
      kept := hc.kept.trans .newContext
      content := fun hst hb => (hc.content hst hb).mono hw.items hw.scopes
      graph := by
        intro g g' hg
        obtain ⟨hle, hlt, hal'⟩ := hc.graph hg
        exact ⟨hle, hlt, hal'.mono hw⟩
      graph_inj := hc.graph_inj
      context := by
        intro a b hab
        rcases hcontext hab with ⟨rfl, rfl⟩ | hold
        · rw [hid]
          exact ⟨hc.kept.contexts, Nat.lt_succ_self _, hal.mono hw⟩
        · obtain ⟨hle, hlt, hal'⟩ := hc.context hold
          exact ⟨hle, Nat.lt_succ_of_lt hlt, hal'.mono hw⟩
      -- Copies made before have smaller identities than the one that is made now.
      context_inj := by
        intro a b a' b' hab hab' hids
        rcases hcontext hab with ⟨rfl, rfl⟩ | hold
        · rcases hcontext hab' with ⟨rfl, -⟩ | hold'
          · rfl
          · have hlt := (hc.context hold').2.1
            rw [← hids, hid] at hlt
            exact absurd hlt (Nat.lt_irrefl _)
        · rcases hcontext hab' with ⟨rfl, rfl⟩ | hold'
          · have hlt := (hc.context hold).2.1
            rw [hids, hid] at hlt
            exact absurd hlt (Nat.lt_irrefl _)
          · exact hc.context_inj hold hold' hids
      contextKeys := List.nodup_cons.mpr ⟨not_mem_keys hno, hc.contextKeys⟩
      context_of_key := by
        intro id hid
        rcases List.mem_cons.mp hid with rfl | hold
        · exact ⟨x, hx, rfl⟩
        · exact hc.context_of_key id hold }
  · show ((x.id, y) :: c.session.contexts).lookup id = _
    have hbeq : (id == x.id) = false := by simp [h]
    rw [List.lookup_cons, hbeq]

namespace Context

theorem copy_found {ctx ctx' : Context} {c : Copying}
    (h : c.session.contexts.lookup ctx.id = some ctx') : ctx.copy c = (ctx', c) := by
  cases ctx with
  | root id g s =>
      change c.session.contexts.lookup id = some ctx' at h
      rw [copy, Copy.bind_apply]
      simp only [Copy.session_apply, h]
      rfl
  | frame id op s trail p =>
      change c.session.contexts.lookup id = some ctx' at h
      rw [copy, Copy.bind_apply]
      simp only [Copy.session_apply, h]
      rfl

theorem copy_root_fresh {id : ContextId} {g g' : SharedGraph} {s s' : ScopeId}
    {c c₁ c₂ : Copying} (h : c.session.contexts.lookup id = none) (hg : g.copy c = (g', c₁))
    (hs : s.copy c₁ = (s', c₂)) :
    (root id g s).copy c = (root ⟨c₂.heap.contexts⟩ g' s',
      c₂.registerContext (root id g s) (root ⟨c₂.heap.contexts⟩ g' s')) := by
  rw [copy, Copy.bind_apply]
  simp only [Copy.session_apply, h]
  change (do
    let s' ← s.copy
    let id' ← Copy.make Heap.newContext
    register (root id g s) (root id' (g.copy c).1 s')) (g.copy c).2 = _
  rw [hg]
  change (do
    let id' ← Copy.make Heap.newContext
    register (root id g s) (root id' g' (s.copy c₁).1)) (s.copy c₁).2 = _
  rw [hs]
  rfl

theorem copy_frame_fresh {id : ContextId} {op : OperatorId} {s s' : ScopeId}
    {trail : List OperatorId} {p p' : Context} {g' : SharedGraph} {c c₁ c₂ c₃ : Copying}
    (h : c.session.contexts.lookup id = none) (hg : p.graph.copy c = (g', c₁))
    (hs : s.copy c₁ = (s', c₂)) (hp : p.copy c₂ = (p', c₃)) (hφ : c₃.session.operator = φ) :
    (frame id op s trail p).copy c = (frame ⟨c₃.heap.contexts⟩ (φ op) s' (trail.map φ) p',
      c₃.registerContext (frame id op s trail p)
        (frame ⟨c₃.heap.contexts⟩ (φ op) s' (trail.map φ) p')) := by
  rw [copy, Copy.bind_apply]
  simp only [Copy.session_apply, h]
  change (do
    let s' ← s.copy
    let p' ← p.copy
    let σ ← Copy.session
    let id' ← Copy.make Heap.newContext
    register (frame id op s trail p)
      (frame id' (σ.operator op) s' (trail.map σ.operator) p')) (p.graph.copy c).2 = _
  rw [hg]
  change (do
    let p' ← p.copy
    let σ ← Copy.session
    let id' ← Copy.make Heap.newContext
    register (frame id op s trail p)
      (frame id' (σ.operator op) (s.copy c₁).1 (trail.map σ.operator) p')) (s.copy c₁).2 = _
  rw [hs]
  change (do
    let σ ← Copy.session
    let id' ← Copy.make Heap.newContext
    register (frame id op s trail p)
      (frame id' (σ.operator op) s' (trail.map σ.operator) (p.copy c₂).1)) (p.copy c₂).2 = _
  rw [hp]
  change (do
    let id' ← Copy.make Heap.newContext
    register (frame id op s trail p) (frame id' (c₃.session.operator op) s'
      (trail.map c₃.session.operator) p')) c₃ = _
  rw [hφ]
  rfl

/-- The copy of a context is alike, and registers nothing but its chain. -/
theorem copy_yields (hP : P.Closed h₀) (ctx : Context) :
    ∀ {ρ}, P.contexts ctx →
      Yields P φ h₀ (fun _ => True) (fun id => ∃ x ∈ ctx.chain, x.id = id) ρ
        (fun ρ' ctx' => ρ'.contexts ctx ctx') ctx.copy := by
  induction ctx with
  | root id g s =>
      intro ρ hctx c hc _
      cases hfound : c.session.contexts.lookup id with
      | some ctx' =>
          rw [show (root id g s).copy c = (ctx', c) from copy_found hfound]
          exact ⟨.refl hc, hctx, hfound⟩
      | none =>
          obtain ⟨hg, hs⟩ := (hP.context hctx).2
          obtain ⟨hadv₁, hgg'⟩ := SharedGraph.copy_yields (C := fun _ => False) hP hg c hc .refl
          rcases hg' : g.copy c with ⟨g', c₁⟩
          rw [hg'] at hadv₁ hgg'
          obtain ⟨hadv₂, hss'⟩ := Yields.scope (G := fun _ => True) (C := fun _ => False) hP hs
            c₁ hadv₁.copied .refl
          rcases hs' : s.copy c₁ with ⟨s', c₂⟩
          rw [hs'] at hadv₂ hss'
          have hadv := hadv₁.trans hadv₂
          have hno := hadv.contexts id (fun h => h)
          rw [hfound] at hno
          rw [copy_root_fresh hfound hg' hs']
          refine ⟨(hadv.mono (fun _ h => h) fun _ => False.elim).trans
            ((registerContext_advance hP hadv.copied hctx hno rfl ?_).mono (fun _ h => h) ?_),
            hctx, ?_⟩
          · exact ⟨hadv₂.within.graphs hgg', hss'⟩
          · rintro _ rfl
            exact ⟨_, List.mem_cons_self, rfl⟩
          · exact lookup_cons_iff.mpr (.inl ⟨rfl, rfl⟩)
  | frame id op s trail p ih =>
      intro ρ hctx c hc _
      cases hfound : c.session.contexts.lookup id with
      | some ctx' =>
          rw [show (frame id op s trail p).copy c = (ctx', c) from copy_found hfound]
          exact ⟨.refl hc, hctx, hfound⟩
      | none =>
          obtain ⟨hs, hp⟩ := (hP.context hctx).2
          obtain ⟨hadv₁, -⟩ := SharedGraph.copy_yields (C := fun _ => False) hP
            (hP.context_graph hp) c hc .refl
          rcases hg' : p.graph.copy c with ⟨g', c₁⟩
          rw [hg'] at hadv₁
          obtain ⟨hadv₂, hss'⟩ := Yields.scope (G := fun _ => True) (C := fun _ => False) hP hs
            c₁ hadv₁.copied .refl
          rcases hs' : s.copy c₁ with ⟨s', c₂⟩
          rw [hs'] at hadv₂ hss'
          obtain ⟨hadv₃, hpp'⟩ := ih hp c₂ hadv₂.copied .refl
          rcases hp' : p.copy c₂ with ⟨p', c₃⟩
          rw [hp'] at hadv₃ hpp'
          have hadv := ((hadv₁.trans hadv₂).mono (fun _ h => h) fun _ => False.elim).trans hadv₃
          -- No frame above has the identity of this one.
          have hno := hadv.contexts id (by
            rintro ⟨x, hx, hid⟩
            have heq := hP.context_id (hP.mem_chain hp hx) hctx hid
            have hle := depth_le hx
            rw [heq] at hle
            exact absurd hle (Nat.not_succ_le_self _))
          rw [hfound] at hno
          rw [copy_frame_fresh hfound hg' hs' hp' hadv.copied.operators]
          refine ⟨(hadv.mono (fun _ h => h) ?_).trans
            ((registerContext_advance hP hadv.copied hctx hno rfl ?_).mono (fun _ h => h) ?_),
            hctx, ?_⟩
          · rintro _ ⟨x, hx, rfl⟩
            exact ⟨x, List.mem_cons_of_mem _ hx, rfl⟩
          · exact ⟨rfl, rfl, hadv₃.within.scopes hss', hpp'⟩
          · rintro _ rfl
            exact ⟨_, List.mem_cons_self, rfl⟩
          · exact lookup_cons_iff.mpr (.inl ⟨rfl, rfl⟩)

end Context

/-! ## Operations -/

namespace Operation

mutual

theorem copy_yields (hP : P.Closed h₀) : ∀ (op : Operation) {ρ : Renaming},
    (∀ x ∈ op.contexts, P.contexts x) →
    Yields P φ h₀ (fun _ => True) (fun _ => True) ρ (fun ρ' op' => op.Alike ρ' op') op.copy
  | atomic ctx, _, hop => by
      rw [copy]
      refine .bind ((Context.copy_yields hP ctx (hop ctx List.mem_cons_self)).mono (fun _ h => h)
        fun _ _ => trivial) ?_
      exact fun _ ctx' _ hctx => .pure fun _ hw => .atomic (hw.contexts hctx)
  | sequence ops, _, hop => by
      rw [copy]
      refine .bind (copyAll_yields hP ops hop) ?_
      exact fun _ ops' _ hops => .pure fun _ hw => .sequence (AllAlike.mono hw hops)
  | parallel ops, _, hop => by
      rw [copy]
      refine .bind (copyAll_yields hP ops hop) ?_
      exact fun _ ops' _ hops => .pure fun _ hw => .parallel (AllAlike.mono hw hops)

theorem copyAll_yields (hP : P.Closed h₀) : ∀ (ops : List Operation) {ρ : Renaming},
    (∀ x ∈ contextsOfAll ops, P.contexts x) →
    Yields P φ h₀ (fun _ => True) (fun _ => True) ρ (fun ρ' ops' => AllAlike ρ' ops ops')
      (copyAll ops)
  | [], _, _ => by
      rw [copyAll]
      exact .pure fun _ _ => .nil
  | op :: ops, _, hops => by
      rw [copyAll]
      refine .bind (copy_yields hP op fun x hx => hops x (List.mem_append_left _ hx)) ?_
      intro ρ' op' _ hop'
      refine .bind (copyAll_yields hP ops fun x hx => hops x (List.mem_append_right _ hx)) ?_
      intro ρ'' ops' hw hops'
      exact .pure fun σ hw' => .cons (hop'.mono (hw.trans hw')) (AllAlike.mono hw' hops')

end

theorem mem_contextsOfAll {x : Context} {ops : List Operation} :
    x ∈ contextsOfAll ops ↔ ∃ op ∈ ops, x ∈ op.contexts := by
  induction ops with
  | nil => simp [contextsOfAll]
  | cons op ops ih => simp [contextsOfAll, ih]

end Operation

/-! ## Engines -/

/-- What an engine refers to lies in a region. -/
structure Engine.PartsIn (P : Region) (e : Engine) : Prop where
  scope : ∀ s ∈ e.scope, P.scopes s
  graph : ∀ g ∈ e.graph, P.graphs g
  continuation : ∀ x ∈ Operation.contextsOfAll e.continuation, P.contexts x

/-- Engines in the same state over corresponding trees, graphs and work. -/
structure Engine.Alike (ρ : Renaming) (e e' : Engine) : Prop where
  config : e.config = e'.config
  state : e.state = e'.state
  scope : Option.Rel ρ.scopes e.scope e'.scope
  graph : Option.Rel ρ.graphs e.graph e'.graph
  continuation : Operation.AllAlike ρ e.continuation e'.continuation
  error : e.error = e'.error
  executed : e.executed = e'.executed
  hasRun : e.hasRun = e'.hasRun

namespace Engine

theorem copyScope?_yields (hP : P.Closed h₀) {s? : Option ScopeId} (hs : ∀ s ∈ s?, P.scopes s) :
    Yields P φ h₀ G C ρ (fun ρ' t? => Option.Rel ρ'.scopes s? t?) (copyScope? s?) := by
  cases s? with
  | none => exact .pure fun _ _ => .none
  | some s =>
      refine .bind (.scope hP (hs s rfl)) fun ρ' t _ hst => ?_
      exact .pure fun _ hw => .some (hw.scopes hst)

theorem copyGraph?_yields (hP : P.Closed h₀) {g? : Option SharedGraph}
    (hg : ∀ g ∈ g?, P.graphs g) :
    Yields P φ h₀ (fun _ => True) C ρ (fun ρ' g'? => Option.Rel ρ'.graphs g? g'?)
      (copyGraph? g?) := by
  cases g? with
  | none => exact .pure fun _ _ => .none
  | some g =>
      refine .bind (SharedGraph.copy_yields hP (hg g rfl)) fun ρ' g' _ hgg' => ?_
      exact .pure fun _ hw => .some (hw.graphs hgg')

/-- The copy of an engine is alike, but for its control. -/
theorem copyState_yields (hP : P.Closed h₀) {e : Engine} (he : e.PartsIn P) :
    Yields P φ h₀ (fun _ => True) (fun _ => True) ρ (fun ρ' e' => e.Alike ρ' e') e.copyState := by
  unfold copyState
  refine .bind (copyScope?_yields hP he.scope) fun ρ₁ s _ hs => ?_
  refine .bind (copyGraph?_yields hP he.graph) fun ρ₂ g hw hg => ?_
  refine .bind (Operation.copyAll_yields hP e.continuation.reverse ?_) fun ρ₃ ops hw' hops => ?_
  · intro x hx
    obtain ⟨op, hop, hx⟩ := Operation.mem_contextsOfAll.mp hx
    exact he.continuation x
      (Operation.mem_contextsOfAll.mpr ⟨op, List.mem_reverse.mp hop, hx⟩)
  · refine .pure fun σ hw'' => ⟨rfl, rfl, ?_, ?_, ?_, rfl, rfl, rfl⟩
    · exact rel_imp (hw.trans (hw'.trans hw'')).scopes hs
    · exact rel_imp (hw'.trans hw'').graphs hg
    · have hrev := List.rel_reverse (Operation.AllAlike.mono hw'' hops)
      rw [List.reverse_reverse] at hrev
      exact hrev

end Engine

end ScopeFlow
