import ScopeFlow.Proofs.Operator.Variables

/-!
# Variables that are missing

A creator goes through the parameters of its operator and makes in the bound
scope what they stand for and is not there yet. Two parameters may stand for
one name; the second then finds what has been made for the first.

* `Context.provided` is the default that a name is made with;
* `Heap.Supplied` says that a scope has come to have the variables that were
  missing, and nothing else has changed; it goes on under more of the same
  (`Supplied.trans`), with the earlier defaults before the later ones;
* `Context.createVariables_supplies` says so of the whole row of parameters,
  `Context.createVariables_again` that nothing is left to do then;
* `Context.creator_supplies` is what an execution comes to.
-/

namespace ScopeFlow

variable {ctx : Context} {h h' h'' : Heap} {s t : ScopeId} {name other : String} {d i : ItemId}
  {p : Parameter} {ps : List Parameter} {f g : String → Option ItemId}

/-! ## What parameters provide -/

namespace Context

/-- The default that a parameter offers for a name: the first one that its
resolution has met, if the name is the one that it stands for. -/
def offered (ctx : Context) (p : Parameter) (name : String) : Option ItemId :=
  match ctx.resolve p.name with
  | .ok (.variable n default _) => if n = name then default else none
  | _ => none

/-- The default that some parameters provide for a name: that of the first of
them, in the order of their declaration, that offers one. -/
def provided (ctx : Context) (ps : List Parameter) (name : String) : Option ItemId :=
  ps.findSome? fun p => ctx.offered p name

theorem offered_eq_some_iff : ctx.offered p name = some d ↔
    ∃ type, ctx.resolve p.name = .ok (.variable name (some d) type) := by
  unfold offered
  constructor
  · intro hd
    split at hd
    · next n default type hres =>
      split at hd
      · next hn =>
        subst hn hd
        exact ⟨type, hres⟩
      · cases hd
    · cases hd
  · rintro ⟨type, hres⟩
    simp [hres]

theorem provided_cons : ctx.provided (p :: ps) name =
    (ctx.offered p name).or (ctx.provided ps name) := by
  unfold provided
  rw [List.findSome?_cons]
  cases ctx.offered p name <;> rfl

/-- What is provided is held by a declaration. -/
theorem provided_held (hd : ctx.provided ps name = some d) : d ∈ ctx.graph.graph.held := by
  obtain ⟨p, -, hoffered⟩ := List.exists_of_findSome?_eq_some hd
  obtain ⟨type, hres⟩ := offered_eq_some_iff.mp hoffered
  exact resolve_ok_held hres d rfl

end Context

/-! ## What a scope is supplied with -/

/-- A scope has come to have variables that it lacked, each with an item of its
own that equals the default provided; everything else is as it was. -/
structure Heap.Supplied (h h' : Heap) (s : ScopeId) (provided : String → Option ItemId) : Prop
    extends h.ItemsKept h' where
  elsewhere : ∀ t, t ≠ s → h'.scope t = h.scope t
  /-- The name of the scope and its place in the tree are left alone. -/
  shape : (h'.scope s).name = (h.scope s).name ∧ (h'.scope s).children = (h.scope s).children ∧
    (h'.scope s).parent = (h.scope s).parent
  scopes : h'.scopes.size = h.scopes.size
  /-- What is bound stays so. -/
  bound : ∀ {name i}, h.binding? s name = some i → h'.binding? s name = some i
  /-- What is not bound and not provided stays so. -/
  missing : ∀ {name}, h.binding? s name = none → provided name = none → h'.binding? s name = none
  /-- What is not bound but provided is made. -/
  supplied : ∀ {name d}, h.binding? s name = none → provided name = some d →
    ∃ i : ItemId, h'.binding? s name = some i ∧ h.items.size ≤ i.index ∧
      i.index < h'.items.size ∧ h'.value i = h.value d
  /-- What is made is made for one name. -/
  apart : ∀ {name other} {i : ItemId}, h.items.size ≤ i.index → h'.binding? s name = some i →
    h'.binding? s other = some i → name = other

namespace Heap.Supplied

/-- Nothing is made if everything provided is there. -/
theorem of_bound (hbound : ∀ s name i, h.binding? s name = some i → i.index < h.items.size)
    (hf : ∀ name, h.binding? s name = none → f name = none) : h.Supplied h s f where
  toItemsKept := .refl
  elsewhere := fun _ _ => rfl
  shape := ⟨rfl, rfl, rfl⟩
  scopes := rfl
  bound := id
  missing := fun hnone _ => hnone
  supplied := by
    intro name d hnone hd
    rw [hf name hnone] at hd
    cases hd
  apart := fun hi hname _ => absurd (hbound _ _ _ hname) (Nat.not_lt.mpr hi)

/-- A variable that is made for a default. -/
theorem setVariable (hs : s.index < h.scopes.size)
    (hbound : ∀ s name i, h.binding? s name = some i → i.index < h.items.size)
    (hnone : h.binding? s name = none) (hf : ∀ n, f n = if name = n then some d else none) :
    h.Supplied (h.setVariable s name (h.value d)) s f := by
  have hg : h.Gained (h.setVariable s name (h.value d)) s name ⟨h.items.size⟩ (h.value d) :=
    .setVariable hs
  have hself : ∀ other, (h.setVariable s name (h.value d)).binding? s other =
      if other = name then some ⟨h.items.size⟩ else h.binding? s other := by
    intro other
    rw [hg.binding]
    simp
  have honly : ∀ {n : String} {i : ItemId}, h.items.size ≤ i.index →
      (h.setVariable s name (h.value d)).binding? s n = some i → n = name := by
    intro n i hi hn
    rw [hself] at hn
    split at hn
    · assumption
    · exact absurd (hbound _ _ _ hn) (Nat.not_lt.mpr hi)
  refine ⟨hg.toItemsKept, fun t ht => ?_, hg.shape s, scopes_size_updateScope, ?_, ?_, ?_, ?_⟩
  · exact scope_updateScope_ne ht
  · intro other i hi
    rw [hself, if_neg]
    · exact hi
    · rintro rfl
      rw [hnone] at hi
      cases hi
  · intro other hother hfree
    rw [hself, if_neg]
    · exact hother
    · rintro rfl
      rw [hf, if_pos rfl] at hfree
      cases hfree
  · intro other e _ he
    rw [hf] at he
    split at he
    · next hname =>
      subst hname
      cases he
      exact ⟨⟨h.items.size⟩, by rw [hself, if_pos rfl], hg.fresh, by simp [items_size_setVariable],
        hg.holds⟩
    · cases he
  · intro n other i hi hn hother
    exact (honly hi hn).trans (honly hi hother).symm

/-- What was bound in range still is, and so is what has been made. -/
theorem in_range (hu : h.Supplied h' s f)
    (hbound : ∀ s name i, h.binding? s name = some i → i.index < h.items.size) :
    ∀ t name i, h'.binding? t name = some i → i.index < h'.items.size := by
  intro t name i hi
  by_cases ht : t = s
  · subst ht
    cases hold : h.binding? t name with
    | some j =>
      obtain rfl : j = i := Option.some.inj ((hu.bound hold).symm.trans hi)
      exact Nat.lt_of_lt_of_le (hbound _ _ _ hold) hu.size
    | none =>
      cases hf : f name with
      | none =>
        rw [hu.missing hold hf] at hi
        cases hi
      | some d =>
        obtain ⟨j, hj, -, hlt, -⟩ := hu.supplied hold hf
        obtain rfl : j = i := Option.some.inj (hj.symm.trans hi)
        exact hlt
  · rw [binding?, hu.elsewhere t ht] at hi
    exact Nat.lt_of_lt_of_le (hbound _ _ _ hi) hu.size

/-- What is provided first comes before what is provided later. -/
theorem trans (hu : h.Supplied h' s f) (hu' : h'.Supplied h'' s g)
    (hg : ∀ name d, g name = some d → d.index < h.items.size) :
    h.Supplied h'' s fun name => (f name).or (g name) where
  toItemsKept := hu.toItemsKept.trans hu'.toItemsKept
  elsewhere := fun t ht => (hu'.elsewhere t ht).trans (hu.elsewhere t ht)
  shape := ⟨hu'.shape.1.trans hu.shape.1, hu'.shape.2.1.trans hu.shape.2.1,
    hu'.shape.2.2.trans hu.shape.2.2⟩
  scopes := hu'.scopes.trans hu.scopes
  bound := fun hi => hu'.bound (hu.bound hi)
  missing := by
    intro name hnone hfree
    obtain ⟨hf, hg⟩ := Option.or_eq_none_iff.mp hfree
    exact hu'.missing (hu.missing hnone hf) hg
  supplied := by
    intro name d hnone hd
    rcases Option.or_eq_some_iff.mp hd with hf | ⟨hf, hgd⟩
    · obtain ⟨i, hi, hfresh, hlt, hv⟩ := hu.supplied hnone hf
      exact ⟨i, hu'.bound hi, hfresh, Nat.lt_of_lt_of_le hlt hu'.size, (hu'.value hlt).trans hv⟩
    · obtain ⟨i, hi, hfresh, hlt, hv⟩ := hu'.supplied (hu.missing hnone hf) hgd
      exact ⟨i, hi, Nat.le_trans hu.size hfresh, hlt, hv.trans (hu.value (hg name d hgd))⟩
  apart := by
    intro name other i hi hname hother
    by_cases hlate : h'.items.size ≤ i.index
    · exact hu'.apart hlate hname hother
    · -- What the second row has not made was bound before it, under both names.
      have hbefore : ∀ {n}, h''.binding? s n = some i → h'.binding? s n = some i := by
        intro n hn
        cases hold : h'.binding? s n with
        | some j => rw [← hn, hu'.bound hold]
        | none =>
          exfalso
          cases hgn : g n with
          | none =>
            rw [hu'.missing hold hgn] at hn
            cases hn
          | some e =>
            obtain ⟨j, hj, hfresh, -⟩ := hu'.supplied hold hgn
            obtain rfl : j = i := Option.some.inj (hj.symm.trans hn)
            exact hlate hfresh
      exact hu.apart hi (hbefore hname) (hbefore hother)

end Heap.Supplied

/-! ## Rows of parameters -/

namespace Context

/-- One parameter and the others. -/
theorem createVariables_cons {r : Resolution} (ps : List Parameter) (h : Heap)
    (hres : ctx.resolve p.name = .ok r) :
    ∃ h', ctx.createVariables (p :: ps) h = ctx.createVariables ps h' ∧
      ((∀ name, h.binding? ctx.scope name = none → ctx.offered p name = none) ∧ h' = h ∨
        ∃ name d, h.binding? ctx.scope name = none ∧
          (∀ n, ctx.offered p n = if name = n then some d else none) ∧
          h' = h.setVariable ctx.scope name (h.value d)) := by
  rw [createVariables, Act.bind_apply, Act.ofExcept_apply, hres]
  dsimp only
  cases r with
  | fixed value type => exact ⟨h, rfl, .inl ⟨fun name _ => by simp [offered, hres], rfl⟩⟩
  | «variable» name default type =>
    cases default with
    | none => exact ⟨h, rfl, .inl ⟨fun n _ => by simp [offered, hres], rfl⟩⟩
    | some d =>
      dsimp only
      rw [Act.bind_apply, Act.modify_apply]
      dsimp only
      by_cases hcontains : (h.scope ctx.scope).bindings.contains name = true
      · rw [if_pos hcontains]
        refine ⟨h, rfl, .inl ⟨fun n hn => ?_, rfl⟩⟩
        have hne : name ≠ n := by
          rintro rfl
          rw [Bindings.contains, ← Heap.binding?, hn] at hcontains
          cases hcontains
        simp [offered, hres, hne]
      · rw [if_neg hcontains]
        refine ⟨_, rfl, .inr ⟨name, d, ?_, fun n => by simp [offered, hres], rfl⟩⟩
        rwa [Bindings.contains, ← Heap.binding?, Option.not_isSome_iff_eq_none] at hcontains

/-- The bound scope is supplied with what the parameters provide. -/
theorem createVariables_supplies (hscope : ctx.scope.index < h.scopes.size)
    (hbacks : h.Backs ctx.graph.graph.held)
    (hres : ∀ p ∈ ps, ∃ r, ctx.resolve p.name = .ok r) :
    ∃ h', ctx.createVariables ps h = (.ok (), h') ∧
      h.Supplied h' ctx.scope (ctx.provided ps) := by
  induction ps generalizing h with
  | nil => exact ⟨h, rfl, .of_bound hbacks.bound fun _ _ => rfl⟩
  | cons p ps ih =>
    obtain ⟨r, hr⟩ := hres p List.mem_cons_self
    obtain ⟨h₁, hrest, hfirst⟩ := createVariables_cons ps h hr
    have hu₁ : h.Supplied h₁ ctx.scope (ctx.offered p) := by
      rcases hfirst with ⟨hnone, rfl⟩ | ⟨name, d, hnone, hoffered, rfl⟩
      · exact .of_bound hbacks.bound hnone
      · exact .setVariable hscope hbacks.bound hnone hoffered
    have hbacks₁ : h₁.Backs ctx.graph.graph.held :=
      ⟨hu₁.in_range hbacks.bound, fun i hi => Nat.lt_of_lt_of_le (hbacks.held i hi) hu₁.size⟩
    obtain ⟨h₂, hdone, hu₂⟩ := ih (hu₁.scopes ▸ hscope) hbacks₁
      fun q hq => hres q (List.mem_cons_of_mem p hq)
    refine ⟨h₂, hrest.trans hdone, ?_⟩
    have hboth := hu₁.trans hu₂ fun name d hd => hbacks.held d (provided_held hd)
    have hprovided : ctx.provided (p :: ps) =
        fun name => (ctx.offered p name).or (ctx.provided ps name) := funext fun _ => provided_cons
    rwa [hprovided]

/-- Where everything provided is there, nothing is made. -/
theorem createVariables_again (hres : ∀ p ∈ ps, ∃ r, ctx.resolve p.name = .ok r)
    (hthere : ∀ name, h.binding? ctx.scope name = none → ctx.provided ps name = none) :
    ctx.createVariables ps h = (.ok (), h) := by
  induction ps with
  | nil => rfl
  | cons p ps ih =>
    obtain ⟨r, hr⟩ := hres p List.mem_cons_self
    have hnone : ∀ name, h.binding? ctx.scope name = none →
        ctx.offered p name = none ∧ ctx.provided ps name = none := fun name hname =>
      Option.or_eq_none_iff.mp (provided_cons.symm.trans (hthere name hname))
    obtain ⟨h₁, hrest, ⟨-, rfl⟩ | ⟨name, d, hname, hoffered, -⟩⟩ :=
      createVariables_cons ps h hr
    · rw [hrest]
      exact ih (fun q hq => hres q (List.mem_cons_of_mem p hq)) fun name hname =>
        (hnone name hname).2
    · have hoffer := (hnone name hname).1
      rw [hoffered, if_pos rfl] at hoffer
      cases hoffer

/-- **Creators supply what is missing.** A creator without a successor, all of
whose parameters can be resolved, succeeds. Bound in the bound scope are then
the names that were bound there, to the items that they were bound to, and
those for which a parameter has met a default; each of these is bound to an item
that equals the default of the first such parameter. The item has been made
since; no other variable of any scope shares it, and no declaration holds it.
Nothing else has changed: no other scope, and no item that was there. Another
execution changes nothing at all. -/
theorem creator_supplies {op : Operator} {w : World} (setting : Setting)
    (hop : ctx.operator = .ok op) (hkind : op.kind = .variableCreator) (hlast : op.successor = none)
    (hres : ∀ p ∈ op.parameters.list, ∃ r, ctx.resolve p.name = .ok r)
    (hctx : ctx.Within w.heap) (hbacks : w.heap.Backs ctx.graph.graph.held) :
    ∃ h', ctx.execute setting w = (.ok none, { w with heap := h' }) ∧
      w.heap.Supplied h' ctx.scope (ctx.provided op.parameters.list) ∧
      (∀ name i, w.heap.items.size ≤ i.index → h'.binding? ctx.scope name = some i →
        i ∉ ctx.graph.graph.held ∧
          ∀ t other, h'.binding? t other = some i → t = ctx.scope ∧ other = name) ∧
      ctx.execute setting { w with heap := h' } = (.ok none, { w with heap := h' }) := by
  have hexecute : ∀ w' : World, ctx.execute setting w' =
      ((ctx.createVariables op.parameters.list w'.heap).1.map fun _ => none,
        { w' with heap := (ctx.createVariables op.parameters.list w'.heap).2 }) := by
    intro w'
    refine execute_last hop (by rw [hkind]; rfl) hlast ?_
    unfold Operator.work
    rw [hkind]
  obtain ⟨h', hcreate, hu⟩ :=
    createVariables_supplies (hctx _ ctx.scope_mem_scopeChain) hbacks hres
  refine ⟨h', ?_, hu, fun name i hi hname => ⟨fun hheld => ?_, fun t other hother => ?_⟩, ?_⟩
  · rw [hexecute, hcreate]
    rfl
  · exact absurd (hbacks.held i hheld) (Nat.not_lt.mpr hi)
  · by_cases ht : t = ctx.scope
    · exact ⟨ht, hu.apart hi (ht ▸ hother) hname⟩
    · rw [Heap.binding?, hu.elsewhere t ht] at hother
      exact absurd (hbacks.bound _ _ _ hother) (Nat.not_lt.mpr hi)
  · have hthere : ∀ name, h'.binding? ctx.scope name = none →
        ctx.provided op.parameters.list name = none := by
      intro name hnone
      have hold : w.heap.binding? ctx.scope name = none := by
        cases hbinding : w.heap.binding? ctx.scope name with
        | none => rfl
        | some i => rw [hu.bound hbinding] at hnone; cases hnone
      cases hprovided : ctx.provided op.parameters.list name with
      | none => rfl
      | some d =>
        obtain ⟨i, hi, -⟩ := hu.supplied hold hprovided
        rw [hnone] at hi
        cases hi
    rw [hexecute, createVariables_again hres hthere]
    rfl

end Context

namespace Sample

/-- A creator two of whose parameters stand for `Shared`; one stands for
`Outer`, and one is fixed. -/
def layoutCreator : Operator :=
  ⟨"Create", ⟨[{ Parameter.lookup "First" .int with actual := "Shared", default := some ⟨0⟩ },
    { Parameter.lookup "Second" .int with actual := "Shared", default := some ⟨1⟩ },
    { Parameter.lookup "Third" .int with actual := "Outer" },
    { Parameter.lookup "Kept" .int with default := some ⟨0⟩ },
    { Parameter.lookup "Fixed" .int with fixed := some ⟨1⟩ }]⟩, none, .variableCreator⟩

/-- A graph that has a default for `Outer`. -/
def layoutGraph : SharedGraph :=
  ⟨⟨0⟩, ⟨"Layout", ⟨[{ Parameter.lookup "Outer" .int with default := some ⟨2⟩ }]⟩,
    #[layoutCreator], some ⟨0⟩⟩⟩

/-- The creator on the second scope, under a graph frame on the first. -/
def layoutContext : Context := .frame ⟨1⟩ ⟨0⟩ ⟨1⟩ [⟨0⟩] (.root ⟨0⟩ layoutGraph ⟨0⟩)

/-- The first scope binds `Shared`, and the second binds `Kept` to a text. -/
def layoutWorld : World :=
  { World.empty with heap := ⟨#[.int 10, .int 20, .int 30, .int 40, .string "text"],
    #[⟨"Global", ⟨[("Shared", ⟨3⟩)]⟩, [⟨1⟩], none⟩, ⟨"0", ⟨[("Kept", ⟨4⟩)]⟩, [], some ⟨0⟩⟩], 2, 1⟩ }

theorem layoutWorld_backs : layoutWorld.heap.Backs layoutContext.graph.graph.held where
  bound := by
    intro s name i hs
    match s, hs with
    | ⟨0⟩, hs =>
      have hentry : (if "Shared" = name then some (ItemId.mk 3) else none) = some i := hs
      split at hentry
      · cases hentry
        decide
      · cases hentry
    | ⟨1⟩, hs =>
      have hentry : (if "Kept" = name then some (ItemId.mk 4) else none) = some i := hs
      split at hentry
      · cases hentry
        decide
      · cases hentry
    | ⟨n + 2⟩, hs =>
      rw [Heap.binding?, Heap.scope_of_le (by show 2 ≤ n + 2; omega)] at hs
      cases hs
  held := by decide

/-- The second scope gets a `Shared` of its own, with the default of the first
parameter, and an `Outer` with that of the graph; its `Kept` stays a text. -/
theorem creator_supplies_layout : ∃ h',
    layoutContext.execute ⟨⟨0⟩, none⟩ layoutWorld = (.ok none, { layoutWorld with heap := h' }) ∧
      (∃ i, h'.binding? ⟨1⟩ "Shared" = some i ∧ i ≠ ⟨3⟩ ∧ h'.value i = .int 10) ∧
      (∃ i, h'.binding? ⟨1⟩ "Outer" = some i ∧ h'.value i = .int 30) ∧
      h'.binding? ⟨1⟩ "Kept" = some ⟨4⟩ ∧ h'.binding? ⟨1⟩ "Fixed" = none ∧
      layoutContext.execute ⟨⟨0⟩, none⟩ { layoutWorld with heap := h' } =
        (.ok none, { layoutWorld with heap := h' }) := by
  have hctx : layoutContext.Within layoutWorld.heap := by
    have hchain : layoutContext.scopeChain = [⟨1⟩, ⟨0⟩] := by rfl
    intro s hs
    rw [hchain] at hs
    show s.index < 2
    simp at hs
    rcases hs with rfl | rfl <;> decide
  have hop : layoutContext.operator = .ok layoutCreator := by rfl
  have hres : ∀ p ∈ layoutCreator.parameters.list,
      ∃ r, layoutContext.resolve p.name = .ok r := by
    simp only [layoutCreator, List.forall_mem_cons]
    exact ⟨⟨_, rfl⟩, ⟨_, rfl⟩, ⟨_, rfl⟩, ⟨_, rfl⟩, ⟨_, rfl⟩, nofun⟩
  have hshared : layoutContext.provided layoutCreator.parameters.list "Shared" =
      some ⟨0⟩ := by rfl
  have houter : layoutContext.provided layoutCreator.parameters.list "Outer" =
      some ⟨2⟩ := by rfl
  obtain ⟨h', hexecute, hu, -, hagain⟩ :=
    Context.creator_supplies ⟨⟨0⟩, none⟩ hop rfl rfl hres hctx layoutWorld_backs
  refine ⟨h', hexecute, ?_, ?_, hu.bound rfl, hu.missing rfl (by rfl), hagain⟩
  · obtain ⟨i, hi, hfresh, -, hv⟩ := hu.supplied rfl hshared
    refine ⟨i, hi, ?_, hv⟩
    rintro rfl
    exact absurd hfresh (by decide)
  · obtain ⟨i, hi, -, -, hv⟩ := hu.supplied rfl houter
    exact ⟨i, hi, hv⟩

end Sample

end ScopeFlow
