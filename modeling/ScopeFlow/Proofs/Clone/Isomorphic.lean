import ScopeFlow.Proofs.Clone.Correspondence

/-!
# Isomorphic images

What some roots reach in one heap is the image of what others reach in another
if the same paths lead somewhere, two of them lead to the same thing on both
sides or on neither, and whatever they lead to looks the same and has the same
parent as far as that is reached too.

* two images of the same are isomorphic to each other (`Isomorphic.between`);
* what a session has copied from roots is an image of what they reach
  (`CopiedAll.isomorphic`), in which each thing is counted once
  (`CopiedAll.keys_nodup`).
-/

namespace ScopeFlow

namespace Handle

/-- The same path leads to these two from two roots that correspond. -/
def Paired (R : Handle → Handle → Prop) (h k : Heap) (x y : Handle) : Prop :=
  ∃ root root', R root root' ∧ ∃ path, root.at? h path = some x ∧ root'.at? k path = some y

/-- Corresponding roots of two images of the same. -/
def Both (R R' : Handle → Handle → Prop) (y y' : Handle) : Prop := ∃ root, R root y ∧ R' root y'

/-- Was the thing not there before? -/
def NewTo (h : Heap) : Handle → Prop
  | scope s => h.scopes.size ≤ s.index
  | item i => h.items.size ≤ i.index
  | context ctx => h.contexts ≤ ctx.id.index
  | shared g => h.graphs ≤ g.id.index
  | _ => True

/-- What is reached from roots in one heap is the image of what is reached from
those that correspond to them in another, where operators have the numbers
that `φ` gives them. -/
structure Isomorphic (φ : OperatorId → OperatorId) (R : Handle → Handle → Prop) (h k : Heap) :
    Prop where
  /-- The same paths lead somewhere. -/
  found : ∀ {root root'}, R root root' →
    ∀ path, (root.at? h path).isSome = (root'.at? k path).isSome
  /-- Two paths lead to the same thing exactly if they do so on the other side. -/
  same : ∀ {x y x' y'}, Paired R h k x y → Paired R h k x' y' →
    (x.key? = x'.key? ↔ y.key? = y'.key?)
  /-- What a path leads to looks the same: names, order and values are equal. -/
  looks : ∀ {x y}, Paired R h k x y → (x.form h).mapOperators φ = y.form k
  /-- The parent of a scope, where it is reached too, is the parent on the other
  side, and that one has no other. -/
  parent : ∀ {s t}, Paired R h k (.scope s) (.scope t) → ∀ q,
    ((k.scope t).parent = some q ↔
      ∃ p, (h.scope s).parent = some p ∧ Paired R h k (.scope p) (.scope q))

/-- Only scopes look like scopes. -/
theorem form_eq_scope {h : Heap} {x : Handle} {name : String} {names : List String} {n : Nat}
    (hx : x.form h = .scope name names n) : ∃ s, x = scope s := by
  cases x with
  | scope s => exact ⟨s, rfl⟩
  | operation op => cases op <;> cases hx
  | _ => cases hx

namespace Isomorphic

variable {φ : OperatorId → OperatorId} {R R' : Handle → Handle → Prop} {h k k' : Heap}

theorem paired_of_left (hi : Isomorphic φ R h k) {root root' x : Handle} (hr : R root root')
    {path : List Step} (hx : root.at? h path = some x) :
    ∃ y, root'.at? k path = some y ∧ Paired R h k x y := by
  have hsome := hi.found hr path
  rw [hx, Option.isSome_some] at hsome
  obtain ⟨y, hy⟩ := Option.isSome_iff_exists.mp hsome.symm
  exact ⟨y, hy, root, root', hr, path, hx, hy⟩

theorem paired_of_right (hi : Isomorphic φ R h k) {root root' y : Handle} (hr : R root root')
    {path : List Step} (hy : root'.at? k path = some y) :
    ∃ x, root.at? h path = some x ∧ Paired R h k x y := by
  have hsome := hi.found hr path
  rw [hy, Option.isSome_some] at hsome
  obtain ⟨x, hx⟩ := Option.isSome_iff_exists.mp hsome
  exact ⟨x, hx, root, root', hr, path, hx, hy⟩

theorem paired_of_both (hi : Isomorphic φ R h k) {y y' : Handle}
    (hp : Paired (Both R R') k k' y y') : ∃ x, Paired R h k x y ∧ Paired R' h k' x y' := by
  obtain ⟨_, _, ⟨root, hr, hr'⟩, path, hy, hy'⟩ := hp
  obtain ⟨x, hx, hpaired⟩ := hi.paired_of_right hr hy
  exact ⟨x, hpaired, root, _, hr', path, hx, hy'⟩

theorem scope_of_paired (hi : Isomorphic φ R h k) {x : Handle} {t : ScopeId}
    (hp : Paired R h k x (scope t)) : ∃ s, x = scope s :=
  form_eq_scope (Form.of_mapOperators_scope (hi.looks hp))

theorem scope_to_paired (hi : Isomorphic φ R h k) {y : Handle} {s : ScopeId}
    (hp : Paired R h k (scope s) y) : ∃ t, y = scope t :=
  form_eq_scope (hi.looks hp).symm

/-- Two images of the same are isomorphic to each other. -/
theorem between (hi : Isomorphic φ R h k) (hi' : Isomorphic φ R' h k')
    (hroots : ∀ root y', R' root y' → ∃ y, R root y) :
    Isomorphic id (Both R R') k k' where
  found := by
    rintro y y' ⟨root, hr, hr'⟩ path
    rw [← hi.found hr path, hi'.found hr' path]
  same := by
    intro y y' z z' hy hz
    obtain ⟨x, hx, hx'⟩ := hi.paired_of_both hy
    obtain ⟨w, hw, hw'⟩ := hi.paired_of_both hz
    rw [← hi.same hx hw, hi'.same hx' hw']
  looks := by
    intro y y' hy
    obtain ⟨x, hx, hx'⟩ := hi.paired_of_both hy
    rw [Form.mapOperators_id, ← hi.looks hx, hi'.looks hx']
  parent := by
    intro t t' ht q'
    obtain ⟨x, hx, hx'⟩ := hi.paired_of_both ht
    obtain ⟨s, rfl⟩ := hi.scope_of_paired hx
    constructor
    · intro hq'
      obtain ⟨p, hp, hpq'⟩ := (hi'.parent hx' q').mp hq'
      -- The parent of the original is reached, and so has a first image too.
      obtain ⟨root, _, hr', path, hpath, hpath'⟩ := hpq'
      obtain ⟨_, hr⟩ := hroots root _ hr'
      obtain ⟨y, hy, hpaired⟩ := hi.paired_of_left hr hpath
      obtain ⟨q, rfl⟩ := hi.scope_to_paired hpaired
      exact ⟨q, (hi.parent hx q).mpr ⟨p, hp, hpaired⟩, _, _, ⟨root, hr, hr'⟩, path, hy, hpath'⟩
    · rintro ⟨q, hq, hpaired⟩
      obtain ⟨p, hp, hpq⟩ := (hi.parent hx q).mp hq
      obtain ⟨z, hz, hz'⟩ := hi.paired_of_both hpaired
      obtain ⟨p', rfl⟩ := hi.scope_of_paired hz
      have hkeys := (hi.same hpq hz).mpr rfl
      obtain rfl : p = p' := by simpa [key?] using hkeys
      exact (hi'.parent hx' q').mpr ⟨p, hp, hz'⟩

end Isomorphic

end Handle

/-! ## What has been copied -/

section

open Handle

variable {P : Region} {φ : OperatorId → OperatorId} {h₀ : Heap} {c : Copying}
  {R : Handle → Handle → Prop}

theorem CopiedAll.newTo (hc : CopiedAll P φ h₀ c) {x y : Handle}
    (hxy : x.Alike (c.renaming P) φ y) : y.NewTo h₀ := by
  cases hxy with
  | scope hst => exact (hc.scope hst).2.1
  | item hij => exact (hc.item hij).2.1
  | context hctx => exact (hc.context hctx).1
  | shared hg => exact (hc.graph hg).1
  | _ => trivial

theorem CopiedAll.alike_of_paired (hc : CopiedAll P φ h₀ c)
    (hR : ∀ {root root'}, R root root' → root.Alike (c.renaming P) φ root') {x y : Handle}
    (hp : Paired R h₀ c.heap x y) : x.Alike (c.renaming P) φ y := by
  obtain ⟨root, root', hr, path, hx, hy⟩ := hp
  obtain ⟨y', hy', hxy⟩ := rel_some_left ((hR hr).path hc path) hx
  rwa [Option.some.inj (hy.symm.trans hy')]

/-- A scope of the region that has been copied is reached along with its copy. -/
theorem CopiedAll.paired_of_scopeTo (hc : CopiedAll P φ h₀ c)
    (hR : ∀ {root root'}, R root root' → root.Alike (c.renaming P) φ root')
    (hreach : ∀ {s}, P.scopes s → ∃ root root', R root root' ∧
      ∃ path, root.at? h₀ path = some (.scope s)) {s t : ScopeId} (hst : c.session.scopeTo s t) :
    Paired R h₀ c.heap (.scope s) (.scope t) := by
  obtain ⟨root, root', hr, path, hx⟩ := hreach (hc.scope hst).1
  obtain ⟨y, hy, hxy⟩ := rel_some_left ((hR hr).path hc path) hx
  cases hxy with
  | scope hst' =>
      obtain rfl := Option.some.inj (hst.symm.trans hst')
      exact ⟨root, root', hr, path, hx, hy⟩

/-- What a session has copied, from roots that reach all of it, is an image. -/
theorem CopiedAll.isomorphic (hP : P.Closed h₀) (hf : h₀.Forest) (hc : CopiedAll P φ h₀ c)
    (hl : c.Linked h₀) (hR : ∀ {root root'}, R root root' → root.Alike (c.renaming P) φ root')
    (hreach : ∀ {s}, P.scopes s → ∃ root root', R root root' ∧
      ∃ path, root.at? h₀ path = some (.scope s)) :
    Isomorphic φ R h₀ c.heap where
  found := fun hr path => rel_isSome ((hR hr).path hc path)
  same := fun hp hp' => hc.key_iff hP (hc.alike_of_paired hR hp) (hc.alike_of_paired hR hp')
  looks := fun hp => (hc.alike_of_paired hR hp).form hc
  parent := by
    intro s t hp q
    cases hc.alike_of_paired hR hp with
    | scope hst =>
        constructor
        · intro hq
          -- What lists the copy is itself a copy, and of a scope that lists the original.
          obtain ⟨p, hpq⟩ := (hc.scope hst).2.2.2 q hq
          obtain ⟨p', x, hpq', hx, hxt⟩ := hl.part (hc.scope hpq).2.1 ((hl.linked q t).mpr hq)
          obtain rfl : x = s := hc.scope_inj hxt hst
          exact ⟨p', (hf.linked p' x).mp hx, hc.paired_of_scopeTo hR hreach hpq'⟩
        · rintro ⟨p, hparent, hpaired⟩
          cases hc.alike_of_paired hR hpaired with
          | scope hpq =>
              -- The copy of the parent lists copies of all that the parent lists.
              have hs := (hf.linked p s).mpr hparent
              obtain ⟨t', ht', hst'⟩ := forall₂_mem (hc.content hpq id).children hs
              obtain rfl : t' = t := Option.some.inj (hst'.symm.trans hst)
              exact (hl.linked q t').mp ht'

/-- The things that a session has copied. -/
def Session.keys (σ : Session) : List Key :=
  σ.items.map (fun entry => .item entry.1) ++ σ.scopes.map (fun entry => .scope entry.1) ++
    σ.contexts.map (fun entry => .context entry.1) ++ σ.graphs.map (fun entry => .graph entry.1)

theorem Session.size_eq (σ : Session) : σ.size = σ.keys.length := by
  simp only [size, keys, List.length_append, List.length_map]

theorem CopiedAll.keys_nodup (hc : CopiedAll P φ h₀ c) : c.session.keys.Nodup := by
  have hmap : ∀ {α β : Type} {l : List (α × β)} {f : α → Key}, Function.Injective f →
      (l.map Prod.fst).Nodup → (l.map fun entry => f entry.1).Nodup := by
    intro α β l f hf hl
    have hmapped := hl.map hf
    rwa [List.map_map] at hmapped
  unfold Session.keys
  simp only [List.nodup_append, List.mem_append, List.mem_map]
  refine ⟨⟨⟨hmap (fun _ _ h => Key.item.inj h) hc.itemKeys,
    hmap (fun _ _ h => Key.scope.inj h) hc.scopeKeys, ?_⟩,
    hmap (fun _ _ h => Key.context.inj h) hc.contextKeys, ?_⟩,
    hmap (fun _ _ h => Key.graph.inj h) hc.graphKeys, ?_⟩
  · rintro _ ⟨_, -, rfl⟩ _ ⟨_, -, rfl⟩
    simp
  · rintro _ (⟨_, -, rfl⟩ | ⟨_, -, rfl⟩) _ ⟨_, -, rfl⟩ <;> simp
  · rintro _ ((⟨_, -, rfl⟩ | ⟨_, -, rfl⟩) | ⟨_, -, rfl⟩) _ ⟨_, -, rfl⟩ <;> simp

theorem Copying.mem_keys_of_alike {k l : Key} (h : k.Alike (c.renaming P) l) :
    k ∈ c.session.keys := by
  have hmem : ∀ {α β : Type} [DecidableEq α] {l : List (α × β)} {a : α} {b : β},
      l.lookup a = some b → ∃ entry ∈ l, entry.1 = a :=
    fun h => List.mem_map.mp (mem_keys_iff.mpr ⟨_, h⟩)
  simp only [Session.keys, List.mem_append, List.mem_map]
  cases h with
  | item hij =>
      obtain ⟨entry, hentry, rfl⟩ := hmem hij
      exact .inl (.inl (.inl ⟨entry, hentry, rfl⟩))
  | scope hst =>
      obtain ⟨entry, hentry, rfl⟩ := hmem hst
      exact .inl (.inl (.inr ⟨entry, hentry, rfl⟩))
  | context hctx =>
      obtain ⟨entry, hentry, hid⟩ := hmem hctx.2
      exact .inl (.inr ⟨entry, hentry, congrArg Key.context hid⟩)
  | graph hg =>
      obtain ⟨entry, hentry, hid⟩ := hmem hg.2
      exact .inr ⟨entry, hentry, congrArg Key.graph hid⟩

/-- What a session has copied lies in the region. -/
theorem CopiedAll.of_mem_keys (hc : CopiedAll P φ h₀ c) {k : Key} (hk : k ∈ c.session.keys) :
    ∃ x : Handle, x.In P ∧ x.key? = some k := by
  have hlookup : ∀ {α β : Type} [DecidableEq α] {l : List (α × β)} {entry : α × β},
      entry ∈ l → ∃ b, l.lookup entry.1 = some b :=
    fun h => mem_keys_iff.mp (List.mem_map.mpr ⟨_, h, rfl⟩)
  simp only [Session.keys, List.mem_append, List.mem_map] at hk
  rcases hk with ((⟨entry, hentry, rfl⟩ | ⟨entry, hentry, rfl⟩) | ⟨entry, hentry, rfl⟩) |
    ⟨entry, hentry, rfl⟩
  · obtain ⟨j, hij⟩ := hlookup hentry
    exact ⟨.item entry.1, (hc.item hij).1, rfl⟩
  · obtain ⟨t, hst⟩ := hlookup hentry
    exact ⟨.scope entry.1, (hc.scope hst).1, rfl⟩
  · obtain ⟨ctx, hctx, hid⟩ := hc.context_of_key entry.1 (List.mem_map.mpr ⟨entry, hentry, rfl⟩)
    exact ⟨.context ctx, hctx, by rw [← hid]; rfl⟩
  · obtain ⟨g, hg, hid⟩ := hc.graph_of_key entry.1 (List.mem_map.mpr ⟨entry, hentry, rfl⟩)
    exact ⟨.shared g, hg, by rw [← hid]; rfl⟩

end

end ScopeFlow
