import Mathlib.Data.List.InsertIdx
import ScopeFlow.Proofs.Clone.Scopes
import ScopeFlow.Proofs.Likeness.Regions

/-!
# Duplicates on both sides

Copying corresponding subtrees on both sides gives copies that correspond: a
copy corresponds to another if what they are copies of does. The copies rank
below everything made before, so that attaching one makes no circle.
-/

namespace ScopeFlow

/-- Copies correspond if what they are copies of does. -/
def Renaming.withCopies (ρ : Renaming) (σ τ : Session) : Renaming :=
  { ρ with
    items := fun j j' => ρ.items j j' ∨ ∃ i i', ρ.items i i' ∧ σ.itemTo i j ∧ τ.itemTo i' j'
    scopes := fun v v' => ρ.scopes v v' ∨
      ∃ u u', ρ.scopes u u' ∧ σ.scopeTo u v ∧ τ.scopeTo u' v' }

theorem forall₂_square {α β γ δ : Type} {R : α → β → Prop} {S : α → γ → Prop}
    {T : γ → δ → Prop} {U : β → δ → Prop}
    (hU : ∀ {a b c d}, R a b → S a c → T c d → U b d) {l : List α} {m : List β}
    {l' : List γ} {m' : List δ} (h : List.Forall₂ R l m) (hl : List.Forall₂ S l l')
    (h' : List.Forall₂ T l' m') : List.Forall₂ U m m' := by
  induction h generalizing l' m' with
  | nil =>
      cases hl
      cases h'
      exact .nil
  | cons hab _ ih =>
      cases hl with
      | cons hac hl =>
          cases h' with
          | cons hcd h' => exact .cons (hU hab hac hcd) (ih hl h')

theorem forall₂_insertIdx {α β : Type} {R : α → β → Prop} {l : List α} {l' : List β}
    (h : List.Forall₂ R l l') {a : α} {b : β} (hab : R a b) (n : Nat) :
    List.Forall₂ R (l.insertIdx n a) (l'.insertIdx n b) := by
  induction h generalizing n with
  | nil =>
      cases n with
      | zero => exact .cons hab .nil
      | succ n => exact .nil
  | cons hxy hrest ih =>
      cases n with
      | zero => exact .cons hab (.cons hxy hrest)
      | succ n => exact .cons hxy (ih n)

/-! ## Copies -/

section

variable {P Q : Region} {φ : OperatorId → OperatorId} {ρ : Renaming} {h k : Heap} {c d : Copying} {rank : ScopeId → Nat}

/-- Whatever is below a copied scope has been copied. -/
theorem Copied.below (hc : Copied P φ h (fun _ => False) c) {s t u : ScopeId}
    (hst : c.session.scopeTo s t) (hu : h.Below s u) : ∃ v, c.session.scopeTo u v := by
  induction hu with
  | self => exact ⟨t, hst⟩
  | child _ hx ih =>
      obtain ⟨v, huv⟩ := ih
      obtain ⟨y, -, hxy⟩ := forall₂_mem (hc.content huv id).children hx
      exact ⟨y, hxy⟩

/-- Copies can be ranked below everything made before. -/
theorem Copied.ranked (hc : Copied P φ h (fun _ => False) c) {S : ScopeId → Prop} {n : Nat}
    (hS : ∀ s, S s → s.index < h.scopes.size ∧ ∀ x ∈ (h.scope s).children,
      x.index < h.scopes.size ∧ rank x < rank s)
    (hcopied : ∀ {u v}, c.session.scopeTo u v → S u ∧ rank u ≤ n) :
    ∃ rank' : ScopeId → Nat,
      (∀ s, S s → ∀ x ∈ (c.heap.scope s).children, rank' x < rank' s) ∧
      (∀ {u v}, c.session.scopeTo u v → ∀ x ∈ (c.heap.scope v).children, rank' x < rank' v) ∧
      ∀ {u v s}, c.session.scopeTo u v → s.index < h.scopes.size → rank' v < rank' s := by
  classical
  let rank' : ScopeId → Nat := fun v =>
    if v.index < h.scopes.size then rank v + n + 1
    else if hv : ∃ u, c.session.scopeTo u v then rank hv.choose else 0
  have hold : ∀ {s : ScopeId}, s.index < h.scopes.size → rank' s = rank s + n + 1 :=
    fun hs => if_pos hs
  have hnew : ∀ {u v}, c.session.scopeTo u v → rank' v = rank u := by
    intro u v huv
    have hle := (hc.scope huv).2.1
    have hv : ∃ u, c.session.scopeTo u v := ⟨u, huv⟩
    show (if v.index < h.scopes.size then _ else _) = _
    rw [if_neg (by omega), dif_pos hv, hc.scope_inj hv.choose_spec huv]
  refine ⟨rank', ?_, ?_, ?_⟩
  · intro s hs x hx
    obtain ⟨hlt, hchildren⟩ := hS s hs
    rw [hc.kept.scope hlt] at hx
    obtain ⟨hxlt, hrank⟩ := hchildren x hx
    rw [hold hlt, hold hxlt]
    omega
  · intro u v huv y hy
    obtain ⟨x, hx, hxy⟩ := forall₂_mem (hc.content huv id).children.flip hy
    rw [hnew huv, hnew hxy]
    exact ((hS u (hcopied huv).1).2 x hx).2
  · intro u v s huv hs
    have := (hcopied huv).2
    rw [hnew huv, hold hs]
    omega

/-- Where both sides copy alike, they agree afterwards. -/
theorem Agree.copies (ha : Agree ρ h k) (hc : Copied P φ h (fun _ => False) c)
    (hd : Copied Q φ k (fun _ => False) d)
    (hdom : ∀ {u' v'}, d.session.scopeTo u' v' → ∃ u v, ρ.scopes u u' ∧ c.session.scopeTo u v)
    (hdom' : ∀ {i' j'}, d.session.itemTo i' j' → ∃ i j, ρ.items i i' ∧ c.session.itemTo i j)
    (hrank : c.heap.Ranked (ρ.withCopies c.session d.session).Renames) :
    Agree (ρ.withCopies c.session d.session) c.heap d.heap ∧
      Confined ρ (ρ.withCopies c.session d.session) k d.heap := by
  have hw : ρ.Within (ρ.withCopies c.session d.session) := ⟨.inl, .inl, id, id, id⟩
  refine ha.grow hc.kept hd.kept
    { within := hw
      item := ?_
      item_iff := ?_
      scope := ?_
      scope_iff := ?_
      graph := id
      context := .inl
      context_id := fun hcd hcd' _ _ => ha.context_id hcd hcd'
      outer := id
      madeItem := ?_
      madeScope := ?_
      rooted := hc.rooted
      rooted' := hd.rooted
      ranked := hrank }
  · rintro j j' (hold | ⟨i, i', hii, hij, hij'⟩)
    · exact .inl hold
    · obtain ⟨-, hle, hlt, hv⟩ := hc.item hij
      obtain ⟨-, hle', hlt', hv'⟩ := hd.item hij'
      exact .inr ⟨hle, hle', hlt, hlt', by rw [hv, hv', (ha.item hii).2.2]⟩
  · rintro j j' l l' (hold | ⟨i, i', hii, hij, hij'⟩) (hold' | ⟨m, m', hmm, hml, hml'⟩) hj hl
    · have := ha.item hold
      omega
    · have := ha.item hold
      omega
    · have := ha.item hold'
      omega
    · rw [← hc.item_iff hij hml, ← hd.item_iff hij' hml']
      exact ha.item_iff hii hmm
  -- Copies are alike through their originals, which are.
  · rintro v v' (hold | ⟨u, u', huu, huv, huv'⟩)
    · exact .inl hold
    · obtain ⟨-, hle, hlt, -⟩ := hc.scope huv
      obtain ⟨-, hle', hlt', hparent⟩ := hd.scope huv'
      have hcopy := hc.content huv id
      have hcopy' := hd.content huv' id
      have hal := (ha.scope huu).2.2
      refine .inr ⟨hle, hle', hlt, hlt', ?_, ?_, ?_, ?_, ?_⟩
      · rw [← hcopy.name, ← hcopy'.name]
        exact hal.name
      · exact forall₂_square (fun h₁ h₂ h₃ => ⟨h₁.1.symm.trans (h₂.1.trans h₃.1),
          .inr ⟨_, _, h₂.2, h₁.2, h₃.2⟩⟩) hcopy.bindings hal.bindings hcopy'.bindings
      · exact hal.sorted.same hcopy.bindings
      · exact forall₂_square (fun h₁ h₂ h₃ => .inr ⟨_, _, h₂, h₁, h₃⟩) hcopy.children
          hal.children hcopy'.children
      · intro q hq
        -- The parent of a copy is a copy too, so its original has a counterpart that was
        -- copied.
        obtain ⟨p', hp'⟩ := hparent q hq
        obtain ⟨p, v, hpp, hpv⟩ := hdom hp'
        exact .inl ⟨v, .inr ⟨p, p', hpp, hpv, hp'⟩⟩
  · rintro v v' w w' (hold | ⟨u, u', huu, huv, huv'⟩) (hold' | ⟨x, x', hxx, hxw, hxw'⟩) hv hw'
    · have := ha.scope hold
      omega
    · have := ha.scope hold
      omega
    · have := ha.scope hold'
      omega
    · rw [← hc.scope_iff huv hxw, ← hd.scope_iff huv' hxw']
      exact ha.scope_iff huu hxx
  · intro j' hle hlt
    obtain ⟨i', hij'⟩ := hd.madeItem hle hlt
    obtain ⟨i, j, hii, hij⟩ := hdom' hij'
    exact ⟨j, .inr ⟨i, i', hii, hij, hij'⟩⟩
  · intro v' hle hlt
    obtain ⟨u', huv'⟩ := hd.madeScope hle hlt
    obtain ⟨u, v, huu, huv⟩ := hdom huv'
    exact ⟨v, .inr ⟨u, u', huu, huv, huv'⟩⟩

end

/-! ## Attaching -/

/-- The heap with a scope attached as a sub-scope of another. -/
def Heap.attach (h : Heap) (s : ScopeId) (place : Nat) (u : ScopeId) : Heap :=
  (h.setParent u (some s)).updateScope s fun node =>
    { node with children := node.children.insertIdx place u }

/-- A detached scope that is not above another can be attached to it. -/
theorem Heap.addChild_ok {h : Heap} {s u : ScopeId} (hparent : (h.scope u).parent = none)
    (hline : u ∉ h.lineage s) :
    h.addChild s u = .ok (h.attach s (h.scope s).children.length u) := by
  unfold addChild insertChild
  rw [hparent]
  dsimp only
  rw [if_neg (by simp), if_neg hline, if_neg (Nat.lt_irrefl _)]
  rfl

theorem Agree.attach {ρ : Renaming} {h k : Heap} (ha : Agree ρ h k) {s t u v : ScopeId}
    (hst : ρ.scopes s t) (huv : ρ.scopes u v) (place : Nat)
    (hrank : ∃ rank : ScopeId → Nat, (∀ x, ρ.Renames x → ∀ c ∈ (h.scope x).children,
      rank c < rank x) ∧ rank u < rank s) :
    Agree ρ (h.attach s place u) (k.attach t place v) ∧ Confined ρ ρ k (k.attach t place v) := by
  obtain ⟨ha', hconf⟩ := ha.setParent huv (.some hst)
  have hal := (ha'.scope hst).2.2
  have hranked : (h.attach s place u).Ranked ρ.Renames := by
    obtain ⟨rank, hchildren, hlow⟩ := hrank
    have hkeep : ∀ x, ((h.setParent u (some s)).scope x).children = (h.scope x).children := by
      intro x
      by_cases hxu : x = u
      · subst hxu
        rw [Heap.setParent, Heap.scope_updateScope_self (ha.scope huv).1]
      · rw [Heap.setParent, Heap.scope_updateScope_ne hxu]
    refine ⟨rank, fun x hx c hc => ?_⟩
    rw [Heap.attach] at hc
    by_cases hxs : x = s
    · subst hxs
      rw [Heap.scope_updateScope_self (ha'.scope hst).1] at hc
      rcases List.eq_or_mem_of_mem_insertIdx hc with rfl | hc
      · exact hlow
      · rw [hkeep] at hc
        exact hchildren x hx c hc
    · rw [Heap.scope_updateScope_ne hxs, hkeep] at hc
      exact hchildren x hx c hc
  obtain ⟨ha'', hconf'⟩ := ha'.updateScope hst
    (f := fun node => { node with children := node.children.insertIdx place u })
    (g := fun node => { node with children := node.children.insertIdx place v })
    { hal with children := forall₂_insertIdx hal.children huv place } (fun _ => .inl) hranked
  exact ⟨ha'', hconf.trans hconf'⟩

/-! ## Duplicates -/

/-- The copy of a scope in a session of its own, and the invariant that comes
with it: everything below is copied, nothing else, and the copy is detached. -/
theorem ScopeId.copyAlone_spec {P : Region} {h : Heap} (hP : P.Closed h) {s : ScopeId}
    (hs : P.scopes s) :
    ∃ σ : Session, Copied (P.below h s) id h (fun _ => False) ⟨σ, (h.copyAlone s.copy).2⟩ ∧
      σ.scopeTo s (h.copyAlone s.copy).1 ∧
      ((h.copyAlone s.copy).2.scope (h.copyAlone s.copy).1).parent = none := by
  obtain ⟨rank, hrank⟩ := hP.ranked
  have hbelow := hP.below s
  have hstart : Copied (P.below h s) id h (fun _ => False) ⟨.empty, h⟩ := .start_empty hP.rooted
  have hcopy := ScopeId.copy_copied hbelow (fun u hu => hrank u hu.1) hstart
    (show (P.below h s).scopes s from ⟨hs, .self⟩)
  refine ⟨(s.copy ⟨.empty, h⟩).2.session, hcopy.copied, hcopy.found, ?_⟩
  have hsame := hcopy.parent (v := (s.copy ⟨.empty, h⟩).1) fun u hu =>
    Nat.le_of_eq (congrArg rank (hcopy.copied.scope_inj hu hcopy.found).symm)
  have hnew := (hcopy.copied.scope hcopy.found).2.1
  refine hsame.trans ?_
  rw [Heap.scope_of_le hnew]
  rfl

/-- A renamed copy can be attached to whatever there was before. -/
theorem Copied.addChild_ok {P : Region} {φ : OperatorId → OperatorId} {h h' : Heap} {σ : Session} (hroot : h.Rooted)
    (hc : Copied P φ h (fun _ => False) ⟨σ, h'⟩) {s u v : ScopeId} (hs : s.index < h.scopes.size)
    (huv : σ.scopeTo u v) (hparent : (h'.scope v).parent = none) (name : String) :
    (h'.rename v name).addChild s v =
      .ok ((h'.rename v name).attach s ((h'.rename v name).scope s).children.length v) := by
  obtain ⟨-, hle, hlt, -⟩ := hc.scope huv
  have hold : ∀ x : ScopeId, x.index < h.scopes.size →
      (h'.rename v name).scope x = h.scope x := by
    intro x hx
    rw [Heap.rename, Heap.scope_updateScope_ne (by rw [ScopeId.ne_iff]; omega)]
    exact hc.kept.scope hx
  refine Heap.addChild_ok ?_ fun hmem => ?_
  · rw [Heap.rename, Heap.scope_updateScope_self hlt]
    exact hparent
  · have hv : v.index < h.scopes.size := by
      refine Heap.mem_lineage_lt (fun x hx p hp => ?_) hs hmem
      rw [hold x hx] at hp
      exact hroot x p hp
    omega

/-- Corresponding subtrees copied on both sides agree, and so ranked that the
copies come below everything made before. -/
theorem Agree.copies_below {ρ : Renaming} {h k h₁ k₁ : Heap} (ha : Agree ρ h k) {σ τ : Session}
    {u v x : ScopeId} (huv : ρ.scopes u v)
    (hc : Copied (ρ.source.below h u) id h (fun _ => False) ⟨σ, h₁⟩) (hux : σ.scopeTo u x)
    (hd : Copied (ρ.diagonal.source.below k v) id k (fun _ => False) ⟨τ, k₁⟩) :
    Agree (ρ.withCopies σ τ) h₁ k₁ ∧ Confined ρ (ρ.withCopies σ τ) k k₁ ∧
      ∃ rank : ScopeId → Nat, (∀ a, (ρ.withCopies σ τ).Renames a → ∀ c ∈ (h₁.scope a).children,
        rank c < rank a) ∧ ∀ s : ScopeId, s.index < h.scopes.size → rank x < rank s := by
  -- Both sides have copied the same: all that is below the one copied.
  have hdom : ∀ {u' v'}, τ.scopeTo u' v' → ∃ a b, ρ.scopes a u' ∧ σ.scopeTo a b := by
    intro u' v' h'
    obtain ⟨a, hbelow, hau⟩ := ha.below huv (hd.scope h').1.2
    obtain ⟨b, hab⟩ := hc.below hux hbelow
    exact ⟨a, b, hau, hab⟩
  have hdom' : ∀ {i' j'}, τ.itemTo i' j' → ∃ i j, ρ.items i i' ∧ σ.itemTo i j := by
    intro i' j' h'
    obtain ⟨-, u', -, hbelow', entry', hentry', rfl⟩ := (hd.item h').1
    obtain ⟨a, hbelow, hau⟩ := ha.below huv hbelow'
    obtain ⟨b, hab⟩ := hc.below hux hbelow
    obtain ⟨entry, hentry, hsame⟩ := forall₂_mem (ha.scope hau).2.2.bindings.flip hentry'
    obtain ⟨copied, -, hcopied⟩ := forall₂_mem (hc.content hab id).bindings hentry
    exact ⟨entry.2, copied.2, hsame.2, hcopied.2⟩
  have hsource := ha.source_closed
  obtain ⟨rank, hrank⟩ := ha.ranked
  have hlow : ∀ {a b}, σ.scopeTo a b → ρ.Renames a ∧ rank a ≤ rank u := by
    intro a b hab
    obtain ⟨-, hbelow⟩ := (hc.scope hab).1
    clear hab
    induction hbelow with
    | self => exact ⟨⟨v, huv⟩, Nat.le_refl _⟩
    | @child a c _ hmem ih =>
        have hlt := hrank a ih.1 c hmem
        exact ⟨hsource.child ih.1 c hmem, by omega⟩
  obtain ⟨rank', hold, hnew, hbelow⟩ := hc.ranked (S := ρ.Renames)
    (fun a hra => ⟨hsource.scope hra, fun c hmem =>
      ⟨hsource.scope (hsource.child hra c hmem), hrank a hra c hmem⟩⟩) hlow
  have hranks : ∀ a, (ρ.withCopies σ τ).Renames a → ∀ c ∈ (h₁.scope a).children,
      rank' c < rank' a := by
    rintro a ⟨b, hab | ⟨a₀, _, _, hcopy, _⟩⟩
    · exact hold a ⟨b, hab⟩
    · exact hnew hcopy
  obtain ⟨ha₁, hconf₁⟩ := ha.copies hc hd hdom hdom' ⟨rank', hranks⟩
  exact ⟨ha₁, hconf₁, rank', hranks, fun s hs => hbelow hux hs⟩

/-- A renamed copy attached on both sides. -/
theorem Agree.attachCopies {ρ : Renaming} {h k h₁ k₁ : Heap} (ha : Agree ρ h k) {σ τ : Session}
    {s t u v x y : ScopeId} (hst : ρ.scopes s t) (huv : ρ.scopes u v)
    (hc : Copied (ρ.source.below h u) id h (fun _ => False) ⟨σ, h₁⟩) (hux : σ.scopeTo u x)
    (hd : Copied (ρ.diagonal.source.below k v) id k (fun _ => False) ⟨τ, k₁⟩) (hvy : τ.scopeTo v y)
    (name : String) :
    ∃ ρ', Confined ρ ρ' k
        ((k₁.rename y name).attach t ((k₁.rename y name).scope t).children.length y) ∧
      Agree ρ' ((h₁.rename x name).attach s ((h₁.rename x name).scope s).children.length x)
        ((k₁.rename y name).attach t ((k₁.rename y name).scope t).children.length y) := by
  obtain ⟨ha₁, hconf₁, rank, hranks, hlow⟩ := ha.copies_below huv hc hux hd
  have hxy : (ρ.withCopies σ τ).scopes x y := .inr ⟨u, v, huv, hux, hvy⟩
  have hst₁ : (ρ.withCopies σ τ).scopes s t := .inl hst
  obtain ⟨ha₂, hconf₂⟩ := ha₁.rename hxy name
  have hkeep : ∀ a, ((h₁.rename x name).scope a).children = (h₁.scope a).children := by
    intro a
    by_cases hax : a = x
    · subst hax
      rw [Heap.rename, Heap.scope_updateScope_self (hc.scope hux).2.2.1]
    · rw [Heap.rename, Heap.scope_updateScope_ne hax]
  obtain ⟨ha₃, hconf₃⟩ := ha₂.attach hst₁ hxy ((h₁.rename x name).scope s).children.length
    ⟨rank, fun a hra c hmem => hranks a hra c (hkeep a ▸ hmem), hlow s (ha.scope hst).1⟩
  rw [← (ha₂.scope hst₁).2.2.children.length_eq]
  exact ⟨_, hconf₁.trans (hconf₂.trans hconf₃), ha₃⟩

/-- Three acts in a row, where the last one is not refused. -/
theorem Act.commit_apply {α : Type} {f : Heap → α × Heap} {g : α → Heap → Heap}
    {r : α → Heap → Except Failure Heap} {h h' : Heap}
    (hr : r (f h).1 (g (f h).1 (f h).2) = .ok h') :
    (Act.change f >>= fun a => Act.modify (g a) >>= fun _ => Act.commit (r a)) h =
      (.ok (), h') := by
  change Act.commit (r (f h).1) (g (f h).1 (f h).2) = _
  unfold Act.commit
  rw [hr]

/-- Appending a copy of a scope mirrors appending one of the corresponding
scope. -/
theorem duplicate_mirrors {ρ : Renaming} {s t u v : ScopeId} (hst : ρ.scopes s t)
    (huv : ρ.scopes u v) (name : String) :
    Act.Mirrors ρ (fun _ => Eq)
      (Act.change (fun h => h.copyAlone u.copy) >>= fun x =>
        Act.modify (fun h => h.rename x name) >>= fun _ => Act.commit fun h => h.addChild s x)
      (Act.change (fun k => k.copyAlone v.copy) >>= fun y =>
        Act.modify (fun k => k.rename y name) >>= fun _ => Act.commit fun k => k.addChild t y) := by
  intro h k ha
  obtain ⟨hs, ht, -⟩ := ha.scope hst
  obtain ⟨σ, hc, hfound, hparent⟩ := ScopeId.copyAlone_spec ha.source_closed ⟨v, huv⟩
  obtain ⟨τ, hd, hfound', hparent'⟩ :=
    ScopeId.copyAlone_spec ha.diagonal.source_closed ⟨v, rfl, u, huv⟩
  obtain ⟨ρ', hconf, ha'⟩ := ha.attachCopies hst huv hc hfound hd hfound' name
  have hx := Act.commit_apply (f := fun h => h.copyAlone u.copy)
    (g := fun x h => h.rename x name) (r := fun x h => h.addChild s x)
    (hc.addChild_ok ha.rooted hs hfound hparent name)
  have hy := Act.commit_apply (f := fun h => h.copyAlone v.copy)
    (g := fun x h => h.rename x name) (r := fun x h => h.addChild t x)
    (hd.addChild_ok ha.rooted' ht hfound' hparent' name)
  rw [hx, hy]
  exact ⟨ρ', hconf, ha', .ok rfl⟩

end ScopeFlow
