import ScopeFlow.Proofs.Clone.Forest
import ScopeFlow.Proofs.Clone.Resumed
import ScopeFlow.Proofs.Operator.Edits
import ScopeFlow.Proofs.Scope.Lifetime

/-!
# Operations on scopes

All that can be done with scopes, `ScopeOp`, among it the execution of any
operator in any context, keeps a forest (`ScopeOp.run_forest`), and where there
is none it keeps the heap complete (`ScopeOp.run_carries`). So in every world
that is built by such operations (`World.Built`) scopes form trees, all walks
along them are finite, and attaching is refused exactly where it would break
them (`World.Built.inTrees`).
-/

namespace ScopeFlow

open Relation (ReflTransGen)

namespace Heap

variable {h h' : Heap} {s t u p c child : ScopeId} {place n m : Nat}

/-! ## Attaching, refused or not -/

/-- Attaching is refused in three cases, and always for the sake of the tree. -/
theorem insertChild_cases (h : Heap) (s : ScopeId) (place : Nat) (child : ScopeId) :
    (((h.scope child).parent ≠ none ∨ child ∈ h.lineage s ∨ (h.scope s).children.length < place) ∧
        ∃ message, h.insertChild s place child = .error (.scope message)) ∨
      ((h.scope child).parent = none ∧ child ∉ h.lineage s ∧ place ≤ (h.scope s).children.length ∧
        h.insertChild s place child = .ok (h.attach s place child)) := by
  unfold insertChild
  dsimp only
  by_cases hparent : (h.scope child).parent.isSome = true
  · rw [if_pos hparent]
    exact .inl ⟨.inl (by simpa [Option.isSome_iff_ne_none] using hparent), _, rfl⟩
  · rw [if_neg hparent]
    by_cases hline : child ∈ h.lineage s
    · rw [if_pos hline]
      exact .inl ⟨.inr (.inl hline), _, rfl⟩
    · rw [if_neg hline]
      by_cases hplace : (h.scope s).children.length < place
      · rw [if_pos hplace]
        exact .inl ⟨.inr (.inr hplace), _, rfl⟩
      · rw [if_neg hplace]
        exact .inr ⟨by simpa using hparent, hline, by omega, rfl⟩

/-- What is attached without being refused leaves a forest. -/
theorem Forest.insertChild (hf : h.Forest) (hs : s.index < h.scopes.size)
    (hchild : child.index < h.scopes.size) (hok : h.insertChild s place child = .ok h') :
    h'.Forest := by
  rcases h.insertChild_cases s place child with ⟨-, message, herr⟩ | ⟨hparent, hline, hplace, heq⟩
  · rw [herr] at hok
    cases hok
  · obtain rfl : h.attach s place child = h' := Except.ok.inj (heq.symm.trans hok)
    apply hf.attach hs hchild hparent _ hplace
    rwa [← hf.mem_lineage_iff hchild]

theorem scopes_size_attach (s : ScopeId) (place : Nat) (u : ScopeId) :
    (h.attach s place u).scopes.size = h.scopes.size := by
  rw [attach, scopes_size_updateScope, setParent, scopes_size_updateScope]

/-! ## Copying in a forest -/

/-- The copy of a scope is there, and so is all that was there before. -/
theorem Forest.copyAlone_kept (hf : h.Forest) (hs : s.index < h.scopes.size) :
    h.Kept (h.copyAlone s.copy).2 ∧
      (h.copyAlone s.copy).1.index < (h.copyAlone s.copy).2.scopes.size := by
  obtain ⟨P, hP, -, hscopes⟩ := hf.toSound.region
  obtain ⟨σ, hc, hfound, -⟩ := ScopeId.copyAlone_spec hP (hscopes hs)
  exact ⟨hc.kept, (hc.scope hfound).2.2.1⟩

end Heap

/-! ## Executions -/

namespace Context

variable {ctx : Context} {h h' : Heap}

/-- The scopes that a context searches are there. -/
def Within (ctx : Context) (h : Heap) : Prop := ∀ s ∈ ctx.scopeChain, s.index < h.scopes.size

/-- An edit leaves a complete heap, be it a forest or not. -/
theorem Edit.carries (he : ctx.Edit h h') (hh : h.Complete) (hctx : ctx.Within h) :
    h.Carries h' := by
  have hscope := hctx _ ctx.scope_mem_scopeChain
  have hcopied : ∀ (source : ScopeId) (name : String), source ∈ (h.scope ctx.scope).children →
      h.Carries ((h.copyAlone source.copy).2.rename (h.copyAlone source.copy).1 name) ∧
        (h.copyAlone source.copy).1.index <
          ((h.copyAlone source.copy).2.rename (h.copyAlone source.copy).1 name).scopes.size := by
    intro source name hsource
    obtain ⟨hcarries, hcopy⟩ := hh.copyAlone (hh.child _ _ hsource)
    have hrenamed := hcarries.complete.rename (h.copyAlone source.copy).1 name
    exact ⟨hcarries.trans hrenamed, Nat.lt_of_lt_of_le hcopy hrenamed.scopes⟩
  cases he with
  | item v => exact hh.newItem v
  | @bind s hs name v =>
      have hitem := hh.newItem v
      exact hitem.trans (hitem.complete.bindVariable s name (by simp [Heap.newItem]))
  | write hs hi v => exact hh.of_scopes rfl (by simp [Heap.setValue])
  | unbind name => exact hh.unbindVariable _ name
  | «context» => exact hh.of_scopes rfl (Nat.le_refl _)
  | append count => exact hh.appendFresh hscope count
  | remove place => exact hh.removeChild _ place
  | clear => exact hh.clearChildren _
  | duplicate hsource name => exact (hcopied _ name hsource).1
  | graft hsource name hadd =>
      obtain ⟨hcarries, hcopy⟩ := hcopied _ name hsource
      exact hcarries.trans (hcarries.complete.insertChild
        (Nat.lt_of_lt_of_le hscope hcarries.scopes) hcopy hadd)

theorem execute_carries {w : World} (hh : w.heap.Complete) (hctx : ctx.Within w.heap)
    (setting : Setting) : w.heap.Carries (ctx.execute setting w).2.heap := by
  have hrow : ∀ {k}, ReflTransGen ctx.Edit w.heap k → w.heap.Carries k := by
    intro k hk
    induction hk with
    | refl => exact hh.refl
    | tail _ he ih =>
        exact ih.trans (he.carries ih.complete fun s hs => Nat.lt_of_lt_of_le (hctx s hs) ih.scopes)
  exact hrow (ctx.execute_along setting w)

theorem Edit.forest (he : ctx.Edit h h') (hf : h.Forest) (hctx : ctx.Within h) : h'.Forest := by
  have hscope := hctx _ ctx.scope_mem_scopeChain
  cases he with
  | item v => exact hf.newItem v
  | bind hs name v => exact (hf.newItem v).bindVariable _ name (by simp [Heap.newItem])
  | write hs hi v => exact hf.setValue _ v
  | unbind name => exact hf.unbindVariable _ name
  | «context» => exact hf.newContext
  | append count => exact hf.appendFresh hscope count
  | remove place => exact hf.removeChild _ place
  | clear => exact hf.clearChildren _
  | duplicate hsource name => exact (hf.copyAlone (hf.child _ _ hsource)).rename _ name
  | graft hsource name hadd =>
      have hsource := hf.child _ _ hsource
      obtain ⟨hkept, hcopy⟩ := hf.copyAlone_kept hsource
      have hsize : ∀ {k : Heap} {s f}, (k.updateScope s f).scopes.size = k.scopes.size :=
        Heap.scopes_size_updateScope
      apply ((hf.copyAlone hsource).rename _ name).insertChild _ _ hadd
      · rw [Heap.rename, hsize]
        exact Nat.lt_of_lt_of_le hscope hkept.scopes
      · rw [Heap.rename, hsize]
        exact hcopy

/-- An execution leaves a forest. -/
theorem execute_forest {w : World} (hf : w.heap.Forest) (hctx : ctx.Within w.heap)
    (setting : Setting) : (ctx.execute setting w).2.heap.Forest := by
  -- The scopes that the context searches are there all along.
  have hrow : ∀ {k}, ReflTransGen ctx.Edit w.heap k → k.Forest ∧ ctx.Within k := by
    intro k hk
    induction hk with
    | refl => exact ⟨hf, hctx⟩
    | tail _ he ih =>
        obtain ⟨hforest, hwithin⟩ := ih
        refine ⟨he.forest hforest hwithin, fun s hs => ?_⟩
        exact Nat.lt_of_lt_of_le (hwithin s hs) (he.carries hforest.toSound.complete hwithin).scopes
  exact (hrow (ctx.execute_along setting w)).1

end Context

/-! ## Operations -/

/-- What callers can do with scopes, and what runs can. -/
inductive ScopeOp where
  /-- Make a scope that is attached to nothing. -/
  | create (name : String)
  | rename (s : ScopeId) (name : String)
  /-- Bind a name to an item, in place of what it was bound to. -/
  | bind (s : ScopeId) (name : String) (i : ItemId)
  /-- Bind a name to a fresh item. -/
  | bindValue (s : ScopeId) (name : String) (v : Value)
  /-- Bind a name that is not bound yet. -/
  | bindNew (s : ScopeId) (name : String) (i : ItemId)
  | unbind (s : ScopeId) (name : String)
  /-- Attach a scope as the last sub-scope. -/
  | append (s child : ScopeId)
  /-- Attach a scope as the sub-scope at a place. -/
  | insert (s : ScopeId) (place : Nat) (child : ScopeId)
  | remove (s : ScopeId) (place : Nat)
  | clear (s : ScopeId)
  /-- Copy a scope in a session of its own. -/
  | copy (s : ScopeId)
  /-- Execute an operator. -/
  | execute (ctx : Context) (setting : Setting)
  /-- Forget all scopes but those that some scopes keep alive. -/
  | release (held : List ScopeId)

namespace ScopeOp

/-- The scopes that an operation names. -/
def scopes : ScopeOp → List ScopeId
  | create _ => []
  | rename s _ | bind s _ _ | bindValue s _ _ | bindNew s _ _ | unbind s _ => [s]
  | append s child | insert s _ child => [s, child]
  | remove s _ | clear s | copy s => [s]
  | execute ctx _ => ctx.scopeChain
  | release held => held

/-- The items that an operation names. -/
def items : ScopeOp → List ItemId
  | bind _ _ i | bindNew _ _ i => [i]
  | _ => []

/-- Is everything there that the operation names? -/
structure ValidIn (op : ScopeOp) (h : Heap) : Prop where
  scopes : ∀ s ∈ op.scopes, s.index < h.scopes.size
  items : ∀ i ∈ op.items, i.index < h.items.size

/-- Does the operation. -/
def run : ScopeOp → Act World Unit
  | create name => World.onHeap (Act.modify fun h => (h.newScope name).2)
  | rename s name => World.onHeap (Act.modify fun h => h.rename s name)
  | bind s name i => World.onHeap (Act.modify fun h => h.bindVariable s name i)
  | bindValue s name v => World.onHeap (Act.modify fun h =>
      let (i, h') := h.newItem v
      h'.bindVariable s name i)
  | bindNew s name i => World.onHeap (Act.commit fun h => h.addVariable s name i)
  | unbind s name => World.onHeap (Act.modify fun h => (h.removeVariable s name).2)
  | append s child => World.onHeap (Act.commit fun h => h.addChild s child)
  | insert s place child => World.onHeap (Act.commit fun h => h.insertChild s place child)
  | remove s place => World.onHeap (Act.modify fun h => (h.removeChild s place).2)
  | clear s => World.onHeap (Act.modify fun h => (h.clearChildren s).2)
  | copy s => World.onHeap (Act.modify fun h => (h.copyAlone s.copy).2)
  | execute ctx setting => do
    let _ ← ctx.execute setting
    pure ()
  | release held => World.onHeap (Act.modify fun h => h.release held)

/-- Every operation leaves a forest. -/
theorem run_forest {w : World} (op : ScopeOp) (hf : w.heap.Forest) (hop : op.ValidIn w.heap) :
    (op.run w).2.heap.Forest := by
  have hcommit : ∀ f : Heap → Except Failure Heap, (∀ h', f w.heap = .ok h' → h'.Forest) →
      (World.onHeap (Act.commit f) w).2.heap.Forest := by
    intro f hok
    show (Act.commit f w.heap).2.Forest
    rw [Act.commit]
    cases hfw : f w.heap with
    | ok h' => exact hok h' hfw
    | error e => exact hf
  obtain ⟨hscopes, hitems⟩ := hop
  cases op with
  | create name => exact hf.newScope name
  | rename s name => exact hf.rename s name
  | bind s name i => exact hf.bindVariable s name (hitems i List.mem_cons_self)
  | bindValue s name v => exact (hf.newItem v).bindVariable s name (by simp [Heap.newItem])
  | bindNew s name i =>
      refine hcommit _ fun h' hok => ?_
      unfold Heap.addVariable at hok
      split at hok
      · cases hok
      · cases hok
        exact hf.bindVariable s name (hitems i List.mem_cons_self)
  | unbind s name => exact hf.unbindVariable s name
  | append s child =>
      exact hcommit _ fun h' hok => hf.insertChild (hscopes s (by simp [scopes]))
        (hscopes child (by simp [scopes])) hok
  | insert s place child =>
      exact hcommit _ fun h' hok => hf.insertChild (hscopes s (by simp [scopes]))
        (hscopes child (by simp [scopes])) hok
  | remove s place => exact hf.removeChild s place
  | clear s => exact hf.clearChildren s
  | copy s => exact hf.copyAlone (hscopes s List.mem_cons_self)
  | execute ctx setting =>
      have hrun := Context.execute_forest hf hscopes setting
      show (((ctx.execute setting) >>= fun _ => pure ()) w).2.heap.Forest
      rw [Act.bind_apply]
      generalize ctx.execute setting w = r at hrun ⊢
      obtain ⟨e | answer, w'⟩ := r <;> exact hrun
  | release held => exact hf.release hscopes

/-- Every operation on scopes leaves a complete heap, trees or not. -/
theorem run_carries {w : World} (op : ScopeOp) (hh : w.heap.Complete)
    (hop : op.ValidIn w.heap) : w.heap.Carries (op.run w).2.heap := by
  have hcommit : ∀ f : Heap → Except Failure Heap,
      (∀ h', f w.heap = .ok h' → w.heap.Carries h') →
      w.heap.Carries (World.onHeap (Act.commit f) w).2.heap := by
    intro f hok
    show w.heap.Carries (Act.commit f w.heap).2
    rw [Act.commit]
    cases hfw : f w.heap with
    | ok h' => exact hok h' hfw
    | error e => exact hh.refl
  obtain ⟨hscopes, hitems⟩ := hop
  cases op with
  | create name => exact hh.newScope name
  | rename s name => exact hh.rename s name
  | bind s name i => exact hh.bindVariable s name (hitems i List.mem_cons_self)
  | bindValue s name v =>
      have hitem := hh.newItem v
      exact hitem.trans (hitem.complete.bindVariable s name (by simp [Heap.newItem]))
  | bindNew s name i =>
      exact hcommit _ fun h' hok => hh.addVariable (hitems i List.mem_cons_self) hok
  | unbind s name => exact hh.unbindVariable s name
  | append s child =>
      exact hcommit _ fun h' hok => hh.insertChild (hscopes s (by simp [scopes]))
        (hscopes child (by simp [scopes])) hok
  | insert s place child =>
      exact hcommit _ fun h' hok => hh.insertChild (hscopes s (by simp [scopes]))
        (hscopes child (by simp [scopes])) hok
  | remove s place => exact hh.removeChild s place
  | clear s => exact hh.clearChildren s
  | copy s => exact (hh.copyAlone (hscopes s List.mem_cons_self)).1
  | execute ctx setting =>
      have hrun := Context.execute_carries hh hscopes setting
      show w.heap.Carries (((ctx.execute setting) >>= fun _ => pure ()) w).2.heap
      rw [Act.bind_apply]
      generalize ctx.execute setting w = r at hrun ⊢
      obtain ⟨e | answer, w'⟩ := r <;> exact hrun
  | release held => exact hh.release held

end ScopeOp

/-! ## Worlds -/

/-- The worlds that operations on scopes lead to, one after another, from one
without scopes. -/
inductive World.Built : World → Prop
  | start {w : World} (hnone : w.heap.scopes = #[]) : w.Built
  | step {w : World} (hw : w.Built) (op : ScopeOp) (hop : op.ValidIn w.heap) : (op.run w).2.Built
  /-- Whatever else is done in between leaves the scopes alone. -/
  | aside {w w' : World} (hw : w.Built) (hscopes : w'.heap.scopes = w.heap.scopes)
      (hitems : w.heap.items.size ≤ w'.heap.items.size) : w'.Built

theorem Heap.Forest.of_none {h : Heap} (hnone : h.scopes = #[]) : h.Forest := by
  have hscope : ∀ s, h.scope s = .named "" := fun s => scope_of_le (by simp [hnone])
  constructor
  · constructor
    · intro s entry he
      rw [hscope] at he
      cases he
    · intro s
      rw [hscope]
      exact .nil
    · intro s c hc
      rw [hscope] at hc
      cases hc
    · intro s p hp
      rw [hscope] at hp
      cases hp
    · refine ⟨fun _ => 0, fun s _ c hc => ?_⟩
      rw [hscope] at hc
      cases hc
  · intro p c
    rw [hscope, hscope]
    exact ⟨nofun, nofun⟩
  · intro s
    rw [hscope]
    exact .nil

theorem World.Built.forest {w : World} (hw : w.Built) : w.heap.Forest := by
  induction hw with
  | start hnone => exact .of_none hnone
  | step _ op hop ih => exact op.run_forest ih hop
  | @aside w w' _ hscopes hitems ih =>
      have hscope := Heap.scope_congr hscopes
      exact ih.of_same (fun s => by rw [hscope]) (fun s => by rw [hscope])
        (fun s => by rw [hscope]) hitems (Nat.le_of_eq (by rw [hscopes]))

/-! ## Trees -/

namespace Heap

variable {h : Heap} {s t p c : ScopeId} {n : Nat}

/-- No scope is so deep below another as there are scopes. -/
theorem RankedBelow.scopesAtDepth {S : ScopeId → Prop} {rank : ScopeId → Nat}
    (hr : h.RankedBelow S rank) (n : Nat) :
    ∀ {s}, S s → rank s < n → h.scopesAtDepth n s = [] := by
  induction n with
  | zero =>
      intro s _ hlt
      omega
  | succ n ih =>
      intro s hs hlt
      rw [Heap.scopesAtDepth]
      refine List.flatMap_eq_nil_iff.mpr fun c hc => ?_
      obtain ⟨hcS, hrank⟩ := hr.child hs c hc
      exact ih hcS (by omega)

/-- A name is found exactly if it is listed, with the item that it is listed
with. -/
theorem Sound.binding?_iff (hs : h.Sound) (s : ScopeId) (name : String) (i : ItemId) :
    h.binding? s name = some i ↔ (name, i) ∈ (h.scope s).bindings.entries :=
  (hs.sorted s).find?_iff

/-- The scopes of a heap form trees. -/
structure InTrees (h : Heap) : Prop where
  /-- A scope has one place among all lists of sub-scopes together. -/
  place : ∀ (p q c : ScopeId) (n m : Nat), (h.scope p).children[n]? = some c →
    (h.scope q).children[m]? = some c → p = q ∧ n = m
  /-- A scope is listed by its parent and by no other. -/
  linked : ∀ p c, c ∈ (h.scope p).children ↔ (h.scope c).parent = some p
  /-- The chain of parents is that of the scopes above, visits none of them
  twice, and ends at one without a parent. -/
  chain : ∀ s : ScopeId, s.index < h.scopes.size →
    (∀ t : ScopeId, t.index < h.scopes.size → (t ∈ h.lineage s ↔ h.Below t s)) ∧
      (h.lineage s).Nodup ∧
      ∃ root, (h.lineage s).getLast? = some root ∧ (h.scope root).parent = none
  /-- No bound on a walk upwards or downwards cuts it short. -/
  walks : ∀ s : ScopeId, s.index < h.scopes.size → ∀ n, h.scopes.size ≤ n →
    h.lineageWithin n s = h.lineage s ∧ h.scopesAtDepth n s = [] ∧
      h.snapshotWithin n s = h.snapshot s ∧
      copyScopeWithin (n + 1) s ⟨.empty, h⟩ = s.copy ⟨.empty, h⟩
  /-- A variable is stored under its own name and under no other. -/
  stored : ∀ s name i, h.binding? s name = some i ↔ (name, i) ∈ (h.scope s).bindings.entries

theorem Forest.asTrees (hf : h.Forest) : h.InTrees where
  place := fun _ _ _ _ _ => hf.only_place
  linked := hf.linked
  chain := by
    intro s hs
    obtain ⟨rank, hr⟩ := hf.ranks
    refine ⟨fun t ht => hf.mem_lineage_iff ht, hf.lineage_nodup s, ?_⟩
    exact hf.lineageWithin_root hr _ hs (by omega)
  walks := by
    intro s hs n hn
    obtain ⟨rank, hr⟩ := hf.ranks
    have hlt := hr.lt hs
    refine ⟨?_, ?_, ?_, ?_⟩
    · exact hf.lineageWithin_eq hr n hs (by omega) (by omega)
    · exact hr.scopesAtDepth n hs (by omega)
    · exact snapshotWithin_eq hr n hs (by omega) (by omega)
    · -- In a session of its own everything is still to be copied.
      obtain ⟨P, hP, -, hscopes⟩ := hf.toSound.region
      have hstart : Copied P id h (fun _ => False) ⟨.empty, h⟩ := .start_empty hf.rooted
      have hunseen := Session.unseen_le_self .empty h.scopes.size
      have hrule := Copied.rule (φ := id) hP (fun _ hs => hs) fun _ hs => hP.child hs
      exact hrule.copyScopeWithin_eq (n + 1) _ _ s _ hstart (hscopes hs)
        (Nat.lt_succ_of_le (Nat.le_trans hunseen hn)) (Nat.lt_succ_of_le hunseen)
  stored := hf.toSound.binding?_iff

end Heap

/-- Attaching a scope at a place among the sub-scopes of another: when it is
refused, and what becomes of the world. -/
structure ScopeOp.Attaches (op : ScopeOp) (w : World) (s : ScopeId) (place : Nat)
    (child : ScopeId) : Prop where
  /-- Refused are a scope that has a parent, the target and what is above it,
  and a place past the end. -/
  refused : (∃ e, (op.run w).1 = .error e) ↔ (w.heap.scope child).parent ≠ none ∨
    w.heap.Below child s ∨ (w.heap.scope s).children.length < place
  /-- A refusal is a failure of its kind and changes nothing. -/
  failed : ∀ e, (op.run w).1 = .error e → (∃ message, e = .scope message) ∧ (op.run w).2 = w
  /-- Otherwise just this scope gets this parent and comes to this place. -/
  attached : (op.run w).1 = .ok () → (op.run w).2 = { w with heap := (op.run w).2.heap } ∧
    (op.run w).2.heap.items = w.heap.items ∧
    ∀ t, (op.run w).2.heap.scope t = { w.heap.scope t with
      children := if t = s then (w.heap.scope s).children.insertIdx place child
        else (w.heap.scope t).children
      parent := if t = child then some s else (w.heap.scope t).parent }

theorem ScopeOp.insert_attaches {w : World} {s child : ScopeId} (hf : w.heap.Forest)
    (hs : s.index < w.heap.scopes.size) (hchild : child.index < w.heap.scopes.size) (place : Nat) :
    (ScopeOp.insert s place child).Attaches w s place child := by
  have hrun : (ScopeOp.insert s place child).run w =
      ((Act.commit (fun h => h.insertChild s place child) w.heap).1,
        { w with heap := (Act.commit (fun h => h.insertChild s place child) w.heap).2 }) := rfl
  have hline := hf.mem_lineage_iff (s := s) hchild
  rcases w.heap.insertChild_cases s place child with
    ⟨hwhy, message, heq⟩ | ⟨hparent, habove, hplace, heq⟩
  · have hsame : (ScopeOp.insert s place child).run w = (.error (.scope message), w) := by
      rw [hrun, Act.commit, heq]
    rw [hline] at hwhy
    refine ⟨⟨fun _ => hwhy, fun _ => ⟨_, by rw [hsame]⟩⟩, fun e he => ?_, fun hok => ?_⟩
    · rw [hsame] at he ⊢
      cases he
      exact ⟨⟨message, rfl⟩, rfl⟩
    · rw [hsame] at hok
      cases hok
  · have hdone : (ScopeOp.insert s place child).run w =
        (.ok (), { w with heap := w.heap.attach s place child }) := by
      rw [hrun, Act.commit, heq]
    rw [hline] at habove
    refine ⟨⟨fun herr => ?_, fun hwhy => ?_⟩, fun e he => ?_, fun _ => ?_⟩
    · obtain ⟨e, he⟩ := herr
      rw [hdone] at he
      cases he
    · rcases hwhy with hwhy | hwhy | hwhy
      · exact absurd hparent hwhy
      · exact absurd hwhy habove
      · omega
    · rw [hdone] at he
      cases he
    · rw [hdone]
      exact ⟨rfl, rfl, Heap.scope_attach hs hchild place⟩

/-- The last place is one of the places. -/
theorem ScopeOp.append_attaches {w : World} {s child : ScopeId} (hf : w.heap.Forest)
    (hs : s.index < w.heap.scopes.size) (hchild : child.index < w.heap.scopes.size) :
    (ScopeOp.append s child).Attaches w s (w.heap.scope s).children.length child := by
  have hrun : (ScopeOp.append s child).run w =
      (ScopeOp.insert s (w.heap.scope s).children.length child).run w := rfl
  obtain ⟨hrefused, hfailed, hattached⟩ :=
    ScopeOp.insert_attaches hf hs hchild (w.heap.scope s).children.length
  rw [← hrun] at hrefused hfailed hattached
  exact ⟨hrefused, hfailed, hattached⟩

/-- After any operations on scopes the scopes form trees; and attaching one to
another, at a place or as the last, is refused exactly where they would not,
and does nothing else. -/
theorem World.Built.inTrees {w : World} (hw : w.Built) :
    w.heap.InTrees ∧ ∀ s child : ScopeId, s.index < w.heap.scopes.size →
      child.index < w.heap.scopes.size →
        (∀ place, (ScopeOp.insert s place child).Attaches w s place child) ∧
        (ScopeOp.append s child).Attaches w s (w.heap.scope s).children.length child := by
  refine ⟨hw.forest.asTrees, fun s child hs hchild => ⟨fun place => ?_, ?_⟩⟩
  · exact ScopeOp.insert_attaches hw.forest hs hchild place
  · exact ScopeOp.append_attaches hw.forest hs hchild

namespace Sample

/-- Two scopes, not attached yet. -/
def clearing : World := ((ScopeOp.create "b").run ((ScopeOp.create "a").run .empty).2).2

/-- Two scopes, the second in the first. -/
def grove : World := ((ScopeOp.append ⟨0⟩ ⟨1⟩).run clearing).2

theorem grove_inTrees : grove.heap.InTrees ∧ (grove.heap.scope ⟨1⟩).parent = some ⟨0⟩ ∧
    ∃ e, ((ScopeOp.append ⟨1⟩ ⟨0⟩).run grove).1 = .error e := by
  have hempty : World.empty.Built := .start rfl
  have hclearing : clearing.Built :=
    (hempty.step (.create "a") ⟨nofun, nofun⟩).step (.create "b") ⟨nofun, nofun⟩
  have hgrove : grove.Built := hclearing.step (.append ⟨0⟩ ⟨1⟩) ⟨by decide, nofun⟩
  obtain ⟨htrees, hattaches⟩ := World.Built.inTrees hgrove
  refine ⟨htrees, by decide, ?_⟩
  apply (hattaches ⟨1⟩ ⟨0⟩ (by decide) (by decide)).2.refused.mpr
  exact .inr (.inl (.child .self (by decide)))

end Sample

end ScopeFlow
