import ScopeFlow.Proofs.Operator.Variables
import ScopeFlow.Proofs.Scope.Subtrees

/-!
# Duplicated sub-scopes

A duplicator reads a place among the sub-scopes of the bound scope, counted
from the end if it is negative, and appends a copy of the sub-scope there.

* `Context.pickSubScope_eq_some_iff` and `Context.pickSubScope_eq_none_iff` say
  which places there are;
* `Context.duplicateSubScope_grafts` says that the copy of a sub-scope that is
  there is never refused;
* `Context.duplicator_grows` is what an execution comes to.
-/

namespace ScopeFlow

namespace Context

variable {ctx : Context} {h : Heap} {name : String} {subs : List ScopeId} {source : ScopeId}
  {index : Int64} {e : Failure}

/-! ## Places -/

/-- Is there a sub-scope at the index, from the front or from the end? -/
def InRange (count : Nat) (index : Int) : Prop := -(count : Int) ≤ index ∧ index < count

instance (count : Nat) (index : Int) : Decidable (InRange count index) :=
  inferInstanceAs (Decidable (_ ∧ _))

/-- The place that an index means among so many sub-scopes. -/
def placeOf (count : Nat) (index : Int) : Int := if index < 0 then count + index else index

theorem pickSubScope_eq_some_iff {index : Int} : pickSubScope subs index = some source ↔
    ∃ place : Nat, (place : Int) = placeOf subs.length index ∧ subs[place]? = some source := by
  unfold pickSubScope
  show (if placeOf subs.length index < 0 then none else subs[(placeOf subs.length index).toNat]?) =
    some source ↔ _
  generalize placeOf subs.length index = place
  constructor
  · intro hpick
    obtain ⟨hplace, hsource⟩ := Option.ite_none_left_eq_some.mp hpick
    exact ⟨place.toNat, Int.toNat_of_nonneg (not_lt.mp hplace), hsource⟩
  · rintro ⟨place, rfl, hsource⟩
    simpa using hsource

theorem pickSubScope_eq_none_iff {index : Int} :
    pickSubScope subs index = none ↔ ¬ InRange subs.length index := by
  unfold pickSubScope InRange
  simp only [ite_eq_left_iff, List.getElem?_eq_none_iff]
  split <;> omega

/-! ## Appending a copy -/

theorem duplicateSubScope_unread (cancelled : Bool)
    (hread : (ctx.getInt "SubScopeIndex" h).1 = .error e) :
    ctx.duplicateSubScope name cancelled h = (.error e, (ctx.getInt "SubScopeIndex" h).2) := by
  unfold duplicateSubScope
  rw [Act.bind_apply, Act.see_apply]
  dsimp only
  rw [Act.bind_apply]
  generalize ctx.getInt "SubScopeIndex" h = r at hread ⊢
  obtain ⟨x, h'⟩ := r
  obtain rfl : x = .error e := hread
  rfl

section

variable (hread : (ctx.getInt "SubScopeIndex" h).1 = .ok index)
include hread

theorem duplicateSubScope_read (cancelled : Bool) :
    ctx.duplicateSubScope name cancelled h =
      (match pickSubScope (h.scope ctx.scope).children index.toInt with
        | none => Act.fail (noSubScope name index (h.scope ctx.scope).children.length)
        | some source => do
          checkCancelled cancelled
          let copy ← Act.change fun h => h.copyAlone source.copy
          Act.modify fun k => k.rename copy (toString (h.scope ctx.scope).children.length)
          Act.commit fun h => h.addChild ctx.scope copy) (ctx.getInt "SubScopeIndex" h).2 := by
  unfold duplicateSubScope
  rw [Act.bind_apply, Act.see_apply]
  dsimp only
  rw [Act.bind_apply]
  generalize ctx.getInt "SubScopeIndex" h = r at hread ⊢
  obtain ⟨x, h'⟩ := r
  obtain rfl : x = .ok index := hread
  rfl

/-- Without a sub-scope at the place nothing but the reading is done. -/
theorem duplicateSubScope_out_of_range (cancelled : Bool)
    (hrange : ¬ InRange (h.scope ctx.scope).children.length index.toInt) :
    ctx.duplicateSubScope name cancelled h =
      (.error (noSubScope name index (h.scope ctx.scope).children.length),
        (ctx.getInt "SubScopeIndex" h).2) := by
  rw [duplicateSubScope_read hread, pickSubScope_eq_none_iff.mpr hrange]
  rfl

theorem duplicateSubScope_cancelled
    (hpick : pickSubScope (h.scope ctx.scope).children index.toInt = some source) :
    ctx.duplicateSubScope name true h =
      (.error .cancelled, (ctx.getInt "SubScopeIndex" h).2) := by
  rw [duplicateSubScope_read hread, hpick]
  rfl

/-- The copy of a sub-scope that is there is attached without being refused. -/
theorem duplicateSubScope_grafts (name : String) (hf : h.Forest)
    (hscope : ctx.scope.index < h.scopes.size)
    (hpick : pickSubScope (h.scope ctx.scope).children index.toInt = some source) :
    ∃ h' copy, ctx.duplicateSubScope name false h = (.ok (), h') ∧
      h.Grafted h' ctx.scope source copy (toString (h.scope ctx.scope).children.length) := by
  have hu := ctx.getInt_untouched "SubScopeIndex" h
  rw [duplicateSubScope_read hread, hpick]
  generalize (ctx.getInt "SubScopeIndex" h).2 = h₁ at hu ⊢
  have hsize : h₁.scopes.size = h.scopes.size := congrArg Array.size hu.scopes
  have hsource : source.index < h₁.scopes.size :=
    hsize ▸ hf.child _ _ (pickSubScope_mem hpick)
  obtain ⟨h', hadd, hgrafted⟩ := (hu.forest hf).graft (hsize ▸ hscope) hsource
    (toString (h.scope ctx.scope).children.length)
  have happly := Act.commit_apply (f := fun h => h.copyAlone source.copy)
    (g := fun copy k => k.rename copy (toString (h.scope ctx.scope).children.length))
    (r := fun copy k => k.addChild ctx.scope copy) hadd
  exact ⟨h', _, happly, hu.graft hf hgrafted⟩

end

/-- Whatever a duplicator fails for, it has only read. -/
theorem duplicateSubScope_failed (hf : h.Forest) (hscope : ctx.scope.index < h.scopes.size)
    {cancelled : Bool} (hfail : (ctx.duplicateSubScope name cancelled h).1 = .error e) :
    h.Untouched (ctx.duplicateSubScope name cancelled h).2 := by
  have hu := ctx.getInt_untouched "SubScopeIndex" h
  cases hread : (ctx.getInt "SubScopeIndex" h).1 with
  | error e' => rwa [duplicateSubScope_unread cancelled hread]
  | ok index =>
    cases hpick : pickSubScope (h.scope ctx.scope).children index.toInt with
    | none =>
      rwa [duplicateSubScope_out_of_range hread cancelled (pickSubScope_eq_none_iff.mp hpick)]
    | some source =>
      cases cancelled with
      | true => rwa [duplicateSubScope_cancelled hread hpick]
      | false =>
        obtain ⟨h', copy, hgrows, -⟩ := duplicateSubScope_grafts hread name hf hscope hpick
        rw [hgrows] at hfail
        cases hfail

/-! ## Whole executions -/

/-- **Duplicators append one copy.** Let a duplicator without a successor read an
index, without having been cancelled. It succeeds exactly if the index is in
range, from the negative of the number of sub-scopes up to that number. It then
appends one copy of the sub-scope at the place meant: the copy comes after the
others, is named by its own place, and matches the original in the names of
variables, in values, in the order and the names of what is below, and in what
shares an item with what. Nothing of it was there before, and nothing else has
changed. A failure, for whatever reason, leaves all scopes and items as they
were. -/
theorem duplicator_grows {op : Operator} {w : World} (setting : Setting)
    (hop : ctx.operator = .ok op) (hkind : op.kind = .subScopeDuplicator)
    (hlast : op.successor = none) (hf : w.heap.Forest) (hctx : ctx.Within w.heap)
    (hsubs : (w.heap.scope ctx.scope).children = subs) :
    (∀ index, w.isCancelled setting.token = false →
      (ctx.getInt "SubScopeIndex" w.heap).1 = .ok index →
      ((∃ next, (ctx.execute setting w).1 = .ok next) ↔ InRange subs.length index.toInt) ∧
        (InRange subs.length index.toInt →
          ∃ (place : Nat) (source copy : ScopeId) (h' : Heap),
            (place : Int) = placeOf subs.length index.toInt ∧ subs[place]? = some source ∧
              ctx.execute setting w = (.ok none, { w with heap := h' }) ∧
              w.heap.Grafted h' ctx.scope source copy (toString subs.length) ∧ h'.Forest) ∧
        (¬ InRange subs.length index.toInt →
          (ctx.execute setting w).1 = .error (noSubScope op.name index subs.length))) ∧
      ∀ e w', ctx.execute setting w = (.error e, w') →
        ∃ h', w' = { w with heap := h' } ∧ w.heap.Untouched h' := by
  subst hsubs
  have hscope := hctx _ ctx.scope_mem_scopeChain
  have hforest := ctx.execute_forest hf hctx setting
  have hexecute : ctx.execute setting w =
      ((ctx.duplicateSubScope op.name (w.isCancelled setting.token) w.heap).1.map fun _ => none,
        { w with heap :=
            (ctx.duplicateSubScope op.name (w.isCancelled setting.token) w.heap).2 }) := by
    refine execute_last hop (by rw [hkind]; rfl) hlast ?_
    unfold Operator.work
    rw [hkind]
  rw [hexecute] at hforest ⊢
  constructor
  · intro index htoken hread
    rw [htoken] at hforest ⊢
    by_cases hrange : InRange (w.heap.scope ctx.scope).children.length index.toInt
    · obtain ⟨source, hpick⟩ := Option.ne_none_iff_exists'.mp
        fun hnone => pickSubScope_eq_none_iff.mp hnone hrange
      obtain ⟨place, hplace, hsource⟩ := pickSubScope_eq_some_iff.mp hpick
      obtain ⟨h', copy, hgrows, hgrafted⟩ :=
        duplicateSubScope_grafts hread op.name hf hscope hpick
      rw [hgrows] at hforest ⊢
      exact ⟨⟨fun _ => hrange, fun _ => ⟨none, rfl⟩⟩,
        fun _ => ⟨place, source, copy, h', hplace, hsource, rfl, hgrafted, hforest⟩,
        fun hout => absurd hrange hout⟩
    · rw [duplicateSubScope_out_of_range hread false hrange]
      exact ⟨⟨fun ⟨_, hok⟩ => (nomatch hok), fun hin => absurd hin hrange⟩,
        fun hin => absurd hin hrange, fun _ => rfl⟩
  · -- No index is given here, and the token may have been cancelled.
    intro e w' hfail
    obtain ⟨hanswer, rfl⟩ := Prod.mk.inj hfail
    refine ⟨_, rfl, ?_⟩
    cases hdone : (ctx.duplicateSubScope op.name (w.isCancelled setting.token) w.heap).1 with
    | error e' => exact duplicateSubScope_failed hf hscope hdone
    | ok x =>
      rw [hdone] at hanswer
      cases hanswer

end Context

namespace Sample

/-- A duplicator of the last sub-scope but one. -/
def nurseryGraph : SharedGraph :=
  ⟨⟨0⟩, ⟨"Nursery", ⟨[]⟩, #[⟨"Duplicate",
    ⟨[{ Parameter.lookup "SubScopeIndex" .int with default := some ⟨1⟩ }]⟩, none,
    .subScopeDuplicator⟩], some ⟨0⟩⟩⟩

def nurseryContext : Context := .frame ⟨1⟩ ⟨0⟩ ⟨0⟩ [⟨0⟩] (.root ⟨0⟩ nurseryGraph ⟨0⟩)

/-- A scope with two sub-scopes, of which the first has one in turn. All three
on that path share a source in the midst of its stream. -/
def nursery : World :=
  [ScopeOp.create "Global", .create "0", .create "1", .create "inner", .append ⟨0⟩ ⟨1⟩,
    .append ⟨0⟩ ⟨2⟩, .append ⟨1⟩ ⟨3⟩, .bind ⟨0⟩ "Seed" ⟨0⟩, .bind ⟨1⟩ "Seed" ⟨0⟩,
    .bind ⟨3⟩ "Source" ⟨0⟩].foldl (fun w op => (op.run w).2)
    { World.empty with heap := ⟨#[.random ⟨7, 2, 5⟩, .int (-2)], #[], 2, 1⟩ }

theorem nursery_forest : nursery.heap.Forest := by
  have hstart : World.Built
      { World.empty with heap := ⟨#[.random ⟨7, 2, 5⟩, .int (-2)], #[], 2, 1⟩ } := .start rfl
  have hscopes := (((hstart.step (.create "Global") ⟨nofun, nofun⟩).step
    (.create "0") ⟨nofun, nofun⟩).step (.create "1") ⟨nofun, nofun⟩).step
    (.create "inner") ⟨nofun, nofun⟩
  have htree := ((hscopes.step (.append ⟨0⟩ ⟨1⟩) ⟨by decide, nofun⟩).step
    (.append ⟨0⟩ ⟨2⟩) ⟨by decide, nofun⟩).step (.append ⟨1⟩ ⟨3⟩) ⟨by decide, nofun⟩
  have hbound := ((htree.step (.bind ⟨0⟩ "Seed" ⟨0⟩) ⟨by decide, by decide⟩).step
    (.bind ⟨1⟩ "Seed" ⟨0⟩) ⟨by decide, by decide⟩).step
    (.bind ⟨3⟩ "Source" ⟨0⟩) ⟨by decide, by decide⟩
  exact hbound.forest

/-- The first sub-scope is copied. The two variables in the copy share a source
of their own, at the same point of the stream. -/
theorem duplicator_grows_nursery : ∃ copy inner j h',
    nurseryContext.execute ⟨⟨0⟩, none⟩ nursery = (.ok none, { nursery with heap := h' }) ∧
      (h'.scope ⟨0⟩).children = [⟨1⟩, ⟨2⟩, copy] ∧ (h'.scope copy).name = "2" ∧
      (h'.scope copy).children = [inner] ∧ (h'.scope inner).name = "inner" ∧
      h'.binding? copy "Seed" = some j ∧ h'.binding? inner "Source" = some j ∧
      j ≠ ⟨0⟩ ∧ h'.value j = .random ⟨7, 2, 5⟩ := by
  have hctx : nurseryContext.Within nursery.heap := by
    have hchain : nurseryContext.scopeChain = [⟨0⟩] := by rfl
    intro s hs
    rw [hchain, List.mem_singleton] at hs
    subst hs
    decide
  have hop : nurseryContext.operator = .ok nurseryGraph.graph.operators[0] := by rfl
  have hindex : (nurseryContext.getInt "SubScopeIndex" nursery.heap).1 = .ok (-2) := by rfl
  have hsubs : (nursery.heap.scope nurseryContext.scope).children = [⟨1⟩, ⟨2⟩] := by decide
  obtain ⟨-, hin, -⟩ := (Context.duplicator_grows ⟨⟨0⟩, none⟩ hop rfl rfl nursery_forest hctx
    hsubs).1 (-2) rfl hindex
  obtain ⟨place, source, copy, h', hplace, hsource, hexecute, hgrafted, -⟩ := hin (by decide)
  obtain rfl : place = 0 := Int.ofNat.inj hplace
  obtain rfl : ⟨1⟩ = source := Option.some.inj hsource
  obtain ⟨ρ, hρ⟩ := hgrafted.image
  obtain ⟨inner, hinner, hchildren⟩ :
      ∃ inner, ρ.scopes ⟨3⟩ inner ∧ (h'.scope copy).children = [inner] := by
    have hall := hρ.children hρ.top
    rw [show (nursery.heap.scope ⟨1⟩).children = [⟨3⟩] by decide] at hall
    generalize (h'.scope copy).children = cs at hall ⊢
    cases hall with
    | cons hinner hnil =>
      cases hnil
      exact ⟨_, hinner, rfl⟩
  obtain ⟨j, hj, hpaired⟩ := rel_some_left (hρ.binding? hρ.top "Seed")
    (show nursery.heap.binding? ⟨1⟩ "Seed" = some ⟨0⟩ by decide)
  have hshared : h'.binding? copy "Seed" = h'.binding? inner "Source" :=
    (hρ.sharing hρ.top hinner "Seed" "Source").mp (by decide)
  have hfresh := hgrafted.fresh j (hρ.held_iff'.mpr ⟨_, hpaired⟩)
  have hlisted : (h'.scope ⟨0⟩).children = (nursery.heap.scope ⟨0⟩).children ++ [copy] :=
    congrArg Scope.children hgrafted.scope
  refine ⟨copy, inner, j, h', hexecute, hlisted, hgrafted.named, hchildren, ?_, hj, hshared ▸ hj,
    ?_, ?_⟩
  · rw [← hρ.name hinner (by decide)]
    decide
  · rintro rfl
    exact absurd hfresh (by decide)
  · rw [← hρ.value hpaired]
    rfl

end Sample

end ScopeFlow
