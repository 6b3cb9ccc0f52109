import ScopeFlow.Proofs.Drain.Courses

/-!
# What a drain keeps up

A property of the world and one of the contexts pending in it that every
execution keeps up, the second one also of what it answers, hold at the end of
every drain (`DrainSetting.drain_bears`). The contexts in one branch are not
lost to what is executed in another, as long as what has been fit stays fit.
-/

namespace ScopeFlow

variable {Good : World → Prop} {Fits : World → Context → Prop} {w w' w'' : World}
  {op : Operation} {ops ops' : List Operation}

/-- The world is good, and what was fit before is still fit. -/
structure World.Bears (Good : World → Prop) (Fits : World → Context → Prop) (w w' : World) :
    Prop where
  good : Good w'
  fits : ∀ c, Fits w c → Fits w' c

theorem World.Bears.refl (h : Good w) : World.Bears Good Fits w w := ⟨h, fun _ hc => hc⟩

theorem World.Bears.trans (h : World.Bears Good Fits w w') (h' : World.Bears Good Fits w' w'') :
    World.Bears Good Fits w w'' :=
  ⟨h'.good, fun c hc => h'.fits c (h.fits c hc)⟩

/-- All contexts in some operations are fit. -/
def Operation.AllFit (Fits : World → Context → Prop) (w : World) (ops : List Operation) : Prop :=
  ∀ c ∈ contextsOfAll ops, Fits w c

namespace Operation

theorem allFit_cons : AllFit Fits w (op :: ops) ↔ (∀ c ∈ op.contexts, Fits w c) ∧ AllFit Fits w ops := by
  simp only [AllFit, contextsOfAll, List.mem_append, or_imp, forall_and]

theorem allFit_append : AllFit Fits w (ops ++ ops') ↔ AllFit Fits w ops ∧ AllFit Fits w ops' := by
  simp only [AllFit, contextsOfAll_append, List.mem_append, or_imp, forall_and]

theorem AllFit.single (h : ∀ c ∈ op.contexts, Fits w c) : AllFit Fits w [op] :=
  allFit_cons.mpr ⟨h, nofun⟩

theorem AllFit.bear (h : AllFit Fits w ops) (hw : World.Bears Good Fits w w') :
    AllFit Fits w' ops :=
  fun c hc => hw.fits c (h c hc)

end Operation

open Operation (AllFit)

/-- What a drain has come to, from a world and a stack that were in order. -/
structure Drained.Bears (Good : World → Prop) (Fits : World → Context → Prop) (w : World)
    (d : Drained) : Prop where
  world : World.Bears Good Fits w d.progress.world
  stack : AllFit Fits d.progress.world d.stack

namespace DrainSetting

variable {r : DrainSetting} {fuel : Nat} {budget : Option Nat} {stack : List Operation}
  {load : Load} {p : Progress} {xs : List Effort} {qs : List Progress} {u : Option Upshot}
  {d : Drained}

/-- What every execution keeps up, every course does. -/
theorem Course.bears
    (hexec : ∀ w ctx pending, Good w → Fits w ctx →
      World.Bears Good Fits w (r.execute ctx pending w).2 ∧
        ∀ next, (r.execute ctx pending w).1 = .ok next →
          AllFit Fits (r.execute ctx pending w).2 next.toList)
    (h : r.Course fuel load p xs qs u) : Good p.world → AllFit Fits p.world load.ops →
      ∀ v, u = some v → World.Bears Good Fits p.world v.progress.world ∧
        ∀ c ∈ v.contexts, Fits v.progress.world c := by
  induction h with
  | out | stuck | first => rintro - - v ⟨⟩
  | dry | halt =>
      rintro hgood hfit v ⟨⟩
      rw [Upshot.contexts_upshot]
      exact ⟨.refl hgood, hfit⟩
  | unpack hm _ ih =>
      intro hgood hfit
      rw [Load.ops, Operation.allFit_cons, move_unpack_contexts hm] at hfit
      exact ih hgood (Operation.allFit_append.mpr hfit)
  | joined hm _ _ ih =>
      rintro hgood hfit v ⟨⟩
      rw [Load.ops, Operation.allFit_cons, move_split_contexts hm] at hfit
      obtain ⟨hworld, hends⟩ := ih hgood hfit.1 _ rfl
      rw [Upshot.contexts_upshot, Operation.contexts_stackOn, List.forall_mem_append]
      exact ⟨hworld, hends, AllFit.bear hfit.2 hworld⟩
  | through hm _ _ _ ihb ih =>
      intro hgood hfit v hv
      rw [Load.ops, Operation.allFit_cons, move_split_contexts hm] at hfit
      obtain ⟨hworld, -⟩ := ihb hgood hfit.1 _ rfl
      obtain ⟨hworld', hends⟩ := ih hworld.good (AllFit.bear hfit.2 hworld) v hv
      exact ⟨hworld.trans hworld', hends⟩
  | @fail _ _ ctx rest p e w _ hx =>
      rintro hgood hfit v ⟨⟩
      obtain ⟨hworld, -⟩ := hexec p.world ctx rest.length hgood (hfit ctx List.mem_cons_self)
      rw [hx] at hworld
      rw [Upshot.contexts_upshot]
      exact ⟨hworld, AllFit.bear hfit hworld⟩
  | @last _ _ ctx rest p next w _ hx _ =>
      rintro hgood hfit v ⟨⟩
      obtain ⟨hworld, hnext⟩ := hexec p.world ctx rest.length hgood (hfit ctx List.mem_cons_self)
      rw [hx] at hworld hnext
      rw [Load.ops, Operation.allFit_cons] at hfit
      rw [Upshot.contexts_upshot]
      exact ⟨hworld, Operation.allFit_append.mpr ⟨hnext next rfl, AllFit.bear hfit.2 hworld⟩⟩
  | @perform _ _ _ ctx rest p next w _ _ _ _ hx _ _ ih =>
      intro hgood hfit v hv
      obtain ⟨hworld, hnext⟩ := hexec p.world ctx rest.length hgood (hfit ctx List.mem_cons_self)
      rw [hx] at hworld hnext
      rw [Load.ops, Operation.allFit_cons] at hfit
      have hstack := Operation.allFit_append.mpr ⟨hnext next rfl, AllFit.bear hfit.2 hworld⟩
      obtain ⟨hworld', hends⟩ := ih hworld.good hstack v hv
      exact ⟨hworld.trans hworld', hends⟩
  | empty =>
      rintro hgood - v ⟨⟩
      refine ⟨.refl hgood, fun c hc => ?_⟩
      cases hc
  | @next _ _ _ _ _ _ _ _ d _ _ _ ihb ih =>
      intro hgood hfit v hv
      obtain ⟨v', hv', rfl⟩ := Option.map_eq_some_iff.mp hv
      rw [Load.ops, Operation.allFit_cons] at hfit
      obtain ⟨hworld, hstack⟩ := ihb hgood (AllFit.single hfit.1) _ rfl
      obtain ⟨hworld', hends⟩ := ih hworld.good (AllFit.bear hfit.2 hworld) v' hv'
      -- What the branch leaves stays fit while the others are drained.
      rw [Upshot.contexts_upshot] at hstack
      rw [Upshot.contexts_after, List.forall_mem_append]
      exact ⟨hworld.trans hworld', AllFit.bear hstack hworld', hends⟩

/-- What every execution keeps up, every drain does. -/
theorem drain_bears
    (hexec : ∀ w ctx pending, Good w → Fits w ctx →
      World.Bears Good Fits w (r.execute ctx pending w).2 ∧
        ∀ next, (r.execute ctx pending w).1 = .ok next →
          AllFit Fits (r.execute ctx pending w).2 next.toList)
    (hd : r.drain fuel budget stack p = some d) (hgood : Good p.world)
    (hfit : AllFit Fits p.world stack) : d.Bears Good Fits p.world := by
  have hcourse := r.drain_course fuel budget stack p
  rw [hd] at hcourse
  obtain ⟨hworld, hstack⟩ := hcourse.bears hexec hgood hfit d.upshot rfl
  rw [Upshot.contexts_upshot] at hstack
  exact ⟨hworld, hstack⟩

end DrainSetting

end ScopeFlow
