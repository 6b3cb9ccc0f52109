import ScopeFlow.Proofs.Engine.Discards

/-!
# Joined halts

Requests differ in strength, and a look at a control finds the strongest of
those pending. Branches that have halted are joined in another way: of their
halts the first one counts. As long as all of them have halted for the same
reason there is no difference, and branches drained one after another always
have, since nothing is executed once a halt is due. Branches that look at
different moments, with requests coming in between from elsewhere, may halt
for different reasons; then their order decides, and a pause seen by the first
of them hides a stop seen by a later one.

* `Halt.strength` orders halts as a look does (`World.halt?_eq_some_iff`);
* `joinBranches_unfailed`: the first halt counts;
* `joinBranches_strongest_iff`: the strongest one counts, however the branches
  are ordered, exactly if all have halted alike (`HaltedAlike`);
* `drainBranches_haltedAlike`: branches drained one after another have;
* `Engine.first_halt_counts`: all of it, with what becomes of the engine.
-/

namespace ScopeFlow

/-! ## The strength of halts -/

/-- How strong a halt is. Of several requests the strongest one counts; what
no one has asked for is weaker than all of them. -/
def Halt.strength : Halt → Nat
  | .abort => 5
  | .stop => 4
  | .cancel => 3
  | .pause => 2
  | .fault => 1
  | .budget => 0

/-- The halt is for a request that ends the run for good. -/
def Halt.Final (why : Halt) : Prop := Halt.pause.strength < why.strength

instance (why : Halt) : Decidable why.Final := inferInstanceAs (Decidable (_ < _))

/-- A request is pending that a drain would halt for. -/
def World.Asks (w : World) (c : ControlId) : Halt → Prop
  | .abort => (w.control c).abort = true
  | .stop => (w.control c).stop = true
  | .cancel => w.isCancelled (w.token c) = true
  | .pause => (w.control c).pause = true
  | .fault | .budget => False

theorem World.asks_of_halt? {w : World} {c : ControlId} {why : Halt} (h : w.halt? c = some why) :
    w.Asks c why := by
  unfold halt? at h
  dsimp only at h
  split at h
  · next habort => exact Option.some.inj h ▸ habort
  · split at h
    · next hstop => exact Option.some.inj h ▸ hstop
    · split at h
      · next hcancel => exact Option.some.inj h ▸ hcancel
      · split at h
        · next hpause => exact Option.some.inj h ▸ hpause
        · cases h

/-- A look overlooks no request, unless for a stronger one. -/
theorem World.exists_halt?_of_asks {w : World} {c : ControlId} {other : Halt}
    (h : w.Asks c other) : ∃ why, w.halt? c = some why ∧ other.strength ≤ why.strength := by
  unfold halt?
  dsimp only
  split
  · exact ⟨.abort, rfl, by cases other <;> decide⟩
  · next habort =>
    split
    · refine ⟨.stop, rfl, ?_⟩
      cases other with
      | abort => exact absurd h habort
      | _ => decide
    · next hstop =>
      split
      · refine ⟨.cancel, rfl, ?_⟩
        cases other with
        | abort => exact absurd h habort
        | stop => exact absurd h hstop
        | _ => decide
      · next hcancel =>
        cases other with
        | abort => exact absurd h habort
        | stop => exact absurd h hstop
        | cancel => exact absurd h hcancel
        | pause => exact ⟨.pause, if_pos h, Nat.le_refl _⟩
        | fault => cases h
        | budget => cases h

theorem Halt.strength_inj {why other : Halt} (h : why.strength = other.strength) :
    why = other := by
  cases why <;> cases other <;> first | rfl | cases h

/-- What a look finds is the strongest request pending. -/
theorem World.halt?_eq_some_iff {w : World} {c : ControlId} {why : Halt} :
    w.halt? c = some why ↔
      w.Asks c why ∧ ∀ other, w.Asks c other → other.strength ≤ why.strength := by
  constructor
  · intro h
    refine ⟨asks_of_halt? h, fun other hother => ?_⟩
    obtain ⟨why', hwhy', hle⟩ := exists_halt?_of_asks hother
    obtain rfl : why' = why := Option.some.inj (hwhy'.symm.trans h)
    exact hle
  · rintro ⟨hasked, hle⟩
    obtain ⟨why', hwhy', hge⟩ := exists_halt?_of_asks hasked
    have hle' : why'.strength ≤ why.strength := hle why' (asks_of_halt? hwhy')
    rw [hwhy', Halt.strength_inj (Nat.le_antisymm hle' hge)]

/-! ## What a join keeps -/

/-- None of the branches has failed. -/
def Unfailed (ends : List BranchEnd) : Prop := ∀ b ∈ ends, ∀ e, b.outcome ≠ .failed e

/-- One of the branches has halted for this reason, and none for a stronger one. -/
structure StrongestHalt (ends : List BranchEnd) (why : Halt) : Prop where
  mem : ∃ b ∈ ends, b.halt? = some why
  le : ∀ b ∈ ends, ∀ other, b.halt? = some other → other.strength ≤ why.strength

/-- All branches that have halted have done so for the same reason. -/
def HaltedAlike (ends : List BranchEnd) : Prop :=
  ∀ b ∈ ends, ∀ b' ∈ ends, ∀ why why', b.halt? = some why → b'.halt? = some why' → why = why'

variable {ends ends' : List BranchEnd} {b : BranchEnd} {why : Halt}

theorem Joined.add_halt (j : Joined) (b : BranchEnd) : (j.add b).halt = j.halt.or b.halt? := by
  unfold Joined.add BranchEnd.halt?
  cases b.outcome with
  | ended halt => rfl
  | failed e => cases j.failure <;> simp

theorem foldl_add_halt (ends : List BranchEnd) (j : Joined) :
    (ends.foldl Joined.add j).halt = j.halt.or (ends.findSome? BranchEnd.halt?) := by
  induction ends generalizing j with
  | nil => simp
  | cons b ends ih =>
      rw [List.foldl_cons, ih, Joined.add_halt, Option.or_assoc, List.findSome?_cons]
      cases b.halt? <;> rfl

/-- Branches none of which has failed end together in the first of their halts. -/
theorem joinBranches_unfailed (hok : Unfailed ends) :
    (joinBranches ends).outcome = .ended (ends.findSome? BranchEnd.halt?) := by
  have hhalt : (joinBranches ends).halt = ends.findSome? BranchEnd.halt? :=
    foldl_add_halt ends .empty
  unfold Joined.outcome
  cases hf : (joinBranches ends).failure with
  | none => rw [← hhalt]
  | some e =>
      have hfailed : (joinBranches ends).outcome = .failed e := by
        unfold Joined.outcome
        rw [hf]
      obtain ⟨b, hb, he⟩ := exists_of_joinBranches hfailed nofun
      exact absurd he (hok b hb e)

/-- In some order of the branches, any of them that has halted is the one that counts. -/
theorem exists_perm_of_halted (hok : Unfailed ends) (hb : b ∈ ends) (hwhy : b.halt? = some why) :
    ∃ ends', ends'.Perm ends ∧ (joinBranches ends').outcome = .ended (some why) := by
  obtain ⟨before, after, rfl⟩ := List.append_of_mem hb
  have hperm : (b :: (before ++ after)).Perm (before ++ b :: after) := List.perm_middle.symm
  refine ⟨b :: (before ++ after), hperm, ?_⟩
  rw [joinBranches_unfailed fun x hx => hok x (hperm.mem_iff.mp hx), List.findSome?_cons, hwhy]

theorem HaltedAlike.strongest (h : HaltedAlike ends) (hb : b ∈ ends) (hwhy : b.halt? = some why) :
    StrongestHalt ends why where
  mem := ⟨b, hb, hwhy⟩
  le b' hb' other hother := by rw [h b hb b' hb' why other hwhy hother]

/-- The strongest halt counts, however the branches are ordered, exactly if they
have halted alike. -/
theorem joinBranches_strongest_iff (hok : Unfailed ends) :
    (∀ ends', ends'.Perm ends → ∀ why, (joinBranches ends').outcome = .ended (some why) →
      StrongestHalt ends why) ↔ HaltedAlike ends := by
  constructor
  · intro h b hb b' hb' why why' hwhy hwhy'
    obtain ⟨_, hperm, ho⟩ := exists_perm_of_halted hok hb hwhy
    obtain ⟨_, hperm', ho'⟩ := exists_perm_of_halted hok hb' hwhy'
    have hle : why'.strength ≤ why.strength := (h _ hperm why ho).le b' hb' why' hwhy'
    have hge : why.strength ≤ why'.strength := (h _ hperm' why' ho').le b hb why hwhy
    exact Halt.strength_inj (Nat.le_antisymm hge hle)
  · intro h ends' hperm why ho
    rw [joinBranches_unfailed fun x hx => hok x (hperm.mem_iff.mp hx)] at ho
    obtain ⟨b, hb, hwhy⟩ := List.exists_of_findSome?_eq_some (Outcome.ended.inj ho)
    exact h.strongest (hperm.mem_iff.mp hb) hwhy

/-! ## Branches one after another -/

theorem BranchEnd.outcome_of_halt? (h : b.halt? = some why) : b.outcome = .ended (some why) := by
  unfold halt? at h
  split at h
  · next ho => rw [ho, h]
  · cases h

namespace DrainSetting

variable {r : DrainSetting} {fuel : Nat} {ops : List Operation} {p p' : Progress}

/-- No request that is pending is stronger than what is due. -/
theorem strength_le_of_halts? {other : Halt} (hdue : r.halts? p = some why)
    (h : p.world.Asks r.control other) : other.strength ≤ why.strength := by
  obtain ⟨why', hwhy', hle⟩ := World.exists_halt?_of_asks h
  obtain rfl : why' = why := Option.some.inj ((halts?_of_halt? hwhy').symm.trans hdue)
  exact hle

/-- Branches drained one after another halt for what is due when all have ended. -/
theorem drainBranches_halts
    (h : drainBranches (fun op p => r.drain fuel none [op] p) ops p = some (ends, p'))
    (hb : b ∈ ends) (hwhy : b.halt? = some why) : r.halts? p' = some why := by
  have hcourse := branches_course (fun op p => r.drain_course fuel none [op] p) ops p
  rw [h] at hcourse
  have hhalted := hcourse.halted ⟨ends, p'⟩ rfl b hb why (BranchEnd.outcome_of_halt? hwhy)
  exact (hhalted.resolve_left fun hbudget => hbudget.2 rfl).1

theorem drainBranches_haltedAlike
    (h : drainBranches (fun op p => r.drain fuel none [op] p) ops p = some (ends, p')) :
    HaltedAlike ends := by
  intro b hb b' hb' why why' hwhy hwhy'
  have hdue := drainBranches_halts h hb hwhy
  exact Option.some.inj (hdue.symm.trans (drainBranches_halts h hb' hwhy'))

/-- Of branches drained one after another the strongest halt counts. -/
theorem drainBranches_strongest (hok : Unfailed ends)
    (h : drainBranches (fun op p => r.drain fuel none [op] p) ops p = some (ends, p'))
    (hb : b ∈ ends) (hwhy : b.halt? = some why) :
    (joinBranches ends).outcome = .ended (some why) ∧ StrongestHalt ends why := by
  have halike := drainBranches_haltedAlike h
  refine ⟨?_, halike.strongest hb hwhy⟩
  rw [joinBranches_unfailed hok]
  cases hfirst : ends.findSome? BranchEnd.halt? with
  | none =>
      rw [List.findSome?_eq_none_iff.mp hfirst b hb] at hwhy
      cases hwhy
  | some why' =>
      obtain ⟨b', hb', hwhy'⟩ := List.exists_of_findSome?_eq_some hfirst
      rw [halike b hb b' hb' why why' hwhy hwhy']

end DrainSetting

/-! ## What becomes of the engine -/

namespace Engine

variable {e : Engine} {d : Drained}

/-- A drain that halts for a request that ends the run throws away what is pending. -/
theorem afterDrain_final (ho : d.outcome = .ended (some why)) (hfinal : why.Final) :
    Discards d.progress.world (e.afterDrain d) := by
  unfold afterDrain
  rw [ho]
  cases why with
  | abort => exact ⟨rfl, .inr rfl, rfl, rfl⟩
  | stop => exact ⟨rfl, .inl rfl, rfl, rfl⟩
  | cancel => exact ⟨rfl, .inl rfl, rfl, rfl⟩
  | pause | fault | budget => exact absurd hfinal (by decide)

/-- A drain that halts for a pause keeps it. -/
theorem afterDrain_paused (ho : d.outcome = .ended (some .pause)) (hstack : d.stack ≠ []) :
    (e.afterDrain d).engine.state = .paused ∧
      (e.afterDrain d).engine.continuation = d.stack := by
  obtain ⟨outcome, stack, p⟩ := d
  obtain rfl : outcome = .ended (some .pause) := ho
  cases stack with
  | nil => exact absurd rfl hstack
  | cons op ops => exact ⟨rfl, rfl⟩

/-- **The first halt counts.** Branches none of which has failed end together
in the first of their halts. That is the strongest one, whatever their order,
exactly if they have halted alike. Branches drained one after another have, and
no request pending after them is stronger. Where the first halt is for a request
that ends the run, the engine throws away what is pending; where it is for a
pause, the engine pauses with all of it, also if another branch has halted for
something stronger. -/
theorem first_halt_counts (hok : Unfailed ends) :
    (joinBranches ends).outcome = .ended (ends.findSome? BranchEnd.halt?) ∧
    ((∀ ends', ends'.Perm ends → ∀ why, (joinBranches ends').outcome = .ended (some why) →
      StrongestHalt ends why) ↔ HaltedAlike ends) ∧
    (∀ (r : DrainSetting) fuel ops p p',
      drainBranches (fun op p => r.drain fuel none [op] p) ops p = some (ends, p') →
      HaltedAlike ends ∧ ∀ b ∈ ends, ∀ why, b.halt? = some why →
        (joinBranches ends).outcome = .ended (some why) ∧ StrongestHalt ends why ∧
        ∀ other, p'.world.Asks r.control other → other.strength ≤ why.strength) ∧
    ∀ (e : Engine) d why, d.outcome = (joinBranches ends).outcome →
      ends.findSome? BranchEnd.halt? = some why →
      (why.Final → Discards d.progress.world (e.afterDrain d)) ∧
      (why = .pause → d.stack ≠ [] → (e.afterDrain d).engine.state = .paused ∧
        (e.afterDrain d).engine.continuation = d.stack) := by
  refine ⟨joinBranches_unfailed hok, joinBranches_strongest_iff hok, fun r fuel ops p p' h => ?_,
    fun e d why ho hfirst => ?_⟩
  · refine ⟨DrainSetting.drainBranches_haltedAlike h, fun b hb why hwhy => ?_⟩
    obtain ⟨ho, hstrongest⟩ := DrainSetting.drainBranches_strongest hok h hb hwhy
    have hdue := DrainSetting.drainBranches_halts h hb hwhy
    exact ⟨ho, hstrongest, fun other => DrainSetting.strength_le_of_halts? hdue⟩
  · rw [joinBranches_unfailed hok, hfirst] at ho
    refine ⟨afterDrain_final ho, ?_⟩
    rintro rfl
    exact afterDrain_paused ho

end Engine

namespace Sample

/-- Of two branches the first looks when a pause has been asked for, and the
second when a stop has been as well. They end together in the pause, and the
engine pauses with both of them pending. -/
theorem late_stop_hidden :
    ∃ first second, pausingEngine.setting.drain 9 none [single pausingGraph 2 1]
        ⟨undisturbed.pause ⟨0⟩, 0, false⟩ = some first ∧
      pausingEngine.setting.drain 9 none [single pausingGraph 3 1]
        ⟨(undisturbed.pause ⟨0⟩).stop ⟨0⟩, 0, false⟩ = some second ∧
      ∃ ends, ends = [⟨first.outcome, first.stack⟩, ⟨second.outcome, second.stack⟩] ∧
        Unfailed ends ∧ StrongestHalt ends .stop ∧
        (joinBranches ends).outcome = .ended (some .pause) ∧
        ∃ d, d = ⟨(joinBranches ends).outcome, (joinBranches ends).stackOn [], second.progress⟩ ∧
          (pausingEngine.afterDrain d).result = .ok .paused ∧
          (pausingEngine.afterDrain d).engine.continuation ≠ [] := by
  refine ⟨_, _, rfl, rfl, _, rfl, ?_, ⟨?_, ?_⟩, rfl, _, rfl, rfl, nofun⟩
  · exact List.forall_mem_cons.mpr ⟨nofun, List.forall_mem_cons.mpr ⟨nofun, nofun⟩⟩
  · exact ⟨_, List.mem_cons_of_mem _ List.mem_cons_self, rfl⟩
  · refine List.forall_mem_cons.mpr ⟨?_, List.forall_mem_cons.mpr ⟨?_, nofun⟩⟩
    · rintro other ⟨⟩
      decide
    · rintro other ⟨⟩
      decide

end Sample

end ScopeFlow
