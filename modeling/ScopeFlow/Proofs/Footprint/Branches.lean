import Mathlib.Data.List.Perm.Basic
import ScopeFlow.Proofs.Engine.Repeats
import ScopeFlow.Proofs.Footprint.Origin

/-!
# Branches in any order

Branches of which none reads or writes what another one writes may be drained
in any order: each does the same in contexts that stand for one another, and
the trees come to the same (`DrainSetting.branches_reorder`).

* `DrainSetting.branches` are branches as they are drained one after another,
  `Branch.reads` and `Branch.writes` what their executions read and write;
* `Branch.Dry.follows`: a branch that runs dry does so from every heap of the
  same origin in which nothing that it touches has changed;
* `branches_settle`: of branches drained one after another, each comes upon
  what it touches as it was at the beginning, and leaves it as it is at the end;
* `Branch.Again` is a branch done again somewhere in the other order;
* `Serial` is the invariant of the other order: after some of the branches, the
  heap matches the one that all of them lead to, apart from what the rest
  write.
-/

namespace ScopeFlow

/-- One of several branches that are drained one after another: from where, with
which turns, and how far. -/
structure Branch where
  op : Operation
  start : Progress
  turns : List Turn
  stop : Progress

namespace Branch

/-- The executions of a branch. -/
def efforts (b : Branch) : List Effort := Turn.efforts b.start b.turns

/-- What some execution of a branch reads. -/
def reads (b : Branch) : Set Place := {x | ∃ effort ∈ b.efforts, x ∈ effort.reads}

/-- What some execution of a branch writes. -/
def writes (b : Branch) : Set Place := {x | ∃ effort ∈ b.efforts, x ∈ effort.writes}

/-- What a branch reads or writes. -/
def touches (b : Branch) : Set Place := b.reads ∪ b.writes

/-- What comes into being while a branch is drained. -/
def makes (b : Branch) : Set Place :=
  {x | ¬ b.start.world.heap.Has x ∧ b.stop.world.heap.Has x}

/-- Neither of two branches reads or writes what the other one writes. -/
structure Independent (b c : Branch) : Prop where
  left : ∀ x ∈ b.touches, x ∉ c.writes
  right : ∀ x ∈ c.touches, x ∉ b.writes

theorem Independent.symm {b c : Branch} (h : b.Independent c) : c.Independent b :=
  ⟨h.right, h.left⟩

/-- A branch is drained to its end, and its record says how. -/
structure Dry (r : DrainSetting) (fuel : Nat) (b : Branch) : Prop where
  drain : r.drain fuel none [b.op] b.start = some ⟨.ended none, [], b.stop⟩
  turns : r.turns fuel none [b.op] b.start = b.turns

end Branch

namespace DrainSetting

/-- The branches of a collection as they are drained one after another, as far
as the fuel lasts. -/
def branches (r : DrainSetting) (fuel : Nat) : List Operation → Progress → List Branch
  | [], _ => []
  | op :: ops, p =>
    match r.drain fuel none [op] p with
    | none => []
    | some d => ⟨op, p, r.turns fuel none [op] p, d.progress⟩ :: r.branches fuel ops d.progress

theorem branches_cons {r : DrainSetting} {fuel : Nat} {op : Operation} {ops : List Operation}
    {p : Progress} {d : Drained} (hd : r.drain fuel none [op] p = some d) :
    r.branches fuel (op :: ops) p =
      ⟨op, p, r.turns fuel none [op] p, d.progress⟩ :: r.branches fuel ops d.progress := by
  rw [branches, hd]

end DrainSetting

/-! ## One branch -/

section

variable {r : DrainSetting} {fuel : Nat} {V V' : Set Place} {p q : Progress} {b : Branch}

/-- From every heap of the same origin in which nothing that it touches has
changed, a branch runs dry as it does where it was drained. -/
theorem Branch.Dry.follows (hb : b.Dry r fuel) (hf : p.world.heap.Forest)
    (hop : b.op.Alike p.world.heap.identity.asRenaming b.op)
    (hp : p.KeepsBut V b.start) (hq : p.KeepsBut V' q) (hV : ∀ x ∈ b.touches, x ∉ V)
    (hV' : ∀ x ∈ b.touches, x ∉ V') :
    ∃ ρ q', r.drain fuel none [b.op] q = some ⟨.ended none, [], q'⟩ ∧
      Progress.InStep (b.touches ∪ {x | ¬ b.start.world.heap.Has x}) b.writes
        p.world.heap.identity ρ b.start b.stop q q' ∧
      List.Forall₂ (Turn.Alike ρ) b.turns (r.turns fuel none [b.op] q) := by
  have hm : b.start.Matched (b.touches ∪ {x | ¬ b.start.world.heap.Has x})
      p.world.heap.identity q := by
    refine .of_origin hf hp hq (fun x hx hhas => ?_) fun x hno => .inr hno
    rcases hx with hx | hno
    · exact ⟨hV x hx, hV' x hx⟩
    · exact absurd (hp.heap.has hhas) hno
  have hcovers : Covers (b.touches ∪ {x | ¬ b.start.world.heap.Has x}) b.writes
      (Turn.efforts b.start (r.turns fuel none [b.op] b.start)) := by
    rw [hb.turns]
    exact fun effort heffort => ⟨fun x hx => .inl (.inl ⟨effort, heffort, hx⟩),
      fun x hx => ⟨effort, heffort, hx⟩⟩
  have hrun := r.drain_followed fuel hb.drain rfl hcovers hm (.cons hop .nil)
  rwa [hb.turns] at hrun

/-- What a branch changes of what there was at the beginning is what it
writes. -/
theorem Branch.Dry.keeps (hb : b.Dry r fuel) (hf : p.world.heap.Forest)
    (hop : b.op.Alike p.world.heap.identity.asRenaming b.op)
    (hp : p.KeepsBut V b.start) (hV : ∀ x ∈ b.touches, x ∉ V) :
    b.start.KeepsBut {x | p.world.heap.Has x ∧ x ∈ b.writes} b.stop := by
  -- The branch follows itself, and a follower changes only what stands for what is
  -- written, which under the identity is what is written and was there.
  obtain ⟨ρ, q', hd, hstep, -⟩ := hb.follows hf hop hp hp hV hV
  rw [hb.drain] at hd
  cases hd
  exact .of_inStep hstep

end

/-! ## In the order of the list -/

/-- A branch that comes upon what it touches as it was at the beginning, and
leaves it as it is at the end. -/
structure Branch.Settled (r : DrainSetting) (fuel : Nat) (p p' : Progress) (b : Branch) : Prop
    extends b.Dry r fuel where
  alike : b.op.Alike p.world.heap.identity.asRenaming b.op
  before : ∃ V, p.KeepsBut V b.start ∧ ∀ x ∈ b.touches, x ∉ V
  after : b.stop.world.heap.KeepsBut {x | p.world.heap.Has x ∧ x ∉ b.touches} p'.world.heap

/-- Branches that are drained one after another from `q` on, the whole of them
from `p` to `p'`. -/
structure Settle (r : DrainSetting) (fuel : Nat) (p q p' : Progress) (ops : List Operation)
    (bs : List Branch) : Prop where
  ops : List.Forall₂ (fun op b => op = b.op) ops bs
  keeps : q.KeepsBut {x | p.world.heap.Has x ∧ ∃ b ∈ bs, x ∈ b.writes} p'
  settled : ∀ b ∈ bs, b.Settled r fuel p p'
  later : ∀ b ∈ bs, ∀ x, q.world.heap.Has x → b.start.world.heap.Has x
  apart : bs.Pairwise fun b c => ∀ x ∈ b.makes, x ∉ c.makes

/-- One more branch, drained before the others. -/
theorem Settle.cons {r : DrainSetting} {fuel : Nat} {V : Set Place} {p p' : Progress}
    {ops : List Operation} {b : Branch} {bs : List Branch} (hb : b.Dry r fuel)
    (hf : p.world.heap.Forest) (hop : b.op.Alike p.world.heap.identity.asRenaming b.op)
    (hp : p.KeepsBut V b.start) (hV : ∀ x ∈ b.touches, x ∉ V)
    (hfirst : ∀ c ∈ bs, b.Independent c) (hs : Settle r fuel p b.stop p' ops bs) :
    Settle r fuel p b.start p' (b.op :: ops) (b :: bs) := by
  have hkeeps := hb.keeps hf hop hp hV
  refine ⟨.cons rfl hs.ops, ?_, ?_, ?_, ?_⟩
  · refine (hkeeps.narrow fun x hx _ => ?_).trans (hs.keeps.narrow fun x hx _ => ?_)
    · exact ⟨hx.1, b, List.mem_cons_self, hx.2⟩
    · obtain ⟨hhas, c, hc, hx⟩ := hx
      exact ⟨hhas, c, List.mem_cons_of_mem _ hc, hx⟩
  · refine List.forall_mem_cons.mpr ⟨⟨hb, hop, ⟨V, hp, hV⟩, ?_⟩, hs.settled⟩
    refine hs.keeps.heap.narrow fun x hx _ => ?_
    obtain ⟨hhas, c, hc, hx⟩ := hx
    exact ⟨hhas, fun hmem => (hfirst c hc).left x hmem hx⟩
  · refine List.forall_mem_cons.mpr ⟨fun x hx => hx, fun c hc x hx => ?_⟩
    exact hs.later c hc x (hkeeps.heap.has hx)
  · refine List.pairwise_cons.mpr ⟨fun c hc => ?_, hs.apart⟩
    exact fun x hx hx' => hx'.1 (hs.later c hc x hx.2)

theorem DrainSetting.branches_settle {r : DrainSetting} {fuel : Nat} {p p' : Progress}
    (hf : p.world.heap.Forest) (ops : List Operation) : ∀ {V q ends},
    drainBranches (fun op p => r.drain fuel none [op] p) ops q = some (ends, p') →
      (∀ b ∈ ends, b.outcome = .ended none) → p.KeepsBut V q →
      Operation.AllAlike p.world.heap.identity.asRenaming ops ops →
      (∀ b ∈ r.branches fuel ops q, ∀ x ∈ b.touches, x ∉ V) →
      (r.branches fuel ops q).Pairwise Branch.Independent →
      Settle r fuel p q p' ops (r.branches fuel ops q) := by
  induction ops with
  | nil =>
      intro V q ends hb _ hq _ _ _
      cases hb
      exact ⟨.nil, .refl hq.forest, by simp [branches], by simp [branches], .nil⟩
  | cons op ops ih =>
      intro V q ends hb hdry hq hops hV hindep
      cases hops with
      | cons hop hops =>
          unfold drainBranches at hb
          cases hd : r.drain fuel none [op] q with
          | none => rw [hd] at hb; cases hb
          | some d =>
              rw [hd] at hb
              dsimp only at hb
              cases hrest : drainBranches (fun op p => r.drain fuel none [op] p) ops
                  d.progress with
              | none => rw [hrest] at hb; cases hb
              | some x =>
                  obtain ⟨ends', p''⟩ := x
                  rw [hrest] at hb
                  cases hb
                  obtain ⟨hout, hothers⟩ := List.forall_mem_cons.mp hdry
                  have hend : d = ⟨.ended none, [], d.progress⟩ := by
                    rw [← (r.stack_eq_nil_iff fuel hd).mpr hout, ← show d.outcome = _ from hout]
                  have hrun : Branch.Dry r fuel
                      ⟨op, q, r.turns fuel none [op] q, d.progress⟩ :=
                    ⟨hd.trans (congrArg some hend), rfl⟩
                  rw [branches_cons hd] at hV hindep ⊢
                  obtain ⟨hVb, hV⟩ := List.forall_mem_cons.mp hV
                  obtain ⟨hfirst, hindep⟩ := List.pairwise_cons.mp hindep
                  have hkeeps := hrun.keeps hf hop hq hVb
                  -- What the first branch has written is touched by none of the others.
                  have hnext : p.KeepsBut (V ∪ Branch.writes _) d.progress :=
                    (hq.narrow fun x hx _ => .inl hx).trans (hkeeps.narrow fun x hx _ => .inr hx.2)
                  have hV' := fun c hc x hx hmem =>
                    Or.elim hmem (hV c hc x hx) ((hfirst c hc).right x hx)
                  exact .cons hrun hf hop hq hVb hfirst (ih hrest hothers hnext hops hV' hindep)

/-! ## In another order -/

/-- Two branches that may trade places: they are independent, and what they
make differs. -/
structure Branch.Apart (b c : Branch) : Prop extends b.Independent c where
  makes : ∀ x ∈ b.makes, x ∉ c.makes

theorem Branch.Apart.symm {b c : Branch} (h : b.Apart c) : c.Apart b :=
  ⟨h.toIndependent.symm, fun x hc hb => h.makes x hb hc⟩

/-- A branch has been done again, from `q` to `q'`. What it has written and made
matches what all branches lead to. -/
structure Branch.Again (p p' : Progress) (b : Branch) (σ : Pairing) (q q' : Progress) : Prop where
  keeps : q.KeepsBut {x | p.world.heap.Has x ∧ x ∈ b.writes} q'
  within : p.world.heap.identity.Within σ
  new : ∀ x ∈ b.makes, ¬ p.world.heap.Has x
  places : ∀ {x y}, σ.Places x y →
    p.world.heap.identity.Places x y ∨ x ∈ b.makes ∧ ¬ q.world.heap.Has y
  matched : HeapsMatch (b.writes ∪ b.makes ∪ {x | ¬ p'.world.heap.Has x}) σ p'.world.heap
    q'.world.heap

theorem Branch.Settled.again {r : DrainSetting} {fuel : Nat} {V : Set Place} {p p' q : Progress}
    {b : Branch} (hb : b.Settled r fuel p p') (hf : p.world.heap.Forest) (hq : p.KeepsBut V q)
    (hV : ∀ x ∈ b.touches, x ∉ V) :
    ∃ σ q', r.drain fuel none [b.op] q = some ⟨.ended none, [], q'⟩ ∧ b.Again p p' σ q q' ∧
      List.Forall₂ (Turn.Alike σ) b.turns (r.turns fuel none [b.op] q) := by
  obtain ⟨V', hbefore, hV'⟩ := hb.before
  obtain ⟨σ, q', hd, hstep, hturns⟩ := hb.follows hf hb.alike hbefore hq hV' hV
  have hnew : ∀ x ∈ b.makes, ¬ p.world.heap.Has x :=
    fun x hx hhas => hx.1 (hbefore.heap.has hhas)
  have hstill : q'.world.heap.KeepsBut ∅ q'.world.heap := .refl
  -- The branch leaves what it wrote and made as the last one does, so the match with
  -- its own end is carried on to the end of all.
  refine ⟨σ, q', hd, ⟨.of_inStep hstep, hstep.heap.within, hnew, fun hxy => ?_, ?_⟩, hturns⟩
  · exact (hstep.heap.places hxy).imp id fun hno =>
      ⟨⟨hno.1, (hstep.heap.matched.has hxy).1⟩, hno.2⟩
  · refine hstep.heap.matched.onward hb.after hstill (fun hxy hx => ?_) .inr
    rcases hx with (hx | hx) | hno
    · exact ⟨.inl (.inr hx), fun hout => hout.2 (.inr hx), Set.notMem_empty _⟩
    · exact ⟨.inr hx.1, fun hout => hnew _ hx hout.1, Set.notMem_empty _⟩
    · exact absurd (hb.after.has (hstep.heap.matched.has hxy).1) hno

/-- Some branches are done in another order and some still to do. The heap
matches the one that all of them lead to, but for what is still to be written. -/
structure Serial (p p' : Progress) (done todo : List Branch) (ρ : Pairing) (q : Progress) :
    Prop where
  keeps : p.KeepsBut {x | ∃ b ∈ done, x ∈ b.writes} q
  within : p.world.heap.identity.Within ρ
  places : ∀ {x y}, ρ.Places x y → p.world.heap.identity.Places x y ∨
    (∃ b ∈ done, x ∈ b.makes) ∧ ¬ p.world.heap.Has x ∧ ¬ p.world.heap.Has y
  matched : HeapsMatch {x | p.world.heap.Has x → ∀ b ∈ todo, x ∉ b.writes} ρ p'.world.heap
    q.world.heap

namespace Serial

variable {r : DrainSetting} {fuel : Nat} {p p' q q' : Progress} {done todo : List Branch}
  {c : Branch} {ρ σ : Pairing}

/-- At the beginning nothing is done. -/
theorem start (hf : p.world.heap.Forest)
    (hk : p.KeepsBut {x | p.world.heap.Has x ∧ ∃ b ∈ todo, x ∈ b.writes} p') :
    Serial p p' [] todo p.world.heap.identity p where
  keeps := .refl hf
  within := .refl
  places := .inl
  matched := by
    have hstill : p.world.heap.KeepsBut ∅ p.world.heap := .refl
    refine .of_origin hf.toSound hk.heap hstill (fun x hx hhas => ⟨?_, Set.notMem_empty x⟩) ?_
    · rintro ⟨-, b, hb, hxb⟩
      exact hx hhas b hb hxb
    · exact fun x hno hhas => absurd (hk.heap.has hhas) hno

/-- What the next branch makes is new on both sides. -/
theorem cross (hs : Serial p p' done (c :: todo) ρ q) (hc : c.Again p p' σ q q')
    (hdone : ∀ b ∈ done, b.Apart c) {x y x' y' : Place} (hxy : ρ.Places x y)
    (hxy' : σ.Places x' y') : x = x' ↔ y = y' := by
  have hy := (hs.matched.has hxy).2
  rcases hs.places hxy with hold | ⟨⟨b, hb, hmade⟩, hx, hy₀⟩
  · obtain ⟨rfl, hhas⟩ := Heap.identity_places.mp hold
    rcases hc.places hxy' with hold' | ⟨hmade', hy'⟩
    · rw [(Heap.identity_places.mp hold').1]
    · exact ⟨fun he => absurd (he ▸ hhas) (hc.new _ hmade'), fun he => absurd (he ▸ hy) hy'⟩
  · rcases hc.places hxy' with hold' | ⟨hmade', hy'⟩
    · obtain ⟨rfl, hhas'⟩ := Heap.identity_places.mp hold'
      exact ⟨fun he => absurd (he ▸ hhas') hx, fun he => absurd (he ▸ hhas') hy₀⟩
    · refine ⟨fun he => ?_, fun he => absurd (he ▸ hy) hy'⟩
      exact absurd (he ▸ hmade') ((hdone b hb).makes x hmade)

/-- The next branch does as it does in the order of the list. -/
theorem step (hs : Serial p p' done (c :: todo) ρ q) (hc : c.Again p p' σ q q')
    (hdone : ∀ b ∈ done, b.Apart c) : Serial p p' (c :: done) todo (ρ.join σ) q' where
  keeps := by
    refine (hs.keeps.narrow fun x ⟨b, hb, hx⟩ _ => ?_).trans (hc.keeps.narrow fun x hx _ => ?_)
    · exact ⟨b, List.mem_cons_of_mem _ hb, hx⟩
    · exact ⟨c, List.mem_cons_self, hx.2⟩
  within := hs.within.trans Pairing.within_join_left
  places := by
    intro x y hxy
    rcases Pairing.join_places.mp hxy with hxy | hxy
    · refine (hs.places hxy).imp id fun ⟨⟨b, hb, hmade⟩, hno⟩ => ?_
      exact ⟨⟨b, List.mem_cons_of_mem _ hb, hmade⟩, hno⟩
    · refine (hc.places hxy).imp id fun ⟨hmade, hy⟩ => ?_
      exact ⟨⟨c, List.mem_cons_self, hmade⟩, hc.new x hmade,
        fun hhas => hy (hs.keeps.heap.has hhas)⟩
  matched := by
    have hstill : p'.world.heap.KeepsBut ∅ p'.world.heap := .refl
    -- What was written and made before is left alone.
    have hleft : HeapsMatch {x | p.world.heap.Has x → ∀ b ∈ c :: todo, x ∉ b.writes} ρ
        p'.world.heap q'.world.heap := by
      refine hs.matched.onward hstill hc.keeps.heap (fun {x y} hxy hx => ?_) hs.matched.unmade
      refine ⟨hx, Set.notMem_empty x, fun hy => ?_⟩
      rcases hs.places hxy with hold | ⟨-, -, hno⟩
      · obtain ⟨rfl, hhas⟩ := Heap.identity_places.mp hold
        exact hx hhas c List.mem_cons_self hy.2
      · exact hno hy.1
    refine hleft.join hc.matched (hs.cross hc hdone) (fun {x y} hxy hx => ?_) fun hno hhas b hb =>
      hs.matched.unmade hno hhas b (List.mem_cons_of_mem _ hb)
    -- A place that was there at the beginning is vouched for by the branch that wrote it.
    have hcases : ρ.Places x y ∨ σ.Places x y ∧ x ∈ c.makes := by
      rcases Pairing.join_places.mp hxy with hxy | hxy
      · exact .inl hxy
      · exact (hc.places hxy).imp hs.within.places fun hmade => ⟨hxy, hmade.1⟩
    rcases hcases with hxy | ⟨hxy, hmade⟩
    · by_cases hw : p.world.heap.Has x ∧ x ∈ c.writes
      · rcases hs.places hxy with hold | ⟨-, hno, -⟩
        · exact .inr ⟨hc.within.places hold, .inl (.inl hw.2)⟩
        · exact absurd hw.1 hno
      · refine .inl ⟨hxy, fun hhas => ?_⟩
        exact List.forall_mem_cons.mpr ⟨fun hxc => hw ⟨hhas, hxc⟩, hx hhas⟩
    · exact .inr ⟨hxy, .inl (.inr hmade)⟩

/-- All branches that are still to do can be done. -/
theorem run (hf : p.world.heap.Forest) (todo : List Branch) : ∀ {done ρ q},
    Serial p p' done todo ρ q → (∀ b ∈ todo, b.Settled r fuel p p') →
      todo.Pairwise Branch.Apart → (∀ b ∈ done, ∀ c ∈ todo, b.Apart c) →
      ∃ ρ' ends q' done', drainBranches (fun op p => r.drain fuel none [op] p)
          (todo.map Branch.op) q = some (ends, q') ∧ (∀ b ∈ ends, b.outcome = .ended none) ∧
        Serial p p' done' [] ρ' q' ∧ ρ.Within ρ' ∧
        List.Forall₂ (fun b c => List.Forall₂ (Turn.Alike ρ') b.turns c.turns) todo
          (r.branches fuel (todo.map Branch.op) q) := by
  induction todo with
  | nil =>
      intro done ρ q hs _ _ _
      exact ⟨ρ, [], q, done, rfl, by simp, hs, .refl, .nil⟩
  | cons c todo ih =>
      intro done ρ q hs hsettled hapart hdone
      obtain ⟨hc, hsettled⟩ := List.forall_mem_cons.mp hsettled
      obtain ⟨hfirst, hapart⟩ := List.pairwise_cons.mp hapart
      have hdonec : ∀ b ∈ done, b.Apart c := fun b hb => hdone b hb c List.mem_cons_self
      obtain ⟨σ, q₁, hd, hagain, hturns⟩ := hc.again hf hs.keeps
        fun x hx ⟨b, hb, hxb⟩ => (hdonec b hb).right x hx hxb
      have hdone' : ∀ b ∈ c :: done, ∀ e ∈ todo, b.Apart e := by
        refine List.forall_mem_cons.mpr ⟨hfirst, fun b hb e he => ?_⟩
        exact hdone b hb e (List.mem_cons_of_mem _ he)
      obtain ⟨ρ₂, ends, q₂, done', hb, hdry, hs₂, hwithin, hrest⟩ :=
        ih (hs.step hagain hdonec) hsettled hapart hdone'
      refine ⟨ρ₂, ⟨.ended none, []⟩ :: ends, q₂, done', ?_, ?_, hs₂,
        Pairing.within_join_left.trans hwithin, ?_⟩
      · rw [List.map_cons, drainBranches, hd]
        dsimp only
        rw [hb]
      · exact List.forall_mem_cons.mpr ⟨rfl, hdry⟩
      · rw [List.map_cons, DrainSetting.branches_cons hd]
        exact .cons (hturns.imp fun _ _ => Context.Moved.mono
          (Pairing.within_join_right.trans hwithin)) hrest

end Serial

/-- Branches that all run dry one after another, and of which none reads or
writes what another one writes, can be drained in any other order. They run dry
again, each with the same executions in contexts that stand for one another;
what their scopes come to matches, and every scope that was there looks the
same, sharing included. -/
theorem DrainSetting.branches_reorder {r : DrainSetting} {fuel : Nat}
    {ops ops' : List Operation} {p p' : Progress} {ends : List BranchEnd}
    (hdrain : drainBranches (fun op p => r.drain fuel none [op] p) ops p = some (ends, p'))
    (hdry : ∀ b ∈ ends, b.outcome = .ended none) (hforest : p.world.heap.Forest)
    (hctx : ∀ c ∈ Operation.contextsOfAll ops,
      c.graph.UsableIn p.world.heap ∧ c.Within p.world.heap)
    (hindep : (r.branches fuel ops p).Pairwise Branch.Independent) (hperm : ops'.Perm ops) :
    ∃ ends' q ρ order,
      drainBranches (fun op p => r.drain fuel none [op] p) ops' p = some (ends', q) ∧
      (∀ b ∈ ends', b.outcome = .ended none) ∧
      order.Perm (r.branches fuel ops p) ∧ order.map Branch.op = ops' ∧
      List.Forall₂ (fun b c => List.Forall₂ (Turn.Alike ρ) b.turns c.turns) order
        (r.branches fuel ops' p) ∧
      p.world.heap.identity.Within ρ ∧ HeapsMatch Set.univ ρ p'.world.heap q.world.heap ∧
      ∀ s, s.index < p.world.heap.scopes.size →
        p'.world.heap.snapshot s = q.world.heap.snapshot s ∧
        p'.world.heap.sharing s = q.world.heap.sharing s := by
  have hops : Operation.AllAlike p.world.heap.identity.asRenaming ops ops :=
    Operation.all_alike_self ops fun c hc => Context.moved_self (hctx c hc).1 (hctx c hc).2
  have hs := branches_settle (V := ∅) hforest ops hdrain hdry (.refl hforest) hops
    (fun _ _ x _ => Set.notMem_empty x) hindep
  -- The same order of the branches' records.
  obtain ⟨order, horder, hrecords⟩ := List.perm_comp_forall₂ hperm hs.ops
  have hnames : order.map Branch.op = ops' := by
    have hsame : List.Forall₂ Eq ops' (order.map Branch.op) :=
      List.forall₂_map_right_iff.mpr horder
    rw [List.forall₂_eq_eq_eq] at hsame
    exact hsame.symm
  have hapart : order.Pairwise Branch.Apart := by
    refine (hrecords.pairwise_iff fun h => Branch.Apart.symm h).mpr ?_
    exact (hindep.and hs.apart).imp fun h => ⟨h.1, h.2⟩
  have hkeeps : p.KeepsBut {x | p.world.heap.Has x ∧ ∃ b ∈ order, x ∈ b.writes} p' := by
    refine hs.keeps.narrow fun x hx _ => ⟨hx.1, ?_⟩
    obtain ⟨b, hb, hxb⟩ := hx.2
    exact ⟨b, hrecords.mem_iff.mpr hb, hxb⟩
  obtain ⟨ρ, ends', q, done, hb, hdry', hserial, hwithin, hturns⟩ :=
    Serial.run hforest order (.start hforest hkeeps)
      (fun b hb => hs.settled b (hrecords.mem_iff.mp hb)) hapart nofun
  have hmatched : HeapsMatch Set.univ ρ p'.world.heap q.world.heap := by
    have hall : {x | p.world.heap.Has x → ∀ b ∈ ([] : List Branch), x ∉ b.writes} = Set.univ :=
      Set.eq_univ_of_forall fun x _ => by simp
    exact hall ▸ hserial.matched
  rw [hnames] at hb hturns
  refine ⟨ends', q, ρ, order, hb, hdry', hrecords, hnames, hturns, hwithin, hmatched, ?_⟩
  intro s hlt
  exact hmatched.views hs.keeps.forest hserial.keeps.forest (Set.subset_univ _)
    (hwithin.scopes ⟨rfl, hlt⟩)

namespace Sample

/-- A graph of two operators that assign a value to a variable each. -/
def plantingGraph : SharedGraph :=
  let plant (name : String) : Operator :=
    ⟨"Plant", ⟨[{ Parameter.lookup "Left" .any with actual := name },
      { Parameter.lookup "Right" .any with fixed := some ⟨1⟩ }]⟩, none, .assigner⟩
  ⟨⟨0⟩, ⟨"Garden", .empty, #[plant "Y", plant "Z"], some ⟨0⟩⟩⟩

/-- The second one of the two or the first one, about to run on a scope that has
neither variable. -/
def planting (second : Bool) : Context :=
  let op : OperatorId := ⟨second.toNat⟩
  .frame ⟨second.toNat + 1⟩ op ⟨0⟩ [op] (.root ⟨0⟩ plantingGraph ⟨0⟩)

/-- The variable that it assigns to. -/
def planted (second : Bool) : String := if second then "Z" else "Y"

/-- Both run under the standard bounds. -/
def garden : DrainSetting := ⟨.standard, ⟨0⟩⟩

theorem planting_reads (second : Bool) (h : Heap) :
    (planting second).reads h ⊆ {.item ⟨1⟩, .binding ⟨0⟩ (planted second)} := by
  have hreads : (planting second).reads h =
      {.item ⟨1⟩} ∪ h.searched (planted second) [⟨0⟩] := by
    cases second <;> rfl
  rw [hreads]
  rintro x (rfl | rfl | hx)
  · simp
  · simp
  · split at hx <;> cases hx

theorem planting_writes (second : Bool) (h : Heap) :
    (planting second).writes h ⊆ {.binding ⟨0⟩ (planted second)} := by
  have hwrites : (planting second).writes h =
      {.binding ((planting second).target h (planted second)) (planted second)} := by
    cases second <;> rfl
  have htarget := (planting second).target_mem_scopeChain h (planted second)
  have hchain : (planting second).scopeChain = [⟨0⟩] := rfl
  rw [hchain, List.mem_singleton] at htarget
  rw [hwrites, htarget]

/-- What a branch touches and writes that does nothing else. -/
theorem planting_touches {b : Branch} {second : Bool}
    (hb : b.efforts.map (fun effort => effort.ctx) = [planting second]) :
    b.touches ⊆ {.item ⟨1⟩, .binding ⟨0⟩ (planted second)} ∧
      b.writes ⊆ {.binding ⟨0⟩ (planted second)} := by
  have hctx : ∀ effort ∈ b.efforts, effort.ctx = planting second := by
    intro effort heffort
    have hmem := List.mem_map_of_mem (f := fun effort => effort.ctx) heffort
    rwa [hb, List.mem_singleton] at hmem
  have hwrites : b.writes ⊆ {.binding ⟨0⟩ (planted second)} := by
    rintro x ⟨effort, heffort, hx⟩
    rw [Effort.writes, hctx effort heffort] at hx
    exact planting_writes second _ hx
  refine ⟨?_, hwrites⟩
  rintro x (⟨effort, heffort, hx⟩ | hx)
  · rw [Effort.reads, hctx effort heffort] at hx
    exact planting_reads second _ hx
  · exact .inr (hwrites hx)

/-- A variable is created by each of two branches. In the other order the items
come into being the other way round, and the tree is the same. -/
theorem branches_reorder_planting :
    ∃ ends p' ends' q,
      drainBranches (fun op p => garden.drain 3 none [op] p)
        [.atomic (planting false), .atomic (planting true)] ⟨sown, 0, false⟩ = some (ends, p') ∧
      drainBranches (fun op p => garden.drain 3 none [op] p)
        [.atomic (planting true), .atomic (planting false)] ⟨sown, 0, false⟩ = some (ends', q) ∧
      p'.world.heap.binding? ⟨0⟩ "Y" = some ⟨5⟩ ∧ q.world.heap.binding? ⟨0⟩ "Y" = some ⟨7⟩ ∧
      p'.world.heap.snapshot ⟨0⟩ = q.world.heap.snapshot ⟨0⟩ ∧
      p'.world.heap.sharing ⟨0⟩ = q.world.heap.sharing ⟨0⟩ := by
  have hrun : ∃ ends p', drainBranches (fun op p => garden.drain 3 none [op] p)
      [.atomic (planting false), .atomic (planting true)] ⟨sown, 0, false⟩ = some (ends, p') ∧
      ends.map BranchEnd.outcome = [.ended none, .ended none] ∧
      p'.world.heap.binding? ⟨0⟩ "Y" = some ⟨5⟩ := ⟨_, _, rfl, rfl, rfl⟩
  have hother : ∃ ends q, drainBranches (fun op p => garden.drain 3 none [op] p)
      [.atomic (planting true), .atomic (planting false)] ⟨sown, 0, false⟩ = some (ends, q) ∧
      q.world.heap.binding? ⟨0⟩ "Y" = some ⟨7⟩ := ⟨_, _, rfl, rfl⟩
  have hbranches : ∃ b c, garden.branches 3 [.atomic (planting false), .atomic (planting true)]
      ⟨sown, 0, false⟩ = [b, c] ∧ b.efforts.map (fun effort => effort.ctx) = [planting false] ∧
      c.efforts.map (fun effort => effort.ctx) = [planting true] := ⟨_, _, rfl, rfl, rfl⟩
  obtain ⟨ends, p', hdrain, hends, hfirst⟩ := hrun
  obtain ⟨ends₁, q₁, hdrain₁, hsecond⟩ := hother
  obtain ⟨b, c, hrecords, hb, hc⟩ := hbranches
  have hdry : ∀ b ∈ ends, b.outcome = .ended none := by
    intro b hb
    have hmem := List.mem_map_of_mem (f := BranchEnd.outcome) hb
    rw [hends] at hmem
    simpa using hmem
  have hctx : ∀ c ∈ [planting false, planting true],
      c.graph.UsableIn sown.heap ∧ c.Within sown.heap := by
    have husable : plantingGraph.UsableIn sown.heap := ⟨by decide, by decide, by decide⟩
    have hlt : (0 : Nat) < sown.heap.scopes.size := by decide
    intro c hc
    rcases List.mem_pair.mp hc with rfl | rfl
    · exact ⟨husable, fun s hs => List.mem_singleton.mp hs ▸ hlt⟩
    · exact ⟨husable, fun s hs => List.mem_singleton.mp hs ▸ hlt⟩
  have hindep : [b, c].Pairwise Branch.Independent := by
    obtain ⟨htouches, hwrites⟩ := planting_touches hb
    obtain ⟨htouches', hwrites'⟩ := planting_touches hc
    -- All that both touch is the item that they read.
    have hapart : ∀ second, Place.binding ⟨0⟩ (planted !second) ∉
        ({.item ⟨1⟩, .binding ⟨0⟩ (planted second)} : Set Place) := by
      intro second
      cases second <;> simp [planted]
    refine List.pairwise_pair.mpr ⟨fun x hx hx' => ?_, fun x hx hx' => ?_⟩
    · exact hapart false (hwrites' hx' ▸ htouches hx)
    · exact hapart true (hwrites hx' ▸ htouches' hx)
  obtain ⟨ends', q, ρ, order, hdrain', -, -, -, -, -, -, hviews⟩ :=
    DrainSetting.branches_reorder (r := garden) hdrain hdry sown_forest hctx (hrecords ▸ hindep)
      (.swap (Operation.atomic (planting false)) (Operation.atomic (planting true)) [])
  rw [hdrain₁] at hdrain'
  obtain ⟨rfl, rfl⟩ := Prod.mk.inj (Option.some.inj hdrain')
  obtain ⟨hsnapshot, hsharing⟩ := hviews ⟨0⟩ (by decide)
  exact ⟨ends, p', _, _, hdrain, hdrain₁, hfirst, hsecond, hsnapshot, hsharing⟩

end Sample

end ScopeFlow
