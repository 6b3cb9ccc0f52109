import Mathlib.Algebra.BigOperators.Group.Finset.Basic
import Mathlib.Algebra.Order.BigOperators.Group.Finset
import Mathlib.Order.Lattice.Nat
import ScopeFlow.Graph.Reachable

/-!
# Breadth first

The listing of what an operator leads to is the closure of references, and it
is in the order of the distance.

* `Graph.LeadsIn` is a walk along so many references, and `Graph.distance` the
  length of a shortest one;
* `Graph.Layered` is the invariant of the listing: the queue is the rest of one
  layer of the graph and what is known of the next;
* `Graph.reachWithin` is the same loop with its turns counted: each follows one
  reference of the graph, and none is followed twice (`reachWithin_reachFrom`);
* `Graph.reachable_breadth_first` puts it together.
-/

namespace ScopeFlow

namespace Graph

/-- An operator of the graph refers to a number. -/
def Refers (g : Graph) (h : Heap) (a b : OperatorId) : Prop :=
  ∃ op, g.get? a = some op ∧ b ∈ op.references h

/-- So many references one after another lead from one number to another. -/
inductive LeadsIn (g : Graph) (h : Heap) (start : OperatorId) : Nat → OperatorId → Prop
  | start : LeadsIn g h start 0 start
  | next {n : Nat} {a b : OperatorId} : LeadsIn g h start n a → g.Refers h a b →
      LeadsIn g h start (n + 1) b

/-- References lead from one number to another. -/
def LeadsTo (g : Graph) (h : Heap) (start id : OperatorId) : Prop := ∃ n, g.LeadsIn h start n id

/-- How many references it takes at least from one number to another. -/
noncomputable def distance (g : Graph) (h : Heap) (start id : OperatorId) : Nat :=
  sInf {n | g.LeadsIn h start n id}

variable {g : Graph} {h : Heap} {start id a b : OperatorId} {n d turns : Nat}
  {ids seen now later queue rest : List OperatorId} {op : Operator}

/-! ## Walks -/

theorem leadsTo_start : g.LeadsTo h start start := ⟨0, .start⟩

theorem LeadsTo.next (ha : g.LeadsTo h start a) (hab : g.Refers h a b) : g.LeadsTo h start b := by
  obtain ⟨n, hn⟩ := ha
  exact ⟨n + 1, hn.next hab⟩

theorem LeadsIn.distance_le (hid : g.LeadsIn h start n id) : g.distance h start id ≤ n :=
  Nat.sInf_le hid

/-- What is led to is led to in its distance. -/
theorem LeadsTo.leadsIn (hid : g.LeadsTo h start id) :
    g.LeadsIn h start (g.distance h start id) id :=
  Nat.sInf_mem hid

theorem distance_start : g.distance h start start = 0 :=
  Nat.le_zero.mp (LeadsIn.start : g.LeadsIn h start 0 start).distance_le

/-- Nothing else is at distance zero. -/
theorem LeadsTo.eq_start (hid : g.LeadsTo h start id) (hzero : g.distance h start id = 0) :
    id = start := by
  have hin := hid.leadsIn
  rw [hzero] at hin
  cases hin
  rfl

/-! ## What is checked -/

/-- What is checked is the initial operator, what the operators refer to, and the
operators that the graph's own declarations hold. -/
theorem mem_allReferences : id ∈ g.allReferences h ↔
    g.initial = some id ∨ (∃ a, g.Refers h a id) ∨ id ∈ h.operatorsIn g.parameters.held := by
  have hrefers : id ∈ g.operators.toList.flatMap (fun op => op.references h) ↔
      ∃ a, g.Refers h a id := by
    constructor
    · intro hid
      obtain ⟨op, hop, hid⟩ := List.mem_flatMap.mp hid
      obtain ⟨n, hn⟩ := Array.mem_iff_getElem?.mp (Array.mem_toList_iff.mp hop)
      exact ⟨⟨n⟩, op, hn, hid⟩
    · rintro ⟨a, op, hop, hid⟩
      exact List.mem_flatMap.mpr
        ⟨op, Array.mem_toList_iff.mpr (Array.mem_of_getElem? hop), hid⟩
  rw [allReferences, List.mem_append, List.mem_append, hrefers, or_assoc, Option.mem_toList]

theorem has_of_initial (hvalid : g.validate h = .ok ()) (hinitial : g.initial = some id) :
    g.has id = true :=
  validate_eq_ok_iff.mp hvalid id (mem_allReferences.mpr (.inl hinitial))

/-- A reference of a graph that passes its check is to one of its operators. -/
theorem has_of_refers (hvalid : g.validate h = .ok ()) (hab : g.Refers h a b) :
    g.has b = true :=
  validate_eq_ok_iff.mp hvalid b (mem_allReferences.mpr (.inr (.inl ⟨a, hab⟩)))

theorem LeadsTo.has (hvalid : g.validate h = .ok ()) (hstart : g.has start = true)
    (hid : g.LeadsTo h start id) : g.has id = true := by
  obtain ⟨n, hn⟩ := hid
  cases hn with
  | start => exact hstart
  | next _ hab => exact has_of_refers hvalid hab

/-! ## The turns of the listing -/

@[simp] theorem reachFrom_nil : g.reachFrom h seen [] = .ok seen.reverse := by
  rw [reachFrom]

theorem reachFrom_seen (hid : id ∈ seen) :
    g.reachFrom h seen (id :: rest) = g.reachFrom h seen rest := by
  rw [reachFrom, dif_pos hid]

theorem reachFrom_unknown (hid : id ∉ seen) (hop : g.get? id = none) :
    g.reachFrom h seen (id :: rest) = .error (.unknownOperator id) := by
  rw [reachFrom, dif_neg hid]
  split
  · rfl
  · next hop' => rw [hop] at hop'; cases hop'

theorem reachFrom_list (hid : id ∉ seen) (hop : g.get? id = some op) :
    g.reachFrom h seen (id :: rest) = g.reachFrom h (id :: seen) (rest ++ op.references h) := by
  rw [reachFrom, dif_neg hid]
  split
  · next hop' => rw [hop] at hop'; cases hop'
  · next hop' => rw [hop] at hop'; cases hop'; rfl

/-- The listing with so many turns of its loop at most, each of which takes one
number off the queue; none where they do not suffice. -/
def reachWithin (g : Graph) (h : Heap) :
    Nat → List OperatorId → List OperatorId → Option (Except Failure (List OperatorId))
  | _, seen, [] => some (.ok seen.reverse)
  | 0, _, _ :: _ => none
  | turns + 1, seen, id :: rest =>
    if id ∈ seen then g.reachWithin h turns seen rest
    else
      match g.get? id with
      | none => some (.error (.unknownOperator id))
      | some op => g.reachWithin h turns (id :: seen) (rest ++ op.references h)

/-- How many references the operator of a number has. -/
def referenceCount (g : Graph) (h : Heap) (id : OperatorId) : Nat :=
  match g.get? id with
  | none => 0
  | some op => (op.references h).length

/-- How many references there are of operators that are not listed yet. -/
def unfollowed (g : Graph) (h : Heap) (seen : List OperatorId) : Nat :=
  ∑ k ∈ Finset.range g.size, if (⟨k⟩ : OperatorId) ∈ seen then 0 else g.referenceCount h ⟨k⟩

/-- Listing an operator takes its references off. -/
theorem unfollowed_cons (hid : id ∉ seen) (hop : g.get? id = some op) :
    (op.references h).length + g.unfollowed h (id :: seen) = g.unfollowed h seen := by
  have hmem : id.index ∈ Finset.range g.size := Finset.mem_range.mpr (index_lt_of_get? hop)
  have hcount : g.referenceCount h id = (op.references h).length := by
    rw [referenceCount, hop]
  unfold unfollowed
  rw [← Finset.add_sum_erase _ _ hmem, ← Finset.add_sum_erase _ _ hmem]
  simp only [List.mem_cons, true_or, if_true, if_neg hid, hcount, Nat.zero_add]
  refine congrArg _ (Finset.sum_congr rfl fun k hk => ?_)
  have hne : (⟨k⟩ : OperatorId) ≠ id := by
    rintro rfl
    exact Finset.ne_of_mem_erase hk rfl
  simp only [hne, false_or]

/-- With a turn for each number in the queue and for each reference that may
still come into it, the listing ends, and as it does without counting. -/
theorem reachWithin_reachFrom (hturns : queue.length + g.unfollowed h seen ≤ turns) :
    g.reachWithin h turns seen queue = some (g.reachFrom h seen queue) := by
  induction turns generalizing seen queue with
  | zero =>
    have hnil : queue = [] := List.eq_nil_of_length_eq_zero (by omega)
    rw [hnil, reachFrom_nil, reachWithin]
  | succ turns ih =>
    cases queue with
    | nil => rw [reachFrom_nil, reachWithin]
    | cons id rest =>
      rw [List.length_cons] at hturns
      rw [reachWithin]
      by_cases hid : id ∈ seen
      · rw [if_pos hid, reachFrom_seen hid]
        exact ih (by omega)
      · rw [if_neg hid]
        cases hop : g.get? id with
        | none => rw [reachFrom_unknown hid hop]
        | some op =>
          rw [reachFrom_list hid hop]
          have hfollowed := unfollowed_cons (h := h) hid hop
          refine ih ?_
          rw [List.length_append]
          omega

/-- What a counted listing ends with, the listing does. -/
theorem reachFrom_of_within (turns : Nat) {result : Except Failure (List OperatorId)}
    (hresult : g.reachWithin h turns seen queue = some result) :
    g.reachFrom h seen queue = result := by
  induction turns generalizing seen queue with
  | zero =>
    cases queue with
    | nil => rw [reachFrom_nil]; exact Option.some.inj hresult
    | cons id rest => cases hresult
  | succ turns ih =>
    cases queue with
    | nil => rw [reachFrom_nil]; exact Option.some.inj hresult
    | cons id rest =>
      rw [reachWithin] at hresult
      by_cases hid : id ∈ seen
      · rw [if_pos hid] at hresult
        rw [reachFrom_seen hid, ih hresult]
      · rw [if_neg hid] at hresult
        cases hop : g.get? id with
        | none =>
          rw [hop] at hresult
          rw [reachFrom_unknown hid hop]
          exact Option.some.inj hresult
        | some op =>
          rw [hop] at hresult
          rw [reachFrom_list hid hop, ih hresult]

/-! ## Layers -/

/-- The listing in the middle of layer `d`: `seen` is listed, the latest first,
`now` is what the queue still has of the layer, and `later` what it has of the
next one. All nearer operators are listed, those of the layer are listed or in
the queue, and behind them stands all that the listed ones of the layer refer
to. -/
structure Layered (g : Graph) (h : Heap) (start : OperatorId) (d : Nat)
    (seen now later : List OperatorId) : Prop where
  nodup : seen.Nodup
  known : ∀ id ∈ seen, g.has id = true
  reached : ∀ id ∈ seen, g.LeadsTo h start id
  within : ∀ id ∈ seen, g.distance h start id ≤ d
  ordered : seen.Pairwise fun a b => g.distance h start b ≤ g.distance h start a
  nearer : ∀ n id, n < d → g.LeadsIn h start n id → id ∈ seen
  layer : ∀ id, g.LeadsIn h start d id → id ∈ seen ∨ id ∈ now
  present : ∀ id ∈ now, g.LeadsIn h start d id
  coming : ∀ id ∈ later, g.LeadsIn h start (d + 1) id
  followed : ∀ a ∈ seen, g.distance h start a = d → ∀ b, g.Refers h a b → b ∈ later

/-- A breadth-first listing of what an operator leads to. -/
structure BreadthFirst (g : Graph) (h : Heap) (start : OperatorId) (ids : List OperatorId) :
    Prop where
  nodup : ids.Nodup
  known : ∀ id ∈ ids, g.has id = true
  mem_iff : ∀ id, id ∈ ids ↔ g.LeadsTo h start id
  ordered : ids.Pairwise fun a b => g.distance h start a ≤ g.distance h start b

theorem layered_start : g.Layered h start 0 [] [start] [] where
  nodup := .nil
  known := nofun
  reached := nofun
  within := nofun
  ordered := .nil
  nearer := nofun
  layer := fun id hid => by
    cases hid
    exact .inr List.mem_cons_self
  present := fun id hid => by
    obtain rfl := List.mem_singleton.mp hid
    exact .start
  coming := nofun
  followed := nofun

namespace Layered

/-- A number that is listed already is passed over. -/
theorem skip (hl : g.Layered h start d seen (id :: now) later) (hid : id ∈ seen) :
    g.Layered h start d seen now later :=
  { hl with
    layer := fun b hb => by
      rcases hl.layer b hb with hseen | hnow
      · exact .inl hseen
      · rcases List.mem_cons.mp hnow with rfl | hnow
        · exact .inl hid
        · exact .inr hnow
    present := fun b hb => hl.present b (List.mem_cons_of_mem _ hb) }

/-- What the queue has of the layer and is not listed is at its distance. -/
theorem distance_eq (hl : g.Layered h start d seen (id :: now) later) (hid : id ∉ seen) :
    g.distance h start id = d := by
  have hin := hl.present id List.mem_cons_self
  refine Nat.le_antisymm hin.distance_le (Nat.le_of_not_lt fun hlt => hid ?_)
  exact hl.nearer _ id hlt (LeadsTo.leadsIn ⟨d, hin⟩)

/-- An operator of the layer is listed, and its references go to the next one. -/
theorem list (hl : g.Layered h start d seen (id :: now) later) (hid : id ∉ seen)
    (hop : g.get? id = some op) :
    g.Layered h start d (id :: seen) now (later ++ op.references h) := by
  have hin := hl.present id List.mem_cons_self
  have hdistance := hl.distance_eq hid
  exact {
    nodup := List.nodup_cons.mpr ⟨hid, hl.nodup⟩
    known := List.forall_mem_cons.mpr ⟨has_iff.mpr ⟨op, hop⟩, hl.known⟩
    reached := List.forall_mem_cons.mpr ⟨⟨d, hin⟩, hl.reached⟩
    within := List.forall_mem_cons.mpr ⟨hdistance.le, hl.within⟩
    ordered := List.pairwise_cons.mpr
      ⟨fun b hb => hdistance.symm ▸ hl.within b hb, hl.ordered⟩
    nearer := fun n b hlt hb => List.mem_cons_of_mem _ (hl.nearer n b hlt hb)
    layer := fun b hb => by
      rcases hl.layer b hb with hseen | hnow
      · exact .inl (List.mem_cons_of_mem _ hseen)
      · rcases List.mem_cons.mp hnow with rfl | hnow
        · exact .inl List.mem_cons_self
        · exact .inr hnow
    present := fun b hb => hl.present b (List.mem_cons_of_mem _ hb)
    coming := fun b hb => by
      rcases List.mem_append.mp hb with hb | hb
      · exact hl.coming b hb
      · exact hin.next ⟨op, hop, hb⟩
    followed := fun a ha hda b hab => by
      rcases List.mem_cons.mp ha with rfl | ha
      · obtain ⟨op', hop', hb⟩ := hab
        obtain rfl := Option.some.inj (hop.symm.trans hop')
        exact List.mem_append_right _ hb
      · exact List.mem_append_left _ (hl.followed a ha hda b hab) }

/-- Where a layer is at its end, the next one begins. -/
theorem advance (hl : g.Layered h start d seen [] later) :
    g.Layered h start (d + 1) seen later [] := by
  have hlayer : ∀ id, g.LeadsIn h start d id → id ∈ seen := fun id hid =>
    (hl.layer id hid).resolve_right List.not_mem_nil
  have hnearer : ∀ n id, n < d + 1 → g.LeadsIn h start n id → id ∈ seen := by
    intro n id hlt hid
    rcases Nat.lt_succ_iff_lt_or_eq.mp hlt with hlt | rfl
    · exact hl.nearer n id hlt hid
    · exact hlayer id hid
  exact { hl with
    within := fun id hid => (hl.within id hid).trans (Nat.le_succ d)
    nearer := hnearer
    layer := fun b hb => by
      obtain _ | ⟨ha, hab⟩ := hb
      rename_i a
      have hseen := hlayer a ha
      -- A reference from nearer than the layer leads no further than the layer.
      rcases (hl.within a hseen).lt_or_eq with hlt | heq
      · exact .inl (hnearer _ b (Nat.succ_lt_succ hlt) ((hl.reached a hseen).leadsIn.next hab))
      · exact .inr (hl.followed a hseen heq b hab)
    present := hl.coming
    coming := nofun
    followed := fun a ha hda => absurd (hl.within a ha) (by omega) }

/-- The first of the queue is of the layer, or of the next where the layer is at
its end. -/
theorem front (hl : g.Layered h start d seen now later) (hqueue : now ++ later = id :: rest) :
    ∃ d now later, g.Layered h start d seen (id :: now) later ∧ now ++ later = rest := by
  cases now with
  | nil =>
    rw [List.nil_append] at hqueue
    subst hqueue
    exact ⟨d + 1, rest, [], hl.advance, List.append_nil rest⟩
  | cons first now =>
    obtain ⟨rfl, rfl⟩ := List.cons.inj hqueue
    exact ⟨d, now, later, hl, rfl⟩

/-- With nothing in the queue, all layers are at their end. -/
theorem breadthFirst (hl : g.Layered h start d seen [] []) :
    g.BreadthFirst h start seen.reverse := by
  have hall : ∀ n, g.Layered h start (d + n) seen [] [] := by
    intro n
    induction n with
    | zero => exact hl
    | succ n ih => exact ih.advance
  exact {
    nodup := List.nodup_reverse.mpr hl.nodup
    known := fun id hid => hl.known id (List.mem_reverse.mp hid)
    mem_iff := fun id => List.mem_reverse.trans
      ⟨hl.reached id, fun ⟨n, hn⟩ => (hall (n + 1)).nearer n id (by omega) hn⟩
    ordered := List.pairwise_reverse.mpr hl.ordered }

end Layered

/-- From the middle of any layer on, the listing comes out breadth first, or at a
number that is led to and is none of the graph's. The induction is on the turns
of the listing. -/
theorem reachFrom_layered (hl : g.Layered h start d seen now later) :
    (∃ ids, g.reachFrom h seen (now ++ later) = .ok ids ∧ g.BreadthFirst h start ids) ∨
      ∃ id, g.reachFrom h seen (now ++ later) = .error (.unknownOperator id) ∧
        g.LeadsTo h start id ∧ g.has id = false := by
  generalize hqueue : now ++ later = queue
  induction seen, queue using reachFrom.induct g h generalizing d now later with
  | case1 seen =>
    obtain ⟨rfl, rfl⟩ := List.append_eq_nil_iff.mp hqueue
    exact .inl ⟨_, reachFrom_nil, hl.breadthFirst⟩
  | case2 seen id rest hid ih =>
    obtain ⟨d, now, later, hl, hrest⟩ := hl.front hqueue
    rw [reachFrom_seen hid]
    exact ih (hl.skip hid) hrest
  | case3 seen id rest hid hop =>
    obtain ⟨d, now, later, hl, -⟩ := hl.front hqueue
    exact .inr ⟨id, reachFrom_unknown hid hop, ⟨d, hl.present id List.mem_cons_self⟩,
      not_has_iff.mpr hop⟩
  | case4 seen id rest hid op hop ih =>
    obtain ⟨d, now, later, hl, rfl⟩ := hl.front hqueue
    rw [reachFrom_list hid hop]
    exact ih (hl.list hid hop) (List.append_assoc ..).symm

/-! ## The listing -/

theorem reachable_cases (g : Graph) (h : Heap) (start : OperatorId) :
    (∃ ids, g.reachable h start = .ok ids ∧ g.BreadthFirst h start ids) ∨
      ∃ id, g.reachable h start = .error (.unknownOperator id) ∧ g.LeadsTo h start id ∧
        g.has id = false :=
  reachFrom_layered layered_start

theorem breadthFirst_of_reachable (hids : g.reachable h start = .ok ids) :
    g.BreadthFirst h start ids := by
  rcases g.reachable_cases h start with ⟨ids', hids', hbreadth⟩ | ⟨id, hid, -⟩
  · obtain rfl := Except.ok.inj (hids.symm.trans hids')
    exact hbreadth
  · cases hids.symm.trans hid

/-- A listing comes out unless some number led to is none of the graph's. -/
theorem reachable_ok_iff : (∃ ids, g.reachable h start = .ok ids) ↔
    ∀ id, g.LeadsTo h start id → g.has id = true := by
  constructor
  · rintro ⟨ids, hids⟩ id hid
    have hbreadth := breadthFirst_of_reachable hids
    exact hbreadth.known id ((hbreadth.mem_iff id).mpr hid)
  · intro hall
    rcases g.reachable_cases h start with ⟨ids, hids, -⟩ | ⟨id, -, hid, hnot⟩
    · exact ⟨ids, hids⟩
    · rw [hall id hid] at hnot
      cases hnot

/-- The start is the only one at its distance, and so the first. -/
theorem BreadthFirst.head? (hb : g.BreadthFirst h start ids) : ids.head? = some start := by
  have hstart : start ∈ ids := (hb.mem_iff start).mpr leadsTo_start
  cases ids with
  | nil => cases hstart
  | cons first others =>
    rw [List.head?_cons]
    rcases List.mem_cons.mp hstart with rfl | hlater
    · rfl
    · have hle := (List.pairwise_cons.mp hb.ordered).1 start hlater
      rw [distance_start] at hle
      have hfirst := (hb.mem_iff first).mp List.mem_cons_self
      rw [hfirst.eq_start (Nat.le_zero.mp hle)]

/-- **Reachable operators.** The listing ends, after a turn for the start and one
for each reference of the graph at most. What it lists is what the start leads
to, the start first, each once and the nearer ones before those farther off. It
fails exactly if the start leads to a number that is none of the graph's, over
such a number, and never for an operator of a graph that passes its check. -/
theorem reachable_breadth_first (g : Graph) (h : Heap) (start : OperatorId) :
    g.reachWithin h (1 + ∑ k ∈ Finset.range g.size, g.referenceCount h ⟨k⟩) [] [start] =
        some (g.reachable h start) ∧
      (∀ ids, g.reachable h start = .ok ids →
        ids.Nodup ∧ ids.head? = some start ∧ (∀ id, id ∈ ids ↔ g.LeadsTo h start id) ∧
          ids.Pairwise fun a b => g.distance h start a ≤ g.distance h start b) ∧
      ((∃ failure, g.reachable h start = .error failure) ↔
        ∃ id, g.LeadsTo h start id ∧ g.has id = false) ∧
      (∀ failure, g.reachable h start = .error failure →
        ∃ id, failure = .unknownOperator id ∧ g.LeadsTo h start id ∧ g.has id = false) ∧
      (g.validate h = .ok () → g.has start = true → ∃ ids, g.reachable h start = .ok ids) := by
  have hfails : ∀ failure, g.reachable h start = .error failure →
      ∃ id, failure = .unknownOperator id ∧ g.LeadsTo h start id ∧ g.has id = false := by
    intro failure hfailure
    rcases g.reachable_cases h start with ⟨ids, hids, -⟩ | ⟨id, hid, hstray⟩
    · cases hfailure.symm.trans hids
    · exact ⟨id, Except.error.inj (hfailure.symm.trans hid), hstray⟩
  refine ⟨?_, fun ids hids => ?_, ⟨?_, ?_⟩, hfails, fun hvalid hstart => ?_⟩
  · refine reachWithin_reachFrom (Nat.add_le_add_left (Nat.le_of_eq ?_) 1)
    simp [unfollowed]
  · have hbreadth := breadthFirst_of_reachable hids
    exact ⟨hbreadth.nodup, hbreadth.head?, hbreadth.mem_iff, hbreadth.ordered⟩
  · rintro ⟨failure, hfailure⟩
    obtain ⟨id, -, hstray⟩ := hfails failure hfailure
    exact ⟨id, hstray⟩
  · rintro ⟨id, hid, hnot⟩
    cases hresult : g.reachable h start with
    | error failure => exact ⟨failure, rfl⟩
    | ok ids =>
      rw [reachable_ok_iff.mp ⟨ids, hresult⟩ id hid] at hnot
      cases hnot
  · exact reachable_ok_iff.mpr fun id => LeadsTo.has hvalid hstart

end Graph

namespace Sample

/-- A sequence of an operator that goes back to it, and of one that goes on to
the former and holds an operator which is its own successor. -/
def tangle : Graph :=
  ⟨"Tangle", .empty, #[⟨"Both", .empty, none, .sequential [⟨1⟩, ⟨2⟩]⟩,
    ⟨"Back", .empty, some ⟨0⟩, .empty⟩,
    ⟨"Holder", ⟨[{ Parameter.lookup "Spare" .operator with fixed := some ⟨0⟩ }]⟩, some ⟨1⟩, .empty⟩,
    ⟨"Round", .empty, some ⟨3⟩, .empty⟩], some ⟨0⟩⟩

/-- The item that the tangle holds. -/
def tangleHeap : Heap := ⟨#[.operator ⟨3⟩], #[], 0, 0⟩

/-- The tangle with an operator that goes on to another one and to none. -/
def frayedTangle : Graph := (tangle.add ⟨"Fray", .empty, some ⟨9⟩, .sequential [⟨0⟩]⟩).2

/-- The tangle is listed in three layers, and the frayed one fails over the
number that leads nowhere. -/
theorem reachable_tangle :
    tangle.reachable tangleHeap ⟨0⟩ = .ok [⟨0⟩, ⟨1⟩, ⟨2⟩, ⟨3⟩] ∧
      (∀ id, id ∈ [(⟨0⟩ : OperatorId), ⟨1⟩, ⟨2⟩, ⟨3⟩] ↔ tangle.LeadsTo tangleHeap ⟨0⟩ id) ∧
      [(⟨0⟩ : OperatorId), ⟨1⟩, ⟨2⟩, ⟨3⟩].Pairwise (fun a b =>
        tangle.distance tangleHeap ⟨0⟩ a ≤ tangle.distance tangleHeap ⟨0⟩ b) ∧
      tangle.validate tangleHeap = .ok () ∧ tangle.has ⟨3⟩ = true ∧
      (∃ ids, tangle.reachable tangleHeap ⟨3⟩ = .ok ids) ∧
      frayedTangle.reachable tangleHeap ⟨4⟩ = .error (.unknownOperator ⟨9⟩) ∧
      ∃ id, frayedTangle.LeadsTo tangleHeap ⟨4⟩ id ∧ frayedTangle.has id = false := by
  have hids : tangle.reachable tangleHeap ⟨0⟩ = .ok [⟨0⟩, ⟨1⟩, ⟨2⟩, ⟨3⟩] :=
    Graph.reachFrom_of_within 7 (by decide)
  have hstray : frayedTangle.reachable tangleHeap ⟨4⟩ = .error (.unknownOperator ⟨9⟩) :=
    Graph.reachFrom_of_within 2 (by decide)
  have hvalid : tangle.validate tangleHeap = .ok () := by decide
  obtain ⟨-, hlists, -⟩ := Graph.reachable_breadth_first tangle tangleHeap ⟨0⟩
  obtain ⟨-, -, -, -, hfinds⟩ := Graph.reachable_breadth_first tangle tangleHeap ⟨3⟩
  obtain ⟨-, -, hfails, -⟩ := Graph.reachable_breadth_first frayedTangle tangleHeap ⟨4⟩
  obtain ⟨-, -, hmem, hordered⟩ := hlists _ hids
  exact ⟨hids, hmem, hordered, hvalid, rfl, hfinds hvalid rfl, hstray, hfails.mp ⟨_, hstray⟩⟩

end Sample

end ScopeFlow
