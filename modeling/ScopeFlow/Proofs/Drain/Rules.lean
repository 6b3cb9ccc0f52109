import ScopeFlow.Proofs.Drain.Moves

/-!
# Rules for drains

How a drain ends and how it begins, one rule for each move, without fuel: a
big-step semantics of drains, read off the moves. `Leads` joins the two: one
drain goes over into another after some deeds.
-/

namespace ScopeFlow

/-- What an operator of a context has led to. -/
abbrev Deed := Context × Progress

namespace DrainSetting

/-- Branches drained one after another end so, having done these deeds. -/
def BranchesEnd (r : DrainSetting) (ops : List Operation) (p : Progress) (l : List Deed)
    (ends : List BranchEnd) (p' : Progress) : Prop :=
  ∃ fuel, drainBranches (fun op p => r.drain fuel none [op] p) ops p = some (ends, p') ∧
    (branchTurns (fun op p => r.drain fuel none [op] p) (fun op p => r.turns fuel none [op] p)
      ops p).map Turn.deed = l

/-- The first deeds of branches drained one after another. -/
def BranchesBegin (r : DrainSetting) (ops : List Operation) (p : Progress) (l : List Deed) :
    Prop :=
  ∃ fuel, l <+: (branchTurns (fun op p => r.drain fuel none [op] p)
    (fun op p => r.turns fuel none [op] p) ops p).map Turn.deed

variable {r : DrainSetting} {budget : Option Nat} {op : Operation} {rest ops : List Operation}
  {p p' : Progress} {l : List Deed} {d : Drained} {ctx : Context} {w : World}
  {next : Option Operation} {e : Failure}

/-! ## How a drain ends -/

theorem ends_succ : r.Ends budget rest p l d ↔ ∃ fuel, r.drain (fuel + 1) budget rest p = some d ∧
    (r.turns (fuel + 1) budget rest p).map Turn.deed = l := by
  constructor
  · rintro ⟨fuel, hd, hl⟩
    have := drain_mono (Nat.le_succ fuel) hd
    exact ⟨fuel, this.1, by rw [this.2, hl]⟩
  · rintro ⟨fuel, h⟩
    exact ⟨fuel + 1, h⟩

theorem ends_nil : r.Ends budget [] p l d ↔ l = [] ∧ d = ⟨.ended none, [], p⟩ := by
  rw [ends_succ]
  simp only [drain_nil, turns_nil, List.map_nil, Option.some.injEq, exists_const]
  exact ⟨fun h => ⟨h.2.symm, h.1.symm⟩, fun h => ⟨h.2.symm, h.1.symm⟩⟩

theorem ends_halt {why : Halt} (hm : r.move budget op p = .halt why) :
    r.Ends budget (op :: rest) p l d ↔ l = [] ∧ d = ⟨.ended (some why), op :: rest, p⟩ := by
  rw [ends_succ]
  simp only [drain_halt hm, turns_halt hm, List.map_nil, Option.some.injEq, exists_const]
  exact ⟨fun h => ⟨h.2.symm, h.1.symm⟩, fun h => ⟨h.2.symm, h.1.symm⟩⟩

theorem ends_unpack (hm : r.move budget op p = .unpack ops) :
    r.Ends budget (op :: rest) p l d ↔ r.Ends budget (ops ++ rest) p l d := by
  rw [ends_succ]
  simp only [drain_unpack hm, turns_unpack hm]
  exact Iff.rfl

theorem ends_error (hm : r.move budget op p = .perform ctx)
    (he : r.execute ctx rest.length p.world = (.error e, w)) :
    r.Ends budget (op :: rest) p l d ↔
      l = [(ctx, p.fall e w)] ∧ d = ⟨.failed e, .atomic ctx :: rest, p.fall e w⟩ := by
  rw [ends_succ]
  simp only [drain_cons, turns, hm, he, List.map_cons, List.map_nil, Option.some.injEq,
    exists_const]
  exact ⟨fun h => ⟨h.2.symm, h.1.symm⟩, fun h => ⟨h.2.symm, h.1.symm⟩⟩

theorem ends_perform (hm : r.move none op p = .perform ctx)
    (he : r.execute ctx rest.length p.world = (.ok next, w)) :
    r.Ends none (op :: rest) p l d ↔
      ∃ l', l = (ctx, p.advance w) :: l' ∧
        r.Ends none (next.toList ++ rest) (p.advance w) l' d := by
  rw [ends_succ]
  simp only [drain_cons, turns, hm, he, spend, List.map_cons]
  constructor
  · rintro ⟨fuel, hd, hl⟩
    exact ⟨_, hl.symm, fuel, hd, rfl⟩
  · rintro ⟨l', rfl, fuel, hd, hl⟩
    exact ⟨fuel, hd, by rw [hl]; rfl⟩

theorem ends_last (hm : r.move (some 1) op p = .perform ctx)
    (he : r.execute ctx rest.length p.world = (.ok next, w)) :
    r.Ends (some 1) (op :: rest) p l d ↔ l = [(ctx, p.advance w)] ∧
      d = ⟨.ended (some .budget), next.toList ++ rest, p.advance w⟩ := by
  rw [ends_succ]
  simp only [drain_cons, turns, hm, he, spend, Nat.le_refl, if_true, List.map_cons, List.map_nil,
    Option.some.injEq, exists_const]
  exact ⟨fun h => ⟨h.2.symm, h.1.symm⟩, fun h => ⟨h.2.symm, h.1.symm⟩⟩

/-- Branches drained to their end with some fuel are so with more. -/
theorem branches_more {fuel fuel' : Nat} {ends : List BranchEnd} (hle : fuel ≤ fuel')
    (h : drainBranches (fun op p => r.drain fuel none [op] p) ops p = some (ends, p')) :
    drainBranches (fun op p => r.drain fuel' none [op] p) ops p = some (ends, p') ∧
      branchTurns (fun op p => r.drain fuel' none [op] p) (fun op p => r.turns fuel' none [op] p)
          ops p =
        branchTurns (fun op p => r.drain fuel none [op] p) (fun op p => r.turns fuel none [op] p)
          ops p := by
  have hrun : ∀ op p d, r.drain fuel none [op] p = some d → r.drain fuel' none [op] p = some d :=
    fun op p d h => (drain_mono hle h).1
  refine ⟨drainBranches_mono hrun h, ?_⟩
  exact (branchTurns_mono hrun (fun op p => turns_mono hle) (fun op p d h => (drain_mono hle h).2)
    ops p).2 (by rw [h]; rfl)

theorem ends_split (hm : r.move budget op p = .split ops) :
    r.Ends budget (op :: rest) p l d ↔ ∃ l₁ ends p', r.BranchesEnd ops p l₁ ends p' ∧
      (((joinBranches ends).outcome = .ended none ∧
          ∃ l₂, l = l₁ ++ l₂ ∧ r.Ends budget ((joinBranches ends).stackOn rest) p' l₂ d) ∨
        ((joinBranches ends).outcome ≠ .ended none ∧ l = l₁ ∧
          d = ⟨(joinBranches ends).outcome, (joinBranches ends).stackOn rest, p'⟩)) := by
  rw [ends_succ]
  constructor
  · rintro ⟨fuel, hd, rfl⟩
    cases hb : drainBranches (fun op p => r.drain fuel none [op] p) ops p with
    | none => rw [(drain_split_none hm hb).1] at hd; cases hd
    | some x =>
        obtain ⟨ends, p'⟩ := x
        refine ⟨_, ends, p', ⟨fuel, hb, rfl⟩, ?_⟩
        by_cases ho : (joinBranches ends).outcome = .ended none
        · rw [(drain_split_go hm hb ho).1] at hd
          rw [(drain_split_go hm hb ho).2, List.map_append]
          exact .inl ⟨ho, _, rfl, fuel, hd, rfl⟩
        · rw [(drain_split_end hm hb ho).1] at hd
          rw [(drain_split_end hm hb ho).2]
          exact .inr ⟨ho, rfl, (Option.some.inj hd).symm⟩
  · rintro ⟨l₁, ends, p', ⟨fuel, hb, rfl⟩, ⟨ho, l₂, rfl, fuel', hd, rfl⟩ | ⟨ho, rfl, rfl⟩⟩
    · have hb' := branches_more (Nat.le_max_left fuel fuel') hb
      have hd' := drain_mono (Nat.le_max_right fuel fuel') hd
      refine ⟨max fuel fuel', ?_⟩
      rw [(drain_split_go hm hb'.1 ho).1, (drain_split_go hm hb'.1 ho).2, List.map_append, hb'.2,
        hd'.2]
      exact ⟨hd'.1, rfl⟩
    · exact ⟨fuel, (drain_split_end hm hb ho).1, by rw [(drain_split_end hm hb ho).2]⟩

theorem branchesEnd_nil {ends : List BranchEnd} :
    r.BranchesEnd [] p l ends p' ↔ l = [] ∧ ends = [] ∧ p' = p := by
  constructor
  · rintro ⟨fuel, hb, hl⟩
    rw [drainBranches, Option.some.injEq, Prod.mk.injEq] at hb
    exact ⟨hl.symm, hb.1.symm, hb.2.symm⟩
  · rintro ⟨rfl, rfl, rfl⟩
    exact ⟨0, rfl, rfl⟩

theorem branchesEnd_cons {ends : List BranchEnd} :
    r.BranchesEnd (op :: ops) p l ends p' ↔ ∃ l₁ d l₂ ends', r.Ends none [op] p l₁ d ∧
      r.BranchesEnd ops d.progress l₂ ends' p' ∧ l = l₁ ++ l₂ ∧
      ends = ⟨d.outcome, d.stack⟩ :: ends' := by
  constructor
  · rintro ⟨fuel, hb, hl⟩
    cases hd : r.drain fuel none [op] p with
    | none => simp [drainBranches, hd] at hb
    | some d =>
        simp only [drainBranches, branchTurns, hd, List.map_append] at hb hl
        cases hb' : drainBranches (fun op p => r.drain fuel none [op] p) ops d.progress with
        | none => simp [hb'] at hb
        | some x =>
            rw [hb', Option.some.injEq, Prod.mk.injEq] at hb
            obtain ⟨rfl, rfl⟩ := hb
            exact ⟨_, d, _, x.1, ⟨fuel, hd, rfl⟩, ⟨fuel, hb', rfl⟩, hl.symm, rfl⟩
  · rintro ⟨l₁, d, l₂, ends', ⟨fuel, hd, rfl⟩, ⟨fuel', hb, rfl⟩, rfl, rfl⟩
    have hd' := drain_mono (Nat.le_max_left fuel fuel') hd
    have hb' := branches_more (Nat.le_max_right fuel fuel') hb
    refine ⟨max fuel fuel', ?_, ?_⟩
    · simp only [drainBranches, hd'.1, hb'.1]
    · simp only [branchTurns, hd'.1, hd'.2, hb'.2, List.map_append]

/-! ## How a drain begins -/

theorem Begins.nil : r.Begins budget rest p [] := ⟨0, List.nil_prefix⟩

/-- A drain that ends begins with the deeds it has done by then. -/
theorem Ends.begins_iff {l' : List Deed} (h : r.Ends budget rest p l d) :
    r.Begins budget rest p l' ↔ l' <+: l := by
  obtain ⟨fuel, hd, rfl⟩ := h
  constructor
  · rintro ⟨fuel', h'⟩
    rcases Nat.le_total fuel fuel' with hle | hle
    · rwa [(drain_mono hle hd).2] at h'
    · exact h'.trans ((turns_mono hle).map _)
  · exact fun h' => ⟨fuel, h'⟩

theorem begins_nil : r.Begins budget [] p l ↔ l = [] := by
  rw [Ends.begins_iff (ends_nil.mpr ⟨rfl, rfl⟩), List.prefix_nil]

theorem begins_halt {why : Halt} (hm : r.move budget op p = .halt why) :
    r.Begins budget (op :: rest) p l ↔ l = [] := by
  rw [Ends.begins_iff ((ends_halt hm).mpr ⟨rfl, rfl⟩), List.prefix_nil]

theorem begins_unpack (hm : r.move budget op p = .unpack ops) :
    r.Begins budget (op :: rest) p l ↔ r.Begins budget (ops ++ rest) p l := by
  constructor
  · rintro ⟨fuel, h⟩
    cases fuel with
    | zero => exact ⟨0, by rwa [turns_zero] at h ⊢⟩
    | succ fuel => exact ⟨fuel, by rwa [turns_unpack hm] at h⟩
  · rintro ⟨fuel, h⟩
    exact ⟨fuel + 1, by rwa [turns_unpack hm]⟩

theorem begins_perform (hm : r.move none op p = .perform ctx)
    (he : r.execute ctx rest.length p.world = (.ok next, w)) :
    r.Begins none (op :: rest) p l ↔ l = [] ∨
      ∃ l', l = (ctx, p.advance w) :: l' ∧
        r.Begins none (next.toList ++ rest) (p.advance w) l' := by
  have hstep : ∀ fuel, (r.turns (fuel + 1) none (op :: rest) p).map Turn.deed =
      (ctx, p.advance w) ::
        (r.turns fuel none (next.toList ++ rest) (p.advance w)).map Turn.deed := by
    intro fuel
    simp only [turns, hm, he, spend, List.map_cons]
    rfl
  constructor
  · rintro ⟨fuel, h⟩
    cases fuel with
    | zero =>
        rw [turns_zero] at h
        exact .inl (List.prefix_nil.mp h)
    | succ fuel =>
        rw [hstep, List.prefix_cons_iff] at h
        refine h.imp_right ?_
        rintro ⟨l', hl, hp⟩
        exact ⟨l', hl, fuel, hp⟩
  · rintro (rfl | ⟨l', rfl, fuel, h⟩)
    · exact .nil
    · exact ⟨fuel + 1, by rw [hstep]; exact List.cons_prefix_cons.mpr ⟨rfl, h⟩⟩

/-- With more fuel, branches have more turns. -/
theorem branchTurns_more {fuel fuel' : Nat} (hle : fuel ≤ fuel') :
    branchTurns (fun op p => r.drain fuel none [op] p) (fun op p => r.turns fuel none [op] p)
        ops p <+:
      branchTurns (fun op p => r.drain fuel' none [op] p) (fun op p => r.turns fuel' none [op] p)
        ops p :=
  (branchTurns_mono (fun _ _ _ h => (drain_mono hle h).1) (fun _ _ => turns_mono hle)
    (fun _ _ _ h => (drain_mono hle h).2) ops p).1

/-- Branches end in one way only. -/
theorem BranchesEnd.unique {l' : List Deed} {ends ends' : List BranchEnd} {p'' : Progress}
    (h : r.BranchesEnd ops p l ends p') (h' : r.BranchesEnd ops p l' ends' p'') :
    l = l' ∧ ends = ends' ∧ p' = p'' := by
  obtain ⟨fuel, hb, rfl⟩ := h
  obtain ⟨fuel', hb', rfl⟩ := h'
  have h₁ := branches_more (Nat.le_max_left fuel fuel') hb
  have h₂ := branches_more (Nat.le_max_right fuel fuel') hb'
  have h₃ := Option.some.inj (h₁.1.symm.trans h₂.1)
  exact ⟨by rw [← h₁.2, h₂.2], (Prod.mk.inj h₃).1, (Prod.mk.inj h₃).2⟩

/-- Branches that end begin with the deeds they have done by then. -/
theorem BranchesEnd.begin_iff {l' : List Deed} {ends : List BranchEnd}
    (h : r.BranchesEnd ops p l ends p') : r.BranchesBegin ops p l' ↔ l' <+: l := by
  obtain ⟨fuel, hb, rfl⟩ := h
  constructor
  · rintro ⟨fuel', h'⟩
    rw [← (branches_more (Nat.le_max_left fuel fuel') hb).2]
    exact h'.trans ((branchTurns_more (Nat.le_max_right fuel fuel')).map _)
  · exact fun h' => ⟨fuel, h'⟩

/-- A prefix of a concatenation ends in its first part or goes on into its
second. -/
theorem prefix_append_cases {α : Type} {l a b : List α} (h : l <+: a ++ b) :
    l <+: a ∨ ∃ l', l = a ++ l' ∧ l' <+: b := by
  rcases List.prefix_or_prefix_of_prefix h (List.prefix_append a b) with h' | ⟨l', rfl⟩
  · exact .inl h'
  · exact .inr ⟨l', rfl, (List.prefix_append_right_inj a).mp h⟩

theorem begins_split (hm : r.move budget op p = .split ops) :
    r.Begins budget (op :: rest) p l ↔ r.BranchesBegin ops p l ∨
      ∃ l₁ ends p' l₂, r.BranchesEnd ops p l₁ ends p' ∧
        (joinBranches ends).outcome = .ended none ∧ l = l₁ ++ l₂ ∧
        r.Begins budget ((joinBranches ends).stackOn rest) p' l₂ := by
  constructor
  · rintro ⟨fuel, h⟩
    cases fuel with
    | zero =>
        rw [turns_zero] at h
        exact .inl ⟨0, h.trans List.nil_prefix⟩
    | succ fuel =>
        cases hb : drainBranches (fun op p => r.drain fuel none [op] p) ops p with
        | none =>
            rw [(drain_split_none hm hb).2] at h
            exact .inl ⟨fuel, h⟩
        | some x =>
            obtain ⟨ends, p'⟩ := x
            by_cases ho : (joinBranches ends).outcome = .ended none
            · rw [(drain_split_go hm hb ho).2, List.map_append] at h
              rcases prefix_append_cases h with h' | ⟨l₂, rfl, h'⟩
              · exact .inl ⟨fuel, h'⟩
              · exact .inr ⟨_, ends, p', l₂, ⟨fuel, hb, rfl⟩, ho, rfl, fuel, h'⟩
            · rw [(drain_split_end hm hb ho).2] at h
              exact .inl ⟨fuel, h⟩
  · rintro (⟨fuel, h⟩ | ⟨l₁, ends, p', l₂, ⟨fuel, hb, rfl⟩, ho, rfl, fuel', h⟩)
    · refine ⟨fuel + 1, h.trans ?_⟩
      rw [turns, hm, List.map_append]
      exact List.prefix_append ..
    · have hb' := branches_more (Nat.le_max_left fuel fuel') hb
      refine ⟨max fuel fuel' + 1, ?_⟩
      rw [(drain_split_go hm hb'.1 ho).2, List.map_append, hb'.2, List.prefix_append_right_inj]
      exact h.trans ((turns_mono (Nat.le_max_right fuel fuel')).map _)

theorem branchesBegin_cons : r.BranchesBegin (op :: ops) p l ↔ r.Begins none [op] p l ∨
    ∃ l₁ d l₂, r.Ends none [op] p l₁ d ∧ l = l₁ ++ l₂ ∧ r.BranchesBegin ops d.progress l₂ := by
  constructor
  · rintro ⟨fuel, h⟩
    simp only [branchTurns, List.map_append] at h
    rcases prefix_append_cases h with h' | ⟨l₂, rfl, h'⟩
    · exact .inl ⟨fuel, h'⟩
    · cases hd : r.drain fuel none [op] p with
      | none =>
          rw [hd, List.map_nil, List.prefix_nil] at h'
          rw [h', List.append_nil]
          exact .inl ⟨fuel, List.prefix_rfl⟩
      | some d =>
          rw [hd] at h'
          exact .inr ⟨_, d, l₂, ⟨fuel, hd, rfl⟩, rfl, fuel, h'⟩
  · rintro (⟨fuel, h⟩ | ⟨l₁, d, l₂, ⟨fuel, hd, rfl⟩, rfl, fuel', h⟩)
    · refine ⟨fuel, ?_⟩
      simp only [branchTurns, List.map_append]
      exact h.trans (List.prefix_append ..)
    · have hd' := drain_mono (Nat.le_max_left fuel fuel') hd
      refine ⟨max fuel fuel', ?_⟩
      simp only [branchTurns, List.map_append, hd'.1, hd'.2]
      rw [List.prefix_append_right_inj]
      exact h.trans ((branchTurns_more (Nat.le_max_right fuel fuel')).map _)

/-! ## One drain going over into another -/

/-- The drain of a stack goes over, after some deeds, into the drain of
another. -/
structure Leads (r : DrainSetting) (stack : List Operation) (p : Progress) (l : List Deed)
    (stack' : List Operation) (p' : Progress) : Prop where
  ends : ∀ l' d, r.Ends none stack p l' d ↔ ∃ l'', l' = l ++ l'' ∧ r.Ends none stack' p' l'' d
  begins : ∀ l', r.Begins none stack p l' ↔
    l' <+: l ∨ ∃ l'', l' = l ++ l'' ∧ r.Begins none stack' p' l''

namespace Leads

variable {stack stack' stack'' : List Operation} {p'' : Progress} {l₁ l₂ : List Deed}

theorem refl : r.Leads stack p [] stack p where
  ends l' d := by simp
  begins l' := by
    simp only [List.prefix_nil, List.nil_append, exists_eq_left']
    exact ⟨.inr, fun h => h.elim (fun h => h ▸ .nil) id⟩

theorem trans (h₁ : r.Leads stack p l₁ stack' p') (h₂ : r.Leads stack' p' l₂ stack'' p'') :
    r.Leads stack p (l₁ ++ l₂) stack'' p'' where
  ends l' d := by
    rw [h₁.ends]
    constructor
    · rintro ⟨l, rfl, h⟩
      obtain ⟨l', rfl, h'⟩ := (h₂.ends _ _).mp h
      exact ⟨l', (List.append_assoc ..).symm, h'⟩
    · rintro ⟨l, rfl, h⟩
      exact ⟨l₂ ++ l, List.append_assoc .., (h₂.ends _ _).mpr ⟨l, rfl, h⟩⟩
  begins l' := by
    rw [h₁.begins]
    constructor
    · rintro (h | ⟨l, rfl, h⟩)
      · exact .inl (h.trans (List.prefix_append ..))
      · rcases (h₂.begins _).mp h with h' | ⟨l', rfl, h'⟩
        · exact .inl ((List.prefix_append_right_inj _).mpr h')
        · exact .inr ⟨l', (List.append_assoc ..).symm, h'⟩
    · rintro (h | ⟨l, rfl, h⟩)
      · rcases prefix_append_cases h with h' | ⟨l, rfl, h'⟩
        · exact .inl h'
        · exact .inr ⟨l, rfl, (h₂.begins _).mpr (.inl h')⟩
      · exact .inr ⟨l₂ ++ l, List.append_assoc .., (h₂.begins _).mpr (.inr ⟨l, rfl, h⟩)⟩

theorem unpack (hm : r.move none op p = .unpack ops)
    (h : r.Leads (ops ++ rest) p l stack' p') : r.Leads (op :: rest) p l stack' p' where
  ends l' d := by rw [ends_unpack hm, h.ends]
  begins l' := by rw [begins_unpack hm, h.begins]

theorem perform (hm : r.move none op p = .perform ctx)
    (he : r.execute ctx rest.length p.world = (.ok next, w))
    (h : r.Leads (next.toList ++ rest) (p.advance w) l stack' p') :
    r.Leads (op :: rest) p ((ctx, p.advance w) :: l) stack' p' where
  ends l' d := by
    rw [ends_perform hm he]
    constructor
    · rintro ⟨l'', rfl, hn⟩
      obtain ⟨l', rfl, h'⟩ := (h.ends _ _).mp hn
      exact ⟨l', rfl, h'⟩
    · rintro ⟨l'', rfl, h'⟩
      exact ⟨l ++ l'', rfl, (h.ends _ _).mpr ⟨l'', rfl, h'⟩⟩
  begins l' := by
    rw [begins_perform hm he, List.prefix_cons_iff]
    constructor
    · rintro (rfl | ⟨l'', rfl, hn⟩)
      · exact .inl (.inl rfl)
      · rcases (h.begins _).mp hn with h' | ⟨l', rfl, h'⟩
        · exact .inl (.inr ⟨l'', rfl, h'⟩)
        · exact .inr ⟨l', rfl, h'⟩
    · rintro ((rfl | ⟨l'', rfl, h'⟩) | ⟨l'', rfl, h'⟩)
      · exact .inl rfl
      · exact .inr ⟨l'', rfl, (h.begins _).mpr (.inl h')⟩
      · exact .inr ⟨l ++ l'', rfl, (h.begins _).mpr (.inr ⟨l'', rfl, h'⟩)⟩

/-- Branches that all run dry lead to what lies below them. -/
theorem split {ends : List BranchEnd} (hm : r.move none op p = .split ops)
    (hb : r.BranchesEnd ops p l₁ ends p') (ho : (joinBranches ends).outcome = .ended none)
    (h : r.Leads ((joinBranches ends).stackOn rest) p' l₂ stack'' p'') :
    r.Leads (op :: rest) p (l₁ ++ l₂) stack'' p'' := by
  have hjoin : r.Leads (op :: rest) p l₁ ((joinBranches ends).stackOn rest) p' := by
    refine ⟨fun l d => ?_, fun l => ?_⟩
    · rw [ends_split hm]
      constructor
      · rintro ⟨l', ends', q, hb', ⟨_, l'', rfl, h'⟩ | ⟨ho', _, _⟩⟩ <;>
          obtain ⟨rfl, rfl, rfl⟩ := hb.unique hb'
        · exact ⟨l'', rfl, h'⟩
        · exact absurd ho ho'
      · rintro ⟨l'', rfl, h'⟩
        exact ⟨l₁, ends, p', hb, .inl ⟨ho, l'', rfl, h'⟩⟩
    · rw [begins_split hm, hb.begin_iff]
      constructor
      · rintro (h' | ⟨l', ends', q, l'', hb', _, rfl, h'⟩)
        · exact .inl h'
        · obtain ⟨rfl, rfl, rfl⟩ := hb.unique hb'
          exact .inr ⟨l'', rfl, h'⟩
      · rintro (h' | ⟨l'', rfl, h'⟩)
        · exact .inl h'
        · exact .inr ⟨l₁, ends, p', l'', hb, ho, rfl, h'⟩
  exact hjoin.trans h

end Leads

end DrainSetting

end ScopeFlow
