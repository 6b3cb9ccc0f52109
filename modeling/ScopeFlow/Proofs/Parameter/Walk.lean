import Mathlib.Data.List.Basic
import Mathlib.Logic.Relation
import ScopeFlow.Parameter.Resolution

/-!
# The walk of a name

What a parameter stands for is found by a walk over frames and names. Where a
frame declares nothing of the present name, or does not rename it, the walk
moves up; where it renames it, the walk goes on in the same frame under the
new name; a fixed value and the far side of the root end it. The walk knows of
no limit and may run in circles.

* `Spot.next?` is one move, `Walk` a trace of moves, the present spot first;
* `Trace.Barred` marks the spots at which resolution gives up: a declared name
  met before, or met after too many renamings;
* `Concludes` is how a walk can end, and `Context.resolve_walks` says that
  resolution ends as its walk does, after a bounded number of moves.

A walk that comes back does so within one frame, whose names lead to one
another in a circle: moves up never lead back to a frame passed.
-/

namespace ScopeFlow

/-- The declaration of a name in a frame, if there is one. -/
def Context.declared? (ctx : Context) (name : String) : Option Parameter :=
  match ctx.parameters with
  | .ok ps => ps.get? name
  | .error _ => none

/-- Does a frame rename one name to another? -/
def Context.Renames (ctx : Context) (name next : String) : Prop :=
  ∃ p, ctx.declared? name = some p ∧ p.fixed = none ∧ p.actual = next ∧ next ≠ name

/-- Where a walk stands: at a frame, or past the root, with the present name. -/
structure Spot where
  frame? : Option Context
  name : String

namespace Spot

/-- What the frame declares of the present name. -/
def declared? (x : Spot) : Option Parameter := x.frame?.bind fun ctx => ctx.declared? x.name

/-- The next spot. There is none past the root and at a fixed value. -/
def next? (x : Spot) : Option Spot :=
  match x.frame? with
  | none => none
  | some ctx =>
    match ctx.declared? x.name with
    | none => some ⟨ctx.parent?, x.name⟩
    | some p =>
      if p.fixed.isSome then none
      else if p.actual = x.name then some ⟨ctx.parent?, x.name⟩
      else some ⟨some ctx, p.actual⟩

/-- How many frames lie at and above a spot. -/
def height (x : Spot) : Nat :=
  match x.frame? with
  | none => 0
  | some ctx => ctx.depth + 1

end Spot

/-! ## Traces -/

/-- The spots of a walk so far, the present one first. -/
abbrev Trace := List Spot

namespace Trace

/-- The names passed through, the present one first: a move up keeps the name. -/
def names : Trace → List String
  | [] => []
  | [x] => [x.name]
  | x :: y :: passed =>
    if x.name = y.name then names (y :: passed) else x.name :: names (y :: passed)

/-- How many moves were renamings. -/
def renamings (trace : Trace) : Nat := (names trace).length - 1

/-- The default that was met first. -/
def default? : Trace → Option ItemId
  | [] => none
  | x :: passed => (default? passed).or (x.declared?.bind Parameter.default)

/-- Is the present spot a declared one to which the walk has come back? -/
def ComesBack : Trace → Prop
  | [] => False
  | x :: passed => x.declared?.isSome ∧ x ∈ passed

/-- Is the present spot a declared one that is met after as many renamings as
are allowed, or more? -/
def TooLong : Trace → Prop
  | [] => False
  | x :: passed => x.declared?.isSome ∧ aliasLimit ≤ renamings (x :: passed)

/-- Does resolution give up at the present spot? -/
def Barred (trace : Trace) : Prop := trace.ComesBack ∨ trace.TooLong

/-- Has resolution got to the end of the trace? -/
def Clear (passed : Trace) : Prop := ∀ trace : Trace, trace <:+ passed → ¬ trace.Barred

end Trace

/-- The traces of the walk from a spot. -/
inductive Walk (start : Spot) : Trace → Prop
  | start : Walk start [start]
  | move {x y : Spot} {passed : Trace} : Walk start (x :: passed) → x.next? = some y →
      Walk start (y :: x :: passed)

/-- How the walk from a spot concludes, for a parameter of a declared type. -/
inductive Concludes (start : Spot) (parameter : String) (type : ValueType) :
    Trace → Except Failure Resolution → Prop
  /-- It is given up, with the names passed through. -/
  | barred {x : Spot} {passed : Trace} : Walk start (x :: passed) → Trace.Clear passed →
      Trace.Barred (x :: passed) →
      Concludes start parameter type (x :: passed)
        (.error (.aliasCycle parameter (Trace.names (x :: passed)).reverse))
  /-- It meets a fixed value. -/
  | fixed {x : Spot} {passed : Trace} {p : Parameter} {value : ItemId} :
      Walk start (x :: passed) → Trace.Clear (x :: passed) → x.declared? = some p →
      p.fixed = some value →
      Concludes start parameter type (x :: passed) (.ok (.fixed value type))
  /-- It leads past the root, with a name and the first default met. -/
  | past {name : String} {passed : Trace} : Walk start (⟨none, name⟩ :: passed) →
      Trace.Clear (⟨none, name⟩ :: passed) →
      Concludes start parameter type (⟨none, name⟩ :: passed)
        (.ok (.variable name (Trace.default? (⟨none, name⟩ :: passed)) type))

theorem Trace.Clear.tail {x : Spot} {passed : Trace} (h : Trace.Clear (x :: passed)) :
    Trace.Clear passed := fun trace hsuffix => h trace (hsuffix.trans (List.suffix_cons x passed))

variable {start x y : Spot} {trace trace' passed : Trace} {ctx : Context} {name next : String}
  {p : Parameter} {ps : Parameters} {w : Passage}

/-! ## Moves -/

theorem Context.declared?_eq (h : ctx.parameters = .ok ps) :
    ctx.declared? name = ps.get? name := by
  rw [Context.declared?, h]

theorem Spot.next?_up (h : ctx.declared? name = none) :
    Spot.next? ⟨some ctx, name⟩ = some ⟨ctx.parent?, name⟩ := by
  simp only [Spot.next?, h]

theorem Spot.next?_same (h : ctx.declared? name = some p) (hfixed : p.fixed = none)
    (hactual : p.actual = name) : Spot.next? ⟨some ctx, name⟩ = some ⟨ctx.parent?, name⟩ := by
  simp only [Spot.next?, h, hfixed, hactual, Option.isSome_none, Bool.false_eq_true, if_false,
    if_true]

theorem Spot.next?_rename (h : ctx.declared? name = some p) (hfixed : p.fixed = none)
    (hactual : p.actual ≠ name) : Spot.next? ⟨some ctx, name⟩ = some ⟨some ctx, p.actual⟩ := by
  simp only [Spot.next?, h, hfixed, hactual, Option.isSome_none, Bool.false_eq_true, if_false]

/-- A move goes up with the same name, or renames in the same frame. -/
theorem Spot.next?_cases (h : x.next? = some y) : ∃ ctx, x.frame? = some ctx ∧
    (y = ⟨ctx.parent?, x.name⟩ ∨ y.frame? = some ctx ∧ ctx.Renames x.name y.name) := by
  obtain ⟨frame?, name⟩ := x
  cases frame? with
  | none => cases h
  | some ctx =>
    refine ⟨ctx, rfl, ?_⟩
    cases hp : ctx.declared? name with
    | none =>
      rw [Spot.next?_up hp] at h
      exact .inl (Option.some.inj h).symm
    | some p =>
      cases hfixed : p.fixed with
      | some value => simp [Spot.next?, hp, hfixed] at h
      | none =>
        by_cases hactual : p.actual = name
        · rw [Spot.next?_same hp hfixed hactual] at h
          exact .inl (Option.some.inj h).symm
        · rw [Spot.next?_rename hp hfixed hactual] at h
          obtain rfl := Option.some.inj h
          exact .inr ⟨rfl, p, hp, hfixed, rfl, hactual⟩

theorem Spot.height_of_frame? (h : x.frame? = some ctx) : x.height = ctx.depth + 1 := by
  rw [Spot.height, h]

theorem Spot.height_parent? (ctx : Context) (name : String) :
    Spot.height ⟨ctx.parent?, name⟩ = ctx.depth := by
  cases ctx <;> rfl

theorem Context.parent?_mem_chain {f g : Context} (h : f ∈ ctx.chain) (hg : f.parent? = some g) :
    g ∈ ctx.chain := by
  induction ctx with
  | root id graph s =>
    obtain rfl := List.mem_singleton.mp h
    cases hg
  | frame id op s trail p ih =>
    refine List.mem_cons_of_mem _ ?_
    rcases List.mem_cons.mp h with rfl | h
    · obtain rfl : p = g := Option.some.inj hg
      cases p <;> exact List.mem_cons_self
    · exact ih h

/-! ## Walks -/

theorem Trace.names_up (h : x.name = y.name) :
    Trace.names (x :: y :: passed) = Trace.names (y :: passed) := by
  rw [Trace.names, if_pos h]

theorem Trace.names_rename (h : x.name ≠ y.name) :
    Trace.names (x :: y :: passed) = x.name :: Trace.names (y :: passed) := by
  rw [Trace.names, if_neg h]

namespace Walk

/-- From one spot there is one walk: of two traces one goes on from the other. -/
theorem suffix (h : Walk start trace) (h' : Walk start trace')
    (hlength : trace.length ≤ trace'.length) : trace <:+ trace' := by
  induction h' generalizing trace with
  | start =>
    cases h with
    | start => exact List.suffix_rfl
    | move h₁ _ => simp at hlength
  | @move x y passed h₁ hxy ih =>
    rcases Nat.lt_or_eq_of_le hlength with hlt | heq
    · exact (ih h (Nat.le_of_lt_succ hlt)).trans (List.suffix_cons y _)
    · cases h with
      | start => simp at heq
      | @move x' y' passed' h₂ hxy' =>
        -- The traces before the last move are of one length, and so the same.
        have hsame : x' :: passed' = x :: passed :=
          (ih h₂ (Nat.le_of_eq (Nat.succ.inj heq))).eq_of_length (Nat.succ.inj heq)
        obtain ⟨rfl, rfl⟩ := List.cons.inj hsame
        obtain rfl : y' = y := Option.some.inj (hxy'.symm.trans hxy)
        exact List.suffix_rfl

/-- Where the walk ends, every other trace is an earlier part of it. -/
theorem suffix_of_end (h : Walk start (x :: passed)) (hend : x.next? = none)
    (h' : Walk start trace) : trace <:+ x :: passed := by
  induction h' with
  | start => exact Walk.start.suffix h (by simp)
  | @move y z rest h₁ hyz ih =>
    rcases List.suffix_cons_iff.mp ih with heq | hrest
    · -- The walk cannot have gone on from its end.
      obtain ⟨rfl, -⟩ := List.cons.inj heq
      rw [hend] at hyz
      cases hyz
    · exact (Walk.move h₁ hyz).suffix h (Nat.succ_le_succ hrest.length_le)

/-- A spot passed lies no higher in the chain than the present one, and from
one in the same frame renamings lead to the present name. -/
theorem climbs (h : Walk start (y :: passed)) : ∀ x ∈ passed, y.height ≤ x.height ∧
    (y.height = x.height → ∃ ctx, x.frame? = some ctx ∧ y.frame? = some ctx ∧
      Relation.TransGen ctx.Renames x.name y.name) := by
  generalize htrace : y :: passed = trace at h
  induction h generalizing y passed with
  | start =>
    obtain ⟨-, rfl⟩ := List.cons.inj htrace
    exact fun x hx => nomatch hx
  | @move z y₁ passed₁ h₁ hmove ih =>
    obtain ⟨rfl, rfl⟩ := List.cons.inj htrace
    intro x hx
    obtain ⟨ctx, hz, hup | ⟨hy, hrename⟩⟩ := Spot.next?_cases hmove
    · -- From now on everything passed lies below.
      have hlt : y.height < z.height := by
        rw [hup, Spot.height_parent?, Spot.height_of_frame? hz]
        exact Nat.lt_succ_self _
      have hle : z.height ≤ x.height := by
        rcases List.mem_cons.mp hx with rfl | hx
        · exact Nat.le_refl _
        · exact (ih rfl x hx).1
      exact ⟨by omega, fun heq => absurd heq (by omega)⟩
    · have hheight : y.height = z.height :=
        (Spot.height_of_frame? hy).trans (Spot.height_of_frame? hz).symm
      rcases List.mem_cons.mp hx with rfl | hx
      · exact ⟨Nat.le_of_eq hheight, fun _ => ⟨ctx, hz, hy, .single hrename⟩⟩
      · obtain ⟨hle, hsame⟩ := ih rfl x hx
        refine ⟨hheight ▸ hle, fun heq => ?_⟩
        obtain ⟨ctx', hx', hz', hpath⟩ := hsame (hheight ▸ heq)
        obtain rfl : ctx' = ctx := Option.some.inj (hz'.symm.trans hz)
        exact ⟨ctx', hx', hy, hpath.tail hrename⟩

/-- A walk that comes back has gone round in one frame, by renamings alone. -/
theorem circle_of_mem (h : Walk start (x :: passed)) (hx : x ∈ passed) :
    ∃ ctx, x.frame? = some ctx ∧ Relation.TransGen ctx.Renames x.name x.name := by
  obtain ⟨ctx, hctx, -, hpath⟩ := (h.climbs x hx).2 rfl
  exact ⟨ctx, hctx, hpath⟩

/-- After a move up, everything passed lies below. -/
theorem below_of_up (h : Walk start (⟨ctx.parent?, name⟩ :: ⟨some ctx, next⟩ :: passed)) :
    ∀ x ∈ ⟨some ctx, next⟩ :: passed, ctx.depth < x.height := by
  intro x hx
  rcases List.mem_cons.mp hx with rfl | hx
  · exact Nat.lt_succ_self _
  · cases h with
    | move h₁ _ => exact (h₁.climbs x hx).1

theorem names_ne_nil (h : Walk start trace) : trace.names ≠ [] := by
  induction h with
  | start => exact List.cons_ne_nil _ _
  | @move x y passed _ _ ih =>
    by_cases hname : y.name = x.name
    · rwa [Trace.names_up hname]
    · rw [Trace.names_rename hname]
      exact List.cons_ne_nil _ _

/-- Every move climbs or renames. -/
theorem length_add_height (h : Walk start (x :: passed)) :
    (x :: passed).length + x.height = 1 + start.height + Trace.renamings (x :: passed) := by
  generalize htrace : x :: passed = trace at h
  induction h generalizing x passed with
  | start =>
    obtain ⟨rfl, -⟩ := List.cons.inj htrace
    simp [Trace.renamings, Trace.names]
  | @move z y passed₁ h₁ hmove ih =>
    obtain ⟨rfl, -⟩ := List.cons.inj htrace
    have hlength := ih rfl
    have hnames := List.length_pos_of_ne_nil h₁.names_ne_nil
    simp only [Trace.renamings, List.length_cons] at hlength hnames ⊢
    obtain ⟨ctx, hz, rfl | ⟨hx, hrename⟩⟩ := Spot.next?_cases hmove
    · rw [Trace.names_up (x := ⟨ctx.parent?, z.name⟩) (y := z) rfl, Spot.height_parent?]
      rw [Spot.height_of_frame? hz] at hlength
      omega
    · obtain ⟨p, -, -, -, hne⟩ := hrename
      rw [Trace.names_rename hne, List.length_cons, Spot.height_of_frame? hx]
      rw [Spot.height_of_frame? hz] at hlength
      omega

/-- A walk that has not been barred has not gone beyond the limit. -/
theorem renamings_le (h : Walk start (x :: passed)) (hclear : Trace.Clear passed) :
    Trace.renamings (x :: passed) ≤ aliasLimit := by
  generalize htrace : x :: passed = trace at h
  induction h generalizing x passed with
  | start => exact Nat.zero_le _
  | @move z y passed₁ h₁ hmove ih =>
    obtain ⟨rfl, rfl⟩ := List.cons.inj htrace
    have hle := ih hclear.tail rfl
    obtain ⟨ctx, hz, rfl | ⟨-, p, hdeclared, -, -, hne⟩⟩ := Spot.next?_cases hmove
    · rwa [Trace.renamings, Trace.names_up (x := ⟨ctx.parent?, z.name⟩) (y := z) rfl]
    · have hshort : ¬ Trace.TooLong (z :: passed₁) := fun h =>
        hclear _ List.suffix_rfl (.inr h)
      have hsome : z.declared?.isSome := by
        rw [Spot.declared?, hz, Option.bind_some, hdeclared, Option.isSome_some]
      rw [Trace.TooLong, and_iff_right hsome, Trace.renamings] at hshort
      rw [Trace.renamings, Trace.names_rename hne, List.length_cons]
      omega

/-- A walk from a frame meets no frames but those of its chain. -/
theorem frame_mem (h : Walk ⟨some ctx, name⟩ trace) :
    ∀ x ∈ trace, ∀ f, x.frame? = some f → f ∈ ctx.chain := by
  induction h with
  | start =>
    intro x hx f hf
    obtain rfl := List.mem_singleton.mp hx
    obtain rfl : ctx = f := Option.some.inj hf
    cases ctx <;> exact List.mem_cons_self
  | @move z y passed h₁ hmove ih =>
    intro x hx f hf
    rcases List.mem_cons.mp hx with rfl | hx
    · obtain ⟨g, hz, rfl | ⟨hy, -⟩⟩ := Spot.next?_cases hmove
      · exact Context.parent?_mem_chain (ih z List.mem_cons_self g hz) hf
      · obtain rfl : g = f := Option.some.inj (hy.symm.trans hf)
        exact ih z List.mem_cons_self g hz
    · exact ih x hx f hf

end Walk

/-! ## Resolution -/

/-- A passage records the walk to a spot of a frame: the names passed through
and the first default met, with nothing on the way that bars it. -/
structure Passage.Records (w : Passage) (start x : Spot) (passed : Trace) : Prop where
  walk : Walk start (x :: passed)
  names : w.current :: w.earlier = Trace.names (x :: passed)
  default : w.default = Trace.default? passed
  within : w.earlier.length ≤ aliasLimit
  clear : Trace.Clear passed

/-- How the walk from a spot leaves a frame. -/
inductive FrameEnd.Leaves (start : Spot) (ctx : Context) : FrameEnd → Prop
  | fixed {x : Spot} {passed : Trace} {p : Parameter} {value : ItemId} :
      Walk start (x :: passed) → Trace.Clear (x :: passed) → x.declared? = some p →
      p.fixed = some value → Leaves start ctx (.fixed value)
  | circle {x : Spot} {passed : Trace} : Walk start (x :: passed) → Trace.Clear passed →
      Trace.Barred (x :: passed) →
      Leaves start ctx (.circle (Trace.names (x :: passed)).reverse)
  | above {w : Passage} {passed : Trace} :
      w.Records start ⟨ctx.parent?, w.current⟩ (⟨some ctx, w.current⟩ :: passed) →
      Leaves start ctx (.above w)

theorem Trace.Clear.cons (h : Trace.Clear passed) (hx : ¬ Trace.Barred (x :: passed)) :
    Trace.Clear (x :: passed) := fun trace hsuffix =>
  (List.suffix_cons_iff.mp hsuffix).elim (fun heq => heq ▸ hx) (h trace)

namespace Passage.Records

theorem reverse_names (h : w.Records start x passed) :
    w.names = (Trace.names (x :: passed)).reverse := by
  rw [Passage.names, h.names]

/-- A spot at which nothing is declared does not bar the walk. -/
theorem clear_of_undeclared (h : w.Records start x passed) (hx : x.declared? = none) :
    Trace.Clear (x :: passed) :=
  h.clear.cons (by simp [Trace.Barred, Trace.ComesBack, Trace.TooLong, hx])

theorem default_of_undeclared (h : w.Records start x passed) (hx : x.declared? = none) :
    w.default = Trace.default? (x :: passed) := by
  rw [Trace.default?, hx, h.default, Option.bind_none, Option.or_none]

/-- A declared spot bars the walk if it has been passed before, or if all the
renamings allowed are used up. -/
theorem barred_iff (h : w.Records start x passed) (hx : x.declared? = some p) :
    Trace.Barred (x :: passed) ↔ x ∈ passed ∨ w.earlier.length = aliasLimit := by
  have hrenamings : Trace.renamings (x :: passed) = w.earlier.length := by
    rw [Trace.renamings, ← h.names, List.length_cons, Nat.add_sub_cancel]
  have hwithin := h.within
  simp only [Trace.Barred, Trace.ComesBack, Trace.TooLong, hx, hrenamings, Option.isSome_some,
    true_and]
  rw [Nat.le_antisymm_iff, and_iff_right hwithin]

/-- A declared spot that is new and within the limit does not bar the walk. -/
theorem clear_of_new (h : w.Records start x passed) (hx : x.declared? = some p)
    (hnew : x ∉ passed) (hlength : w.earlier.length < aliasLimit) : Trace.Clear (x :: passed) :=
  h.clear.cons fun hbarred =>
    ((h.barred_iff hx).mp hbarred).elim hnew (Nat.ne_of_lt hlength)

/-- On to the frame above, where the frame declares nothing of the name. -/
theorem up (h : w.Records start ⟨some ctx, w.current⟩ passed)
    (hdeclared : ctx.declared? w.current = none) :
    w.Records start ⟨ctx.parent?, w.current⟩ (⟨some ctx, w.current⟩ :: passed) where
  walk := h.walk.move (Spot.next?_up hdeclared)
  names := h.names.trans (Trace.names_up rfl).symm
  default := h.default_of_undeclared hdeclared
  within := h.within
  clear := h.clear_of_undeclared hdeclared

/-- On to the frame above, where the frame does not rename the name. -/
theorem meet_up (h : w.Records start ⟨some ctx, w.current⟩ passed)
    (hdeclared : ctx.declared? w.current = some p) (hfixed : p.fixed = none)
    (hactual : p.actual = w.current) (hclear : Trace.Clear (⟨some ctx, w.current⟩ :: passed)) :
    (w.meet p).Records start ⟨ctx.parent?, w.current⟩ (⟨some ctx, w.current⟩ :: passed) where
  walk := h.walk.move (Spot.next?_same hdeclared hfixed hactual)
  names := h.names.trans (Trace.names_up rfl).symm
  default := by
    rw [Passage.meet, h.default, Trace.default?]
    simp [Spot.declared?, hdeclared]
  within := h.within
  clear := hclear

/-- On to another name of the same frame. -/
theorem rename (h : w.Records start ⟨some ctx, w.current⟩ passed)
    (hdeclared : ctx.declared? w.current = some p) (hfixed : p.fixed = none)
    (hactual : p.actual ≠ w.current) (hwithin : w.earlier.length < aliasLimit)
    (hclear : Trace.Clear (⟨some ctx, w.current⟩ :: passed)) :
    ((w.meet p).rename p.actual).Records start ⟨some ctx, p.actual⟩
      (⟨some ctx, w.current⟩ :: passed) where
  walk := h.walk.move (Spot.next?_rename hdeclared hfixed hactual)
  names := by
    rw [Trace.names_rename hactual, ← h.names]
    rfl
  default := by
    rw [Passage.rename, Passage.meet, h.default, Trace.default?]
    simp [Spot.declared?, hdeclared]
  within := hwithin
  clear := hclear

end Passage.Records

/-- Following the names of one frame goes on with the walk and leaves the frame
as the walk does. -/
theorem followFrame_leaves (hps : ctx.parameters = .ok ps) (left : Nat) (seen : List String)
    (w : Passage) : ∀ passed, w.Records start ⟨some ctx, w.current⟩ passed →
      left + w.earlier.length = aliasLimit → (∀ n, ⟨some ctx, n⟩ ∈ passed ↔ n ∈ seen) →
      (followFrame ps left seen w).Leaves start ctx := by
  fun_induction followFrame ps left seen w with
  | case1 left seen w hget =>
    intro passed h _ _
    exact .above (h.up ((Context.declared?_eq hps).trans hget))
  | case2 seen w p hget =>
    intro passed h hleft _
    have hbarred := (h.barred_iff ((Context.declared?_eq hps).trans hget)).mpr (.inr (by omega))
    exact h.reverse_names ▸ .circle h.walk h.clear hbarred
  | case3 seen w p hget left hmem =>
    intro passed h _ hseen
    have hbarred := (h.barred_iff ((Context.declared?_eq hps).trans hget)).mpr
      (.inl ((hseen w.current).mpr hmem))
    exact h.reverse_names ▸ .circle h.walk h.clear hbarred
  | case4 seen w p hget left hmem value hfixed =>
    intro passed h hleft hseen
    have hdeclared := (Context.declared?_eq hps).trans hget
    exact .fixed h.walk (h.clear_of_new hdeclared (hmem ∘ (hseen _).mp) (by omega)) hdeclared
      hfixed
  | case5 seen w p hget left hmem hfixed hactual =>
    intro passed h hleft hseen
    have hdeclared := (Context.declared?_eq hps).trans hget
    have hclear := h.clear_of_new hdeclared (hmem ∘ (hseen _).mp) (by omega)
    exact .above (h.meet_up hdeclared hfixed hactual hclear)
  | case6 seen w p hget left hmem hfixed hactual ih =>
    intro passed h hleft hseen
    have hdeclared := (Context.declared?_eq hps).trans hget
    have hclear := h.clear_of_new hdeclared (hmem ∘ (hseen _).mp) (by omega)
    refine ih _ (h.rename hdeclared hfixed hactual (by omega) hclear) ?_ fun n => ?_
    · simp only [Passage.rename, Passage.meet, List.length_cons]
      omega
    · rw [List.mem_cons, List.mem_cons, ← hseen n]
      simp

/-- Following the names of a frame that the walk has just entered. -/
theorem Passage.Records.leaves (h : w.Records start ⟨some ctx, w.current⟩ passed)
    (hps : ctx.parameters = .ok ps) (hbelow : ∀ x ∈ passed, ctx.depth + 1 < x.height) :
    (followFrame ps w.left [] w).Leaves start ctx := by
  refine followFrame_leaves hps _ _ w passed h (Nat.sub_add_cancel h.within) fun n => ?_
  simp only [List.not_mem_nil, iff_false]
  exact fun hn => Nat.lt_irrefl _ (hbelow _ hn)

/-- A walk that has left a frame concludes, if it does so wherever it goes on above. -/
theorem FrameEnd.Leaves.concludes {e : FrameEnd} {parameter : String} {type : ValueType}
    {above : Passage → Except Failure Resolution} (h : e.Leaves start ctx)
    (habove : ∀ w passed,
      w.Records start ⟨ctx.parent?, w.current⟩ (⟨some ctx, w.current⟩ :: passed) →
      ∃ trace, Concludes start parameter type trace (above w)) :
    ∃ trace, Concludes start parameter type trace
      (match e with
      | .fixed value => .ok (.fixed value type)
      | .circle names => .error (.aliasCycle parameter names)
      | .above w => above w) := by
  cases h with
  | fixed hwalk hclear hdeclared hfixed => exact ⟨_, .fixed hwalk hclear hdeclared hfixed⟩
  | circle hwalk hclear hbarred => exact ⟨_, .barred hwalk hclear hbarred⟩
  | above hrecords => exact habove _ _ hrecords

/-- Following a walk from a frame up to the root concludes as the walk does. -/
theorem Context.follow_concludes {g : Graph} {parameter : String} {type : ValueType}
    (hg : ctx.graph.graph = g) (hframes : ∀ f ∈ ctx.chain, ∃ ps, f.parameters = .ok ps) :
    ∀ (w : Passage) (passed : Trace), w.Records start ⟨some ctx, w.current⟩ passed →
      (∀ x ∈ passed, ctx.depth + 1 < x.height) →
      ∃ trace, Concludes start parameter type trace (ctx.follow g parameter type w) := by
  induction ctx with
  | root id graph s =>
    intro w passed h hbelow
    have hps : (root id graph s).parameters = .ok g.parameters := hg ▸ rfl
    rw [follow]
    refine (h.leaves hps hbelow).concludes fun w' passed' h' => ?_
    rw [h'.default_of_undeclared rfl]
    exact ⟨_, .past h'.walk (h'.clear_of_undeclared rfl)⟩
  | frame id op s trail parent ih =>
    intro w passed h hbelow
    obtain ⟨ps, hps⟩ := hframes _ List.mem_cons_self
    have hget : (g.get op).map Operator.parameters = .ok ps := hg ▸ hps
    rw [follow]
    cases hop : g.get op with
    | error e =>
      rw [hop] at hget
      cases hget
    | ok operator =>
      obtain rfl : operator.parameters = ps := by
        rw [hop] at hget
        exact Except.ok.inj hget
      refine (h.leaves hps hbelow).concludes fun w' passed' h' => ?_
      have hparent := fun f hf => hframes f (List.mem_cons_of_mem _ hf)
      exact ih hg hparent w' _ h' h'.walk.below_of_up

/-- The end of the walk that a resolution has followed. -/
theorem Context.resolve_concludes {parameter : String}
    (hframes : ∀ f ∈ ctx.chain, ∃ ps, f.parameters = .ok ps)
    (hp : ctx.declared? parameter = some p) :
    ∃ trace, Concludes ⟨some ctx, parameter⟩ parameter p.type trace (ctx.resolve parameter) := by
  obtain ⟨ps, hps⟩ := hframes ctx (by cases ctx <;> exact List.mem_cons_self)
  rw [declared?_eq hps] at hp
  have hstart : (Passage.start parameter).Records ⟨some ctx, parameter⟩ ⟨some ctx, parameter⟩ [] :=
    { walk := .start
      names := rfl
      default := rfl
      within := Nat.zero_le _
      clear := fun trace hsuffix => by
        rw [List.suffix_nil.mp hsuffix]
        simp [Trace.Barred, Trace.ComesBack, Trace.TooLong] }
  rw [resolve, hps]
  simp only [hp]
  exact follow_concludes rfl hframes _ [] hstart fun x hx => nomatch hx

namespace Concludes

variable {parameter : String} {type : ValueType}

/-- The trace of a conclusion is one of the walk, and nothing bars it before its
last spot. -/
theorem exists_walk {r : Except Failure Resolution} (h : Concludes start parameter type trace r) :
    ∃ x passed, trace = x :: passed ∧ Walk start (x :: passed) ∧ Trace.Clear passed := by
  cases h with
  | barred hwalk hclear _ => exact ⟨_, _, rfl, hwalk, hclear⟩
  | fixed hwalk hclear _ _ => exact ⟨_, _, rfl, hwalk, hclear.tail⟩
  | past hwalk hclear => exact ⟨_, _, rfl, hwalk, hclear.tail⟩

/-- A walk that gets to its end is barred nowhere. -/
theorem not_barred {r : Resolution} (h : Concludes start parameter type trace (.ok r))
    (h' : Walk start trace') : ¬ trace'.Barred := by
  cases h with
  | @fixed x _ p _ hwalk hclear hdeclared hfixed =>
    have hend : x.next? = none := by
      obtain ⟨frame?, name⟩ := x
      cases frame? with
      | none => rfl
      | some ctx =>
        have hp : ctx.declared? name = some p := hdeclared
        simp [Spot.next?, hp, hfixed]
    exact hclear _ (hwalk.suffix_of_end hend h')
  | past hwalk hclear => exact hclear _ (hwalk.suffix_of_end rfl h')

/-- A walk is given up if and only if some spot bars it. -/
theorem barred_iff {r : Except Failure Resolution} (h : Concludes start parameter type trace r) :
    (∃ names, r = .error (.aliasCycle parameter names)) ↔
      ∃ trace, Walk start trace ∧ trace.Barred := by
  constructor
  · rintro ⟨names, rfl⟩
    cases h with
    | barred hwalk _ hbarred => exact ⟨_, hwalk, hbarred⟩
  · rintro ⟨trace', hwalk, hbarred⟩
    cases r with
    | ok r => exact absurd hbarred (h.not_barred hwalk)
    | error e =>
      cases h with
      | barred _ _ _ => exact ⟨_, rfl⟩

/-- A walk from a frame that is given up within the limit has gone round in a
circle, in a single frame. -/
theorem exists_circle {names : List String} (h : Concludes ⟨some ctx, name⟩ parameter type trace
    (.error (.aliasCycle parameter names))) (hlength : names.length ≤ aliasLimit) :
    ∃ f ∈ ctx.chain, ∃ n, Relation.TransGen f.Renames n n := by
  cases h with
  | @barred x passed hwalk _ hbarred =>
    rcases hbarred with hback | hlong
    · obtain ⟨f, hf, hcircle⟩ := hwalk.circle_of_mem hback.2
      exact ⟨f, hwalk.frame_mem x List.mem_cons_self f hf, x.name, hcircle⟩
    · have hrenamings : aliasLimit ≤ (Trace.names (x :: passed)).length - 1 := hlong.2
      have hnames := List.length_pos_of_ne_nil hwalk.names_ne_nil
      rw [List.length_reverse] at hlength
      omega

end Concludes

/-- **Resolution is the walk.** Resolving a declared parameter concludes as the
walk from its frame and name does, which it does after no more moves than there
are frames and renamings allowed. It is given up if and only if the walk comes
back to a declared spot or meets one after too many renamings; where it is
given up within the limit, the names of a single frame lead to one another in
a circle. -/
theorem Context.resolve_walks {parameter : String}
    (hframes : ∀ f ∈ ctx.chain, ∃ ps, f.parameters = .ok ps)
    (hp : ctx.declared? parameter = some p) :
    (∃ trace, Concludes ⟨some ctx, parameter⟩ parameter p.type trace (ctx.resolve parameter) ∧
      trace.length ≤ ctx.depth + aliasLimit + 2) ∧
    ((∃ names, ctx.resolve parameter = .error (.aliasCycle parameter names)) ↔
      ∃ trace, Walk ⟨some ctx, parameter⟩ trace ∧ trace.Barred) ∧
    (∀ names, ctx.resolve parameter = .error (.aliasCycle parameter names) →
      names.length ≤ aliasLimit →
      ∃ f ∈ ctx.chain, ∃ name, Relation.TransGen f.Renames name name) := by
  obtain ⟨trace, h⟩ := resolve_concludes hframes hp
  refine ⟨⟨trace, h, ?_⟩, h.barred_iff, fun names hnames => (hnames ▸ h).exists_circle⟩
  obtain ⟨x, passed, rfl, hwalk, hclear⟩ := h.exists_walk
  have hlength := hwalk.length_add_height
  have hrenamings := hwalk.renamings_le hclear
  rw [Spot.height_of_frame? (x := ⟨some ctx, parameter⟩) rfl] at hlength
  omega

namespace Sample

/-- An operator under the name `Cell`, in a graph that looks `Cell` up as
`Quality`; its `Left` and `Right` stand for each other. -/
def whirlGraph : SharedGraph :=
  ⟨⟨0⟩, ⟨"Whirl", ⟨[{ Parameter.lookup "Cell" .int with actual := "Quality" }]⟩,
    #[⟨"Pair", ⟨[{ Parameter.lookup "Left" .any with actual := "Right" },
      { Parameter.lookup "Right" .any with actual := "Left" },
      { Parameter.lookup "Value" .int with actual := "Cell" }]⟩, none, .empty⟩], some ⟨0⟩⟩⟩

/-- The operator bound under the graph frame. -/
def whirlContext : Context := .frame ⟨1⟩ ⟨0⟩ ⟨0⟩ [⟨0⟩] (.root ⟨0⟩ whirlGraph ⟨0⟩)

theorem whirlContext_frames : ∀ f ∈ whirlContext.chain, ∃ ps, f.parameters = .ok ps := by
  simp [whirlContext, Context.chain, Context.parameters, Context.operatorId?, Context.graph,
    whirlGraph, Graph.get, Graph.get?, Except.map]

/-- `Left` leads to `Right` and back, and is given up with the three names. -/
theorem resolve_walks_whirl :
    whirlContext.resolve "Left" = .error (.aliasCycle "Left" ["Left", "Right", "Left"]) ∧
      ∃ f ∈ whirlContext.chain, ∃ name, Relation.TransGen f.Renames name name := by
  have hresolve : whirlContext.resolve "Left" =
      .error (.aliasCycle "Left" ["Left", "Right", "Left"]) := by rfl
  exact ⟨hresolve, (Context.resolve_walks whirlContext_frames
    (p := { Parameter.lookup "Left" .any with actual := "Right" }) (by rfl)).2.2 _ hresolve
    (by decide)⟩

-- In the operator's frame `Value` goes on to `Cell`, in the graph's `Cell` to `Quality`.
example : whirlContext.resolve "Value" = .ok (.variable "Quality" none .int) := by rfl

end Sample

end ScopeFlow
