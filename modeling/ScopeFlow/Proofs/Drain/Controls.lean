import ScopeFlow.Proofs.Control.Detached
import ScopeFlow.Proofs.Operator.Requests

/-!
# Drains under another control

Which control an engine has, and which token the control has, is nothing that
a run can tell: two worlds with one heap, and the same requests made to one
control in the first and to another in the second, are left so by the same
drain, which comes to the same in both.

* `Seat` is a control with its token, and `World.Matches` compares two worlds
  from one seat each, with some tokens of the one world paired with tokens of
  the other;
* `Act.Matches` says that two acts do the same in such worlds;
* `DrainSetting.drain_matches` says it of drains.
-/

namespace ScopeFlow

/-- A control with its token. -/
structure Seat where
  control : ControlId
  token : TokenId

/-- The control and the token have been made. -/
structure Seat.In (a : Seat) (w : World) : Prop where
  control : a.control.index < w.controls.size
  has : w.token a.control = a.token

/-- The setting in which operators run. -/
def Seat.setting (a : Seat) : Setting := ⟨a.token, some a.control⟩

/-- Tokens of one world paired with tokens of another, one with one. -/
abbrev TokenPairs := TokenId → TokenId → Prop

/-- Two worlds that hold the same, with the same requests made to a control of
each, and the same tokens cancelled among those that are paired. -/
structure World.Matches (θ : TokenPairs) (a b : Seat) (w w' : World) : Prop where
  heap : w'.heap = w.heap
  left : a.In w
  right : b.In w'
  requests : w'.control b.control = { w.control a.control with token := b.token }
  own : θ a.token b.token
  made : ∀ {t t'}, θ t t' → t.index < w.tokens.size ∧ t'.index < w'.tokens.size
  cancelled : ∀ {t t'}, θ t t' → w'.isCancelled t' = w.isCancelled t
  single : ∀ {t t' u u'}, θ t t' → θ u u' → (t = u ↔ t' = u')

variable {θ : TokenPairs} {a b : Seat} {w w' : World} {t t' : TokenId}

/-! ## Tokens and requests -/

theorem World.isCancelled_setToken (w : World) (t u : TokenId) (cancelled : Bool) :
    (w.setToken t cancelled).isCancelled u =
      if t = u ∧ t.index < w.tokens.size then cancelled else w.isCancelled u := by
  obtain ⟨t⟩ := t
  obtain ⟨u⟩ := u
  simp only [World.setToken, World.isCancelled, Array.getElem?_setIfInBounds, TokenId.mk.injEq]
  by_cases htu : t = u
  · subst htu
    by_cases hlt : t < w.tokens.size <;> simp [hlt]
  · simp [htu]

theorem Seat.In.updateControl (h : a.In w) (c : ControlId) (f : Control → Control)
    (hf : ∀ k, (f k).token = k.token) : a.In (w.updateControl c f) where
  control := by simpa [World.updateControl] using h.control
  has := World.control_keeps (fun k => k.token = a.token) (fun k hk => (hf k).trans hk) h.has

namespace World.Matches

theorem halt? (h : w.Matches θ a b w') : w'.halt? b.control = w.halt? a.control := by
  have hleft := h.left.has
  unfold World.token at hleft
  unfold World.halt?
  dsimp only
  rw [h.requests, hleft, h.cancelled h.own]

/-- The heap may be changed on both sides. -/
theorem withHeap (h : w.Matches θ a b w') (heap : Heap) :
    World.Matches θ a b { w with heap } { w' with heap } :=
  { h with heap := rfl, left := ⟨h.left.control, h.left.has⟩
           right := ⟨h.right.control, h.right.has⟩ }

/-- So may what has been asked of the controls. -/
theorem updateControl (h : w.Matches θ a b w') (f : Control → Control)
    (hf : ∀ k t, f { k with token := t } = { f k with token := t }) :
    (w.updateControl a.control f).Matches θ a b (w'.updateControl b.control f) := by
  have htoken : ∀ k, (f k).token = k.token := fun k => by
    rw [show f k = { f k with token := k.token } from hf k k.token]
  exact { h with
    left := h.left.updateControl _ f htoken
    right := h.right.updateControl _ f htoken
    requests := by
      rw [control_updateControl f h.right.control, control_updateControl f h.left.control,
        h.requests, hf] }

/-- So may tokens that are paired. -/
theorem setToken (h : w.Matches θ a b w') (ht : θ t t') (cancelled : Bool) :
    (w.setToken t cancelled).Matches θ a b (w'.setToken t' cancelled) :=
  { h with
    left := ⟨h.left.control, h.left.has⟩
    right := ⟨h.right.control, h.right.has⟩
    made := fun hu => by simpa [World.setToken] using h.made hu
    cancelled := by
      intro u u' hu
      simp only [isCancelled_setToken, h.cancelled hu, h.single ht hu, h.made ht, and_true] }

/-- A request does the same on both sides. -/
theorem request (h : w.Matches θ a b w') (r : Request) :
    (w.request a.setting r).Matches θ a b (w'.request b.setting r) := by
  cases r with
  | pause => exact h.updateControl _ fun _ _ => rfl
  | stop => exact h.updateControl _ fun _ _ => rfl
  | abort =>
    show ((w.updateControl _ _).setToken (w.token a.control) true).Matches θ a b
      ((w'.updateControl _ _).setToken (w'.token b.control) true)
    rw [h.left.has, h.right.has]
    exact (h.updateControl (fun k => { k with abort := true }) fun _ _ => rfl).setToken h.own true
  | cancel => exact h.setToken h.own true

end World.Matches

/-! ## Operators -/

/-- Two acts do the same in worlds that match, and leave worlds that do. -/
def Act.Matches {α : Type} (θ : TokenPairs) (a b : Seat) (x y : Act World α) : Prop :=
  ∀ w w', w.Matches θ a b w' → (y w').1 = (x w).1 ∧ (x w).2.Matches θ a b (y w').2

namespace Act.Matches

variable {α β : Type} {x y : Act World α}

theorem ofExcept (r : Except Failure α) : Matches θ a b (Act.ofExcept r) (Act.ofExcept r) :=
  fun _ _ h => ⟨rfl, h⟩

theorem bind {f g : α → Act World β} (hxy : Matches θ a b x y)
    (hfg : ∀ v, Matches θ a b (f v) (g v)) : Matches θ a b (x >>= f) (y >>= g) := by
  intro w w' h
  obtain ⟨hanswer, hafter⟩ := hxy w w' h
  rw [bind_apply, bind_apply]
  rcases hx : x w with ⟨r, v⟩
  rcases hy : y w' with ⟨r', v'⟩
  rw [hx, hy] at hanswer hafter
  obtain rfl : r' = r := hanswer
  cases r' with
  | error e => exact ⟨rfl, hafter⟩
  | ok v => exact hfg v _ _ hafter

theorem see {f g : World → α} (h : ∀ w w', w.Matches θ a b w' → g w' = f w) :
    Matches θ a b (Act.see f) (Act.see g) :=
  fun w w' hw => ⟨congrArg Except.ok (h w w' hw), hw⟩

theorem onHeap (x : Act Heap α) : Matches θ a b (World.onHeap x) (World.onHeap x) := by
  intro w w' h
  rw [World.onHeap_apply, World.onHeap_apply, h.heap]
  exact ⟨rfl, h.withHeap _⟩

end Act.Matches

open Act.Matches in
/-- A program does the same in both. -/
theorem Leaf.run_matches (name : String) (ctx : Context) (program : Leaf) :
    Act.Matches θ a b (program.run name a.setting ctx) (program.run name b.setting ctx) := by
  induction program with
  | done => exact fun _ _ h => ⟨rfl, h⟩
  | fail message => exact fun _ _ h => ⟨rfl, h⟩
  | cancelled => exact fun _ _ h => ⟨rfl, h⟩
  | value p next ih => exact (onHeap _).bind ih
  | optional p next ih =>
    refine (onHeap _).bind fun i => bind (see fun w w' h => ?_) ih
    rw [h.heap]
  | bool p next ih => exact (onHeap _).bind ih
  | int p next ih => exact (onHeap _).bind ih
  | double p next ih => exact (onHeap _).bind ih
  | operator p next ih => exact (onHeap _).bind ih
  | set p v next ih => exact (onHeap _).bind fun _ => ih
  | remove p next ih => exact (onHeap _).bind fun _ => ih
  | random p calls next ih => exact (onHeap _).bind ih
  | request r next ih => exact fun w w' h => ih _ _ (h.request r)
  | isCancelled next ih => exact bind (see fun w w' h => h.cancelled h.own) ih

/-- So does an operator. -/
theorem Operator.execute_matches (op : Operator) (ctx : Context) :
    Act.Matches θ a b (op.execute a.setting ctx) (op.execute b.setting ctx) := by
  have hleaf : Act.Matches θ a b (op.runLeaf a.setting ctx) (op.runLeaf b.setting ctx) := by
    unfold runLeaf
    cases op.kind with
    | leaf program => exact program.run_matches op.name ctx
    | _ => exact fun _ _ h => ⟨rfl, h⟩
  exact hleaf.bind fun _ => .bind (.see fun w w' h => h.cancelled h.own) fun _ => .onHeap _

/-! ## Drains -/

/-- Drains that have come equally far. -/
structure Progress.Matches (θ : TokenPairs) (a b : Seat) (p p' : Progress) : Prop where
  world : p.world.Matches θ a b p'.world
  executed : p'.executed = p.executed
  fault : p'.fault = p.fault

/-- Drains that have come to the same. -/
structure Drained.Matches (θ : TokenPairs) (a b : Seat) (d d' : Drained) : Prop where
  outcome : d'.outcome = d.outcome
  stack : d'.stack = d.stack
  progress : d.progress.Matches θ a b d'.progress

/-- Branches do the same in both if each of them does. -/
theorem drainBranches_matches {run run' : Operation → Progress → Option Drained}
    (hrun : ∀ op p p', p.Matches θ a b p' →
      Option.Rel (Drained.Matches θ a b) (run op p) (run' op p')) (ops : List Operation) :
    ∀ {p p'}, p.Matches θ a b p' →
      Option.Rel (fun x y => y.1 = x.1 ∧ x.2.Matches θ a b y.2) (drainBranches run ops p)
        (drainBranches run' ops p') := by
  induction ops with
  | nil => exact fun h => .some ⟨rfl, h⟩
  | cons op ops ih =>
    intro p p' h
    have hone := hrun op p p' h
    rw [drainBranches, drainBranches]
    generalize run op p = x at hone ⊢
    generalize run' op p' = y at hone ⊢
    cases hone with
    | none => exact .none
    | @some d d' hd =>
      have hrest := ih hd.progress
      dsimp only
      generalize drainBranches run ops d.progress = x at hrest ⊢
      generalize drainBranches run' ops d'.progress = y at hrest ⊢
      cases hrest with
      | none => exact .none
      | some hxy =>
        obtain ⟨hends, hq⟩ := hxy
        refine .some ⟨?_, hq⟩
        dsimp only
        rw [hends, hd.outcome, hd.stack]

namespace DrainSetting

variable {r r' : DrainSetting}

theorem execute_matches (hconfig : r.config = r'.config) (hr : r.control = a.control)
    (hr' : r'.control = b.control) (ctx : Context) (pending : Nat) :
    Act.Matches θ a b (r.execute ctx pending) (r'.execute ctx pending) := by
  intro w w' h
  by_cases hstack : pending + 1 > r.config.maxStackDepth
  · rw [execute_stack hstack, execute_stack (hconfig ▸ hstack), hconfig]
    exact ⟨rfl, h⟩
  · by_cases hdepth : ctx.depth > r.config.maxContextDepth
    · rw [execute_depth hstack hdepth, execute_depth (hconfig ▸ hstack) (hconfig ▸ hdepth), hconfig]
      exact ⟨rfl, h⟩
    · rw [execute_within hstack hdepth, execute_within (hconfig ▸ hstack) (hconfig ▸ hdepth), hr,
        hr', h.left.has, h.right.has]
      exact (Act.Matches.ofExcept ctx.operator).bind (fun op => op.execute_matches ctx) w w' h

theorem move_matches (hconfig : r.config = r'.config) (hr : r.control = a.control)
    (hr' : r'.control = b.control) {p p' : Progress} (h : p.Matches θ a b p')
    (budget : Option Nat) (op : Operation) : r'.move budget op p' = r.move budget op p := by
  have hdue : r'.halts? p' = r.halts? p :=
    halts?_congr (by rw [hr, hr', h.world.halt?]) h.fault
  unfold move separates
  rw [hdue, hconfig]

/-- A drain does the same in both, with the same fuel. -/
theorem drain_matches (hconfig : r.config = r'.config) (hr : r.control = a.control)
    (hr' : r'.control = b.control) (fuel : Nat) :
    ∀ budget stack {p p'}, p.Matches θ a b p' →
      Option.Rel (Drained.Matches θ a b) (r.drain fuel budget stack p)
        (r'.drain fuel budget stack p') := by
  induction fuel with
  | zero =>
    intro budget stack p p' _
    rw [drain_zero, drain_zero]
    exact .none
  | succ fuel ih =>
    intro budget stack p p' h
    cases stack with
    | nil =>
      rw [drain_nil, drain_nil]
      exact .some ⟨rfl, rfl, h⟩
    | cons op rest =>
      -- The same move is made in both: only requests to the two engines count for it.
      rw [drain_cons, drain_cons, move_matches hconfig hr hr' h]
      cases r.move budget op p with
      | halt why => exact .some ⟨rfl, rfl, h⟩
      | unpack ops => exact ih _ _ h
      | split ops =>
        have hbranches : Option.Rel (fun x y => y.1 = x.1 ∧ Progress.Matches θ a b x.2 y.2)
            (drainBranches (fun op p => r.drain fuel none [op] p) ops p)
            (drainBranches (fun op p => r'.drain fuel none [op] p) ops p') :=
          drainBranches_matches (fun op _ _ h => ih none [op] h) ops h
        dsimp only
        generalize drainBranches (fun op p => r.drain fuel none [op] p) ops p = x at hbranches ⊢
        generalize drainBranches (fun op p => r'.drain fuel none [op] p) ops p' = y
          at hbranches ⊢
        cases hbranches with
        | none => exact .none
        | @some x y hxy =>
          obtain ⟨ends, q⟩ := x
          obtain ⟨ends', q'⟩ := y
          obtain ⟨rfl, hq⟩ := hxy
          dsimp only
          rcases (joinBranches ends').outcome with (_ | why) | e
          · exact ih _ _ hq
          · exact .some ⟨rfl, rfl, hq⟩
          · exact .some ⟨rfl, rfl, hq⟩
      | perform ctx =>
        obtain ⟨hanswer, hw⟩ := execute_matches hconfig hr hr' ctx rest.length _ _ h.world
        dsimp only
        generalize r.execute ctx rest.length p.world = x at hw hanswer ⊢
        generalize r'.execute ctx rest.length p'.world = y at hw hanswer ⊢
        obtain ⟨x, w⟩ := x
        obtain ⟨y, w'⟩ := y
        obtain rfl : y = x := hanswer
        cases y with
        | error e =>
          refine .some ⟨rfl, rfl, hw, h.executed, ?_⟩
          show (p'.fault || _) = (p.fault || _)
          rw [h.fault]
        | ok next =>
          have hadvance : (p.advance w).Matches θ a b (p'.advance w') :=
            ⟨hw, congrArg (· + 1) h.executed, h.fault⟩
          dsimp only
          cases spend budget with
          | none => exact .some ⟨rfl, rfl, hadvance⟩
          | some budget => exact ih _ _ hadvance

end DrainSetting

end ScopeFlow
