import ScopeFlow.Control.Basic

/-!
# What acts answer

`Act.Meets` says of an act, from whatever state it starts, what it may answer
and what it may fail with. It is put together along the act, one rule for each
way of making acts, so that it can be read off a definition. `Act.Upholds`
says so from one state, where an invariant of the state is upheld.
-/

namespace ScopeFlow

namespace Act

variable {σ α β : Type} {x : Act σ α} {f : α → Act σ β} {P : α → Prop} {Q : β → Prop}
  {E E' : Failure → Prop}

/-- What an act answers satisfies `P`, and what it fails with `E`. -/
def Meets (x : Act σ α) (P : α → Prop) (E : Failure → Prop) : Prop :=
  ∀ s, (∀ a, (x s).1 = .ok a → P a) ∧ ∀ e, (x s).1 = .error e → E e

namespace Meets

theorem pure {a : α} (h : P a) : (Pure.pure a : Act σ α).Meets P E := by
  intro s
  refine ⟨fun b hb => ?_, nofun⟩
  cases hb
  exact h

theorem fail {e : Failure} (h : E e) : (Act.fail e : Act σ α).Meets P E := by
  intro s
  refine ⟨nofun, fun e' he => ?_⟩
  cases he
  exact h

theorem bind (hx : x.Meets P E) (hf : ∀ a, P a → (f a).Meets Q E) :
    (x >>= f).Meets Q E := by
  intro s
  rw [bind_apply]
  rcases hs : x s with ⟨e | a, s'⟩
  · exact ⟨nofun, fun e' he => by cases he; exact (hx s).2 e (by rw [hs])⟩
  · exact hf a ((hx s).1 a (by rw [hs])) s'

theorem mono (h : x.Meets P E) {P' : α → Prop} (hP : ∀ a, P a → P' a) (hE : ∀ e, E e → E' e) :
    x.Meets P' E' :=
  fun s => ⟨fun a ha => hP a ((h s).1 a ha), fun e he => hE e ((h s).2 e he)⟩

theorem see {g : σ → α} (h : ∀ s, P (g s)) : (Act.see g).Meets P E := by
  intro s
  refine ⟨fun a ha => ?_, nofun⟩
  cases ha
  exact h s

theorem look {g : σ → Except Failure α} (hP : ∀ s a, g s = .ok a → P a)
    (hE : ∀ s e, g s = .error e → E e) : (Act.look g).Meets P E :=
  fun s => ⟨hP s, hE s⟩

theorem ofExcept {y : Except Failure α} (hP : ∀ a, y = .ok a → P a)
    (hE : ∀ e, y = .error e → E e) : (Act.ofExcept y : Act σ α).Meets P E :=
  fun _ => ⟨hP, hE⟩

theorem change {g : σ → α × σ} (h : ∀ s, P (g s).1) : (Act.change g).Meets P E := by
  intro s
  refine ⟨fun a ha => ?_, nofun⟩
  cases ha
  exact h s

theorem modify {g : σ → σ} {P : Unit → Prop} (h : P ()) : (Act.modify g).Meets P E := by
  intro s
  exact ⟨fun _ _ => h, nofun⟩

theorem commit {g : σ → Except Failure σ} {P : Unit → Prop} (h : P ())
    (hE : ∀ s e, g s = .error e → E e) : (Act.commit g).Meets P E := by
  intro s
  rw [Act.commit]
  cases hs : g s with
  | ok s' => exact ⟨fun _ _ => h, nofun⟩
  | error e => exact ⟨nofun, fun e' he => by cases he; exact hE s e hs⟩

theorem attempt {P : Except Failure α → Prop} (hP : ∀ s, P (x s).1) :
    x.attempt.Meets P E := by
  intro s
  refine ⟨fun a ha => ?_, nofun⟩
  cases ha
  exact hP s

theorem onHeap {x : Act Heap α} (h : x.Meets P E) : (World.onHeap x).Meets P E := by
  intro w
  rw [World.onHeap_apply]
  exact h w.heap

end Meets

/-- An act that may fail, but not as cancelled. -/
def Uncancelled (x : Act σ α) : Prop :=
  x.Meets (fun _ => True) fun e => e.isCancellation = false

namespace Uncancelled

theorem pure (a : α) : (Pure.pure a : Act σ α).Uncancelled := Meets.pure trivial

theorem fail {e : Failure} (h : e.isCancellation = false) :
    (Act.fail e : Act σ α).Uncancelled := Meets.fail h

theorem bind (hx : x.Uncancelled) (hf : ∀ a, (f a).Uncancelled) : (x >>= f).Uncancelled :=
  Meets.bind hx fun a _ => hf a

theorem see (g : σ → α) : (Act.see g).Uncancelled := Meets.see fun _ => trivial

theorem change (g : σ → α × σ) : (Act.change g).Uncancelled := Meets.change fun _ => trivial

theorem modify (g : σ → σ) : (Act.modify g).Uncancelled := Meets.modify trivial

theorem ofExcept {y : Except Failure α} (h : ∀ e, y = .error e → e.isCancellation = false) :
    (Act.ofExcept y : Act σ α).Uncancelled := Meets.ofExcept (fun _ _ => trivial) h

theorem look {g : σ → Except Failure α} (h : ∀ s e, g s = .error e → e.isCancellation = false) :
    (Act.look g).Uncancelled := Meets.look (fun _ _ _ => trivial) h

end Uncancelled

/-- From the state `s` an act leads to one in which `I` still holds; it answers
so that `P` holds there, and fails only as `E` allows. -/
structure Upholds (I : σ → Prop) (E : Failure → Prop) (P : α → σ → Prop) (x : Act σ α) (s : σ) :
    Prop where
  state : I (x s).2
  answer : ∀ a, (x s).1 = .ok a → P a (x s).2
  failure : ∀ e, (x s).1 = .error e → E e

namespace Upholds

variable {I : σ → Prop} {P P' : α → σ → Prop} {Q : β → σ → Prop} {s : σ}

theorem pure {a : α} (hs : I s) (h : P a s) : (Pure.pure a : Act σ α).Upholds I E P s := by
  refine ⟨hs, fun b hb => ?_, nofun⟩
  cases hb
  exact h

theorem fail {e : Failure} (hs : I s) (h : E e) : (Act.fail e : Act σ α).Upholds I E P s := by
  refine ⟨hs, nofun, fun e' he => ?_⟩
  cases he
  exact h

theorem bind (hx : x.Upholds I E P s) (hf : ∀ a s', I s' → P a s' → (f a).Upholds I E Q s') :
    (x >>= f).Upholds I E Q s := by
  obtain ⟨hstate, hanswer, hfailure⟩ := hx
  rcases hs : x s with ⟨e | a, s'⟩
  · rw [hs] at hstate hfailure
    have hrun : (x >>= f) s = (.error e, s') := by rw [bind_apply, hs]
    refine ⟨hrun ▸ hstate, fun b hb => ?_, fun e' he => ?_⟩
    · rw [hrun] at hb
      cases hb
    · rw [hrun] at he
      cases he
      exact hfailure e rfl
  · rw [hs] at hstate hanswer
    have hrun : (x >>= f) s = f a s' := by rw [bind_apply, hs]
    obtain ⟨hstate', hanswer', hfailure'⟩ := hf a s' hstate (hanswer a rfl)
    exact ⟨hrun ▸ hstate', fun b hb => hrun ▸ hanswer' b (hrun ▸ hb),
      fun e he => hfailure' e (hrun ▸ he)⟩

theorem mono (h : x.Upholds I E P s) (hP : ∀ a s', P a s' → P' a s') : x.Upholds I E P' s :=
  ⟨h.state, fun a ha => hP a _ (h.answer a ha), h.failure⟩

theorem see {g : σ → α} (hs : I s) (h : P (g s) s) : (Act.see g).Upholds I E P s := by
  refine ⟨hs, fun a ha => ?_, nofun⟩
  cases ha
  exact h

/-- What is read off the state, or fails because of it. -/
theorem look {g : σ → Except Failure α} (hs : I s) (hP : ∀ a, g s = .ok a → P a s)
    (hE : ∀ e, g s = .error e → E e) : (Act.look g).Upholds I E P s :=
  ⟨hs, hP, hE⟩

theorem ofExcept {y : Except Failure α} (hs : I s) (hP : ∀ a, y = .ok a → P a s)
    (hE : ∀ e, y = .error e → E e) : (Act.ofExcept y : Act σ α).Upholds I E P s :=
  ⟨hs, hP, hE⟩

theorem change {g : σ → α × σ} (hs : I (g s).2) (h : P (g s).1 (g s).2) :
    (Act.change g).Upholds I E P s := by
  refine ⟨hs, fun a ha => ?_, nofun⟩
  cases ha
  exact h

theorem modify {g : σ → σ} {P : Unit → σ → Prop} (hs : I (g s)) (h : P () (g s)) :
    (Act.modify g).Upholds I E P s :=
  ⟨hs, fun _ _ => h, nofun⟩

/-- A change that may be refused, and is then not made. -/
theorem commit {g : σ → Except Failure σ} {P : Unit → σ → Prop} (hs : I s)
    (hg : ∀ s', g s = .ok s' → I s' ∧ P () s') (hE : ∀ e, g s = .error e → E e) :
    (Act.commit g).Upholds I E P s := by
  cases hr : g s with
  | ok s' =>
      have hrun : Act.commit g s = (.ok (), s') := by rw [Act.commit, hr]
      obtain ⟨hs', hP⟩ := hg s' hr
      exact ⟨hrun ▸ hs', fun _ _ => hrun ▸ hP, fun e he => by rw [hrun] at he; cases he⟩
  | error e =>
      have hrun : Act.commit g s = (.error e, s) := by rw [Act.commit, hr]
      refine ⟨hrun ▸ hs, fun a ha => ?_, fun e' he => ?_⟩
      · rw [hrun] at ha
        cases ha
      · rw [hrun] at he
        cases he
        exact hE e hr

theorem attempt {P : α → σ → Prop} (h : x.Upholds I E P s) :
    x.attempt.Upholds I E (fun r s' => (∀ a, r = .ok a → P a s') ∧ ∀ e, r = .error e → E e) s := by
  refine ⟨h.state, fun r hr => ?_, nofun⟩
  cases hr
  exact ⟨h.answer, h.failure⟩

end Upholds

end Act

end ScopeFlow
