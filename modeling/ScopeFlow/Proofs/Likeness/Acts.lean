import ScopeFlow.Proofs.Likeness.Renaming

/-!
# Acts that mirror each other

Two acts mirror each other under a renaming if, on heaps that agree, both fail
alike or both answer what corresponds, and leave heaps that agree by a longer
renaming. The rules follow the ways in which acts are put together.
-/

namespace ScopeFlow

/-- Answers that correspond, or the same failure. -/
inductive Answers {α β : Type} (R : α → β → Prop) :
    Except Failure α → Except Failure β → Prop
  | ok {a : α} {b : β} : R a b → Answers R (.ok a) (.ok b)
  | error (e : Failure) : Answers R (.error e) (.error e)

namespace Act

/-- Do two acts do the same, up to a renaming that starts with `ρ`? -/
def Mirrors {α β : Type} (ρ : Renaming) (R : Renaming → α → β → Prop) (x : Act Heap α)
    (y : Act Heap β) : Prop :=
  ∀ h k, Agree ρ h k → ∃ ρ', Confined ρ ρ' k (y k).2 ∧ Agree ρ' (x h).2 (y k).2 ∧
    Answers (R ρ') (x h).1 (y k).1

namespace Mirrors

variable {α β γ δ : Type} {ρ : Renaming} {R : Renaming → α → β → Prop}
  {S : Renaming → γ → δ → Prop} {x : Act Heap α} {y : Act Heap β}

theorem pure {a : α} {b : β} (h : R ρ a b) : Mirrors ρ R (Pure.pure a) (Pure.pure b) :=
  fun _ _ ha => ⟨ρ, .refl, ha, .ok h⟩

theorem fail {e : Failure} : Mirrors ρ R (Act.fail e) (Act.fail e) :=
  fun _ _ ha => ⟨ρ, .refl, ha, .error e⟩

theorem bind {f : α → Act Heap γ} {g : β → Act Heap δ} (hxy : Mirrors ρ R x y)
    (hfg : ∀ ρ', ρ.Within ρ' → ∀ a b, R ρ' a b → Mirrors ρ' S (f a) (g b)) :
    Mirrors ρ S (x >>= f) (y >>= g) := by
  intro h k ha
  obtain ⟨ρ', hc, ha', hr⟩ := hxy h k ha
  rw [bind_apply, bind_apply]
  rcases hx : x h with ⟨r, h'⟩
  rcases hy : y k with ⟨r', k'⟩
  rw [hx, hy] at ha' hr
  rw [hy] at hc
  cases hr with
  | error e => exact ⟨ρ', hc, ha', .error e⟩
  | ok hab =>
      obtain ⟨ρ'', hc', ha'', hr'⟩ := hfg ρ' hc.within _ _ hab h' k' ha'
      exact ⟨ρ'', hc.trans hc', ha'', hr'⟩

/-- Acts may be compared knowing that the heaps agree. -/
theorem given (hxy : ∀ h k, Agree ρ h k → Mirrors ρ R x y) : Mirrors ρ R x y :=
  fun h k ha => hxy h k ha h k ha

theorem see {f : Heap → α} {g : Heap → β} (h : ∀ h k, Agree ρ h k → R ρ (f h) (g k)) :
    Mirrors ρ R (Act.see f) (Act.see g) :=
  fun _ _ ha => ⟨ρ, .refl, ha, .ok (h _ _ ha)⟩

theorem look {f : Heap → Except Failure α} {g : Heap → Except Failure β}
    (h : ∀ h k, Agree ρ h k → Answers (R ρ) (f h) (g k)) :
    Mirrors ρ R (Act.look f) (Act.look g) :=
  fun _ _ ha => ⟨ρ, .refl, ha, h _ _ ha⟩

theorem ofExcept {r : Except Failure α} {r' : Except Failure β}
    (h : ∀ h k, Agree ρ h k → Answers (R ρ) r r') :
    Mirrors ρ R (Act.ofExcept r) (Act.ofExcept r') :=
  fun _ _ ha => ⟨ρ, .refl, ha, h _ _ ha⟩

theorem change {f : Heap → α × Heap} {g : Heap → β × Heap}
    (h : ∀ h k, Agree ρ h k → ∃ ρ', Confined ρ ρ' k (g k).2 ∧ Agree ρ' (f h).2 (g k).2 ∧
      R ρ' (f h).1 (g k).1) :
    Mirrors ρ R (Act.change f) (Act.change g) := by
  intro h₀ k₀ ha
  obtain ⟨ρ', hc, ha', hr⟩ := h h₀ k₀ ha
  exact ⟨ρ', hc, ha', .ok hr⟩

theorem modify {f g : Heap → Heap}
    (h : ∀ h k, Agree ρ h k → ∃ ρ', Agree ρ' (f h) (g k) ∧ Confined ρ ρ' k (g k)) :
    Mirrors ρ (fun _ => Eq) (Act.modify f) (Act.modify g) := by
  intro h₀ k₀ ha
  obtain ⟨ρ', ha', hc⟩ := h h₀ k₀ ha
  exact ⟨ρ', hc, ha', .ok rfl⟩

theorem attempt (hxy : Mirrors ρ R x y) :
    Mirrors ρ (fun ρ' => Answers (R ρ')) x.attempt y.attempt := by
  intro h k ha
  obtain ⟨ρ', hc, ha', hr⟩ := hxy h k ha
  exact ⟨ρ', hc, ha', .ok hr⟩

end Mirrors

end Act

end ScopeFlow
