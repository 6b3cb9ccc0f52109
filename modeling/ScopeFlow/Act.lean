import ScopeFlow.Failure

/-!
# Acts

An act reads and changes a state and answers with a value or a failure. The
state is kept when an act fails: what was done before the failure stays done.
-/

namespace ScopeFlow

/-- A change of a state `σ` that answers with an `α` or fails. -/
def Act (σ α : Type) : Type := σ → Except Failure α × σ

namespace Act

variable {σ τ α β : Type}

/-- The act that changes nothing and answers `a`. -/
@[inline] protected def pure (a : α) : Act σ α := fun s => (.ok a, s)

/-- One act after another; a failure of the first is the failure of both. -/
@[inline] protected def bind (x : Act σ α) (f : α → Act σ β) : Act σ β := fun s =>
  match x s with
  | (.ok a, s') => f a s'
  | (.error e, s') => (.error e, s')

instance : Monad (Act σ) where
  pure := Act.pure
  bind := Act.bind

instance : LawfulMonad (Act σ) := LawfulMonad.mk' _
  (fun x => funext fun s => by
    change (match x s with
      | (.ok a, s') => (.ok a, s')
      | (.error e, s') => (.error e, s')) = x s
    rcases x s with ⟨a | a, s'⟩ <;> rfl)
  (fun _ _ => rfl)
  (fun x f g => funext fun s => by
    change (match (match x s with
        | (.ok a, s') => f a s'
        | (.error e, s') => (.error e, s')) with
      | (.ok b, s') => g b s'
      | (.error e, s') => (.error e, s')) = _
    change _ = (match x s with
      | (.ok a, s') => (f a >>= g) s'
      | (.error e, s') => (.error e, s'))
    rcases x s with ⟨a | a, s'⟩ <;> rfl)

/-- The act that changes nothing and fails. -/
def fail (e : Failure) : Act σ α := fun s => (.error e, s)

/-- What is read off the state. -/
def see (f : σ → α) : Act σ α := fun s => (.ok (f s), s)

/-- An answer or failure that depends on no state. -/
def ofExcept (r : Except Failure α) : Act σ α := fun s => (r, s)

/-- An answer or failure read off the state. -/
def look (f : σ → Except Failure α) : Act σ α := fun s => (f s, s)

/-- A change of the state. -/
def modify (f : σ → σ) : Act σ Unit := fun s => (.ok (), f s)

/-- A change of the state that also answers. -/
def change (f : σ → α × σ) : Act σ α := fun s => let (a, s') := f s; (.ok a, s')

/-- A change of the state that may be refused, and is then not made. -/
def commit (f : σ → Except Failure σ) : Act σ Unit := fun s =>
  match f s with
  | .ok s' => (.ok (), s')
  | .error e => (.error e, s)

/-- An act whose failure is an answer. -/
def attempt (x : Act σ α) : Act σ (Except Failure α) := fun s =>
  let (r, s') := x s
  (.ok r, s')

@[simp] theorem pure_apply (a : α) (s : σ) : (pure a : Act σ α) s = (.ok a, s) := rfl

theorem bind_apply (x : Act σ α) (f : α → Act σ β) (s : σ) :
    (x >>= f) s = match x s with
      | (.ok a, s') => f a s'
      | (.error e, s') => (.error e, s') := rfl

@[simp] theorem see_apply (f : σ → α) (s : σ) : see f s = (.ok (f s), s) := rfl

@[simp] theorem ofExcept_apply (r : Except Failure α) (s : σ) :
    (ofExcept r : Act σ α) s = (r, s) := rfl

@[simp] theorem look_apply (f : σ → Except Failure α) (s : σ) : look f s = (f s, s) := rfl

@[simp] theorem modify_apply (f : σ → σ) (s : σ) : modify f s = (.ok (), f s) := rfl

@[simp] theorem change_apply (f : σ → α × σ) (s : σ) :
    change f s = (.ok (f s).1, (f s).2) := rfl

end Act

end ScopeFlow
