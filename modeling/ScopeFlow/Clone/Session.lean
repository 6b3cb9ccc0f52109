import ScopeFlow.Context.Operation

/-!
# Clone sessions

A session remembers what has been copied and to what, so that whatever
is reached along two paths is copied once and both paths in the copy reach
the same thing. Operators are mapped by number: a number without an entry
stands for itself, which is what copying a whole graph wants.

Copying an item or a context registers it once; copying a scope registers it
before its contents are copied, so that the copies of its sub-scopes find it.
-/

namespace ScopeFlow

/-- What has been copied so far, and to what. -/
structure Session where
  items : List (ItemId × ItemId)
  scopes : List (ScopeId × ScopeId)
  contexts : List (ContextId × Context)
  graphs : List (GraphId × SharedGraph)
  operators : List (OperatorId × OperatorId)
deriving Inhabited

namespace Session

/-- A session in which nothing has been copied. -/
def empty : Session := ⟨[], [], [], [], []⟩

/-- How many items, scopes, contexts and graphs have been copied. -/
def size (σ : Session) : Nat :=
  σ.items.length + σ.scopes.length + σ.contexts.length + σ.graphs.length

/-- The scopes that a session holds: the copies of scopes, and those that the
copies of contexts search. -/
def heldScopes (σ : Session) : List ScopeId :=
  σ.scopes.map Prod.snd ++ σ.contexts.flatMap fun entry => entry.2.scopeChain

/-- The number that an operator's number is copied to. -/
def operator (σ : Session) (id : OperatorId) : OperatorId := (σ.operators.lookup id).getD id

/-- Maps an operator's number to another. -/
def mapOperator (σ : Session) (id copy : OperatorId) : Session :=
  { σ with operators := (id, copy) :: σ.operators }

/-- Maps numbers to consecutive ones from `base` on. -/
def mapOperatorsFrom (σ : Session) (base : Nat) : List OperatorId → Session
  | [] => σ
  | id :: ids => (σ.mapOperator id ⟨base⟩).mapOperatorsFrom (base + 1) ids

end Session

/-- A heap in the course of copying. -/
structure Copying where
  session : Session
  heap : Heap

/-- A step of copying. -/
abbrev Copy (α : Type) := StateM Copying α

namespace Copy

/-- The session as it is. -/
def session : Copy Session := fun c => (c.session, c)

/-- The heap as it is. -/
def heap : Copy Heap := fun c => (c.heap, c)

/-- Changes the session. -/
def note (f : Session → Session) : Copy Unit := fun c => ((), { c with session := f c.session })

/-- Changes the heap. -/
def write (f : Heap → Heap) : Copy Unit := fun c => ((), { c with heap := f c.heap })

/-- Makes something in the heap. -/
def make {α : Type} (f : Heap → α × Heap) : Copy α := fun c =>
  let (a, h) := f c.heap
  (a, { c with heap := h })

end Copy

end ScopeFlow
