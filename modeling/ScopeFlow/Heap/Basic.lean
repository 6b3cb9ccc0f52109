import ScopeFlow.Heap.Bindings
import ScopeFlow.Value.Basic

/-!
# The heap

Items and scopes have an identity: two variables may share one item, and a
scope is reached from its parent, from contexts and from callers alike. The
heap holds all items and scopes made so far, each at the number that is its
identity, and counts the contexts and graphs made so far, which have an
identity but never change. Numbers are never used again: what is made later
is another thing, whatever has become of what was made before.
-/

namespace ScopeFlow

/-- The identity of a scope. -/
structure ScopeId where
  index : Nat
deriving DecidableEq, Inhabited

/-- The identity of an execution context. -/
structure ContextId where
  index : Nat
deriving DecidableEq, Inhabited

/-- The identity of a graph in use. -/
structure GraphId where
  index : Nat
deriving DecidableEq, Inhabited

/-- A scope: its name, its variables, its sub-scopes in order, and the scope
it is attached to. -/
structure Scope where
  name : String
  bindings : Bindings
  children : List ScopeId
  parent : Option ScopeId
deriving DecidableEq, Inhabited

/-- A scope with nothing in it, attached to nothing. -/
def Scope.named (name : String) : Scope := ⟨name, .empty, [], none⟩

/-- All items and scopes. -/
structure Heap where
  items : Array Value
  scopes : Array Scope
  /-- How many contexts have been made. -/
  contexts : Nat
  /-- How many graphs have been put to use. -/
  graphs : Nat

namespace Heap

/-- The heap before anything is made. -/
def empty : Heap := ⟨#[], #[], 0, 0⟩

/-! ## Items -/

/-- The value of an item. -/
def value (h : Heap) (i : ItemId) : Value := (h.items[i.index]?).getD (.bool false)

/-- Gives an item another value; every holder of the item sees it. -/
def setValue (h : Heap) (i : ItemId) (v : Value) : Heap :=
  { h with items := h.items.setIfInBounds i.index v }

/-- A fresh item. -/
def newItem (h : Heap) (v : Value) : ItemId × Heap :=
  (⟨h.items.size⟩, { h with items := h.items.push v })

/-- A fresh item with the value of another. -/
def copyItem (h : Heap) (i : ItemId) : ItemId × Heap := h.newItem (h.value i)

/-- Are two items equal, as the same item or by their contents? -/
def sameContents (h : Heap) (i j : ItemId) : Bool := i == j || (h.value i).same (h.value j)

/-! ## Scopes -/

/-- The scope of an identity. -/
def scope (h : Heap) (s : ScopeId) : Scope := (h.scopes[s.index]?).getD (.named "")

/-- Changes one scope. -/
def updateScope (h : Heap) (s : ScopeId) (f : Scope → Scope) : Heap :=
  { h with scopes := h.scopes.modify s.index f }

/-- A fresh scope of that name, detached and without variables. -/
def newScope (h : Heap) (name : String) : ScopeId × Heap :=
  (⟨h.scopes.size⟩, { h with scopes := h.scopes.push (.named name) })

/-! ## Identities of contexts and graphs -/

/-- A fresh identity for a context. -/
def newContext (h : Heap) : ContextId × Heap :=
  (⟨h.contexts⟩, { h with contexts := h.contexts + 1 })

/-- A fresh identity for a graph. -/
def newGraph (h : Heap) : GraphId × Heap := (⟨h.graphs⟩, { h with graphs := h.graphs + 1 })

end Heap

end ScopeFlow
