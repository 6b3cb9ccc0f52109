import ScopeFlow.Scope.Basic

/-!
# Outlines

A tree of scopes written down as a list: every scope with its depth, its name
and its variables, before its sub-scopes. An outline is well shaped if it
starts at depth zero, never comes back to it, and never goes down by more than
one level at a time. Planting it makes the scopes and attaches each to the
last one before it that lies one level higher.
-/

namespace ScopeFlow

/-- What a variable of an outline is bound to. -/
inductive Initial where
  /-- A fresh item. -/
  | value (v : Value)
  /-- An item that is already there. -/
  | item (i : ItemId)

/-- One scope of an outline. -/
structure OutlineNode where
  depth : Nat
  name : String
  initials : List (String × Initial)

namespace OutlineNode

/-- May these scopes follow a scope of a depth? -/
def follow : Nat → List OutlineNode → Bool
  | _, [] => true
  | last, n :: rest => 1 ≤ n.depth && n.depth ≤ last + 1 && follow n.depth rest

/-- Is the outline that of one tree? -/
def wellShaped : List OutlineNode → Bool
  | [] => false
  | top :: rest => top.depth == 0 && follow 0 rest

end OutlineNode

namespace Heap

/-- Binds the variables of an outline in a scope. -/
def bindInitials (h : Heap) (s : ScopeId) : List (String × Initial) → Heap
  | [] => h
  | (name, .item i) :: rest => (h.bindVariable s name i).bindInitials s rest
  | (name, .value v) :: rest =>
    let (i, h) := h.newItem v
    (h.bindVariable s name i).bindInitials s rest

end Heap

/-- Makes the scopes of an outline in order; `path` holds the scopes that the
next one may be attached to, the deepest first. -/
def plantUnder (path : List (Nat × ScopeId)) : List OutlineNode → Act Heap (List ScopeId)
  | [] => pure []
  | n :: rest => do
    let s ← Act.change fun h => h.newScope n.name
    Act.modify fun h => h.bindInitials s n.initials
    let path := path.dropWhile fun p => n.depth ≤ p.1
    match path with
    | [] => pure ()
    | (_, parent) :: _ => Act.commit fun h => h.addChild parent s
    let made ← plantUnder ((n.depth, s) :: path) rest
    pure (s :: made)

/-- Makes the scopes of an outline and answers them in its order. -/
def plant (outline : List OutlineNode) : Act Heap (List ScopeId) := plantUnder [] outline

end ScopeFlow
