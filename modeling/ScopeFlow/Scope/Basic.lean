import ScopeFlow.Act
import ScopeFlow.Heap.Basic

/-!
# Scope trees

Variables of a scope, and how scopes are attached to one another. Attaching
is refused where it would break the tree: a child that has a parent already,
a child that is the target or an ancestor of it, or a place past the end of
the list. A refused attachment changes nothing.
-/

namespace ScopeFlow.Heap

/-! ## Variables -/

/-- The item bound to a name in a scope. -/
def binding? (h : Heap) (s : ScopeId) (name : String) : Option ItemId :=
  (h.scope s).bindings.find? name

/-- Gives a scope another name. -/
def rename (h : Heap) (s : ScopeId) (name : String) : Heap :=
  h.updateScope s fun node => { node with name }

/-- Binds a name in a scope to an item, which is then shared. -/
def bindVariable (h : Heap) (s : ScopeId) (name : String) (i : ItemId) : Heap :=
  h.updateScope s fun node => { node with bindings := node.bindings.insert name i }

/-- Unbinds a name in a scope. -/
def unbindVariable (h : Heap) (s : ScopeId) (name : String) : Heap :=
  h.updateScope s fun node => { node with bindings := node.bindings.erase name }

/-- Binds a name that is not yet bound. -/
def addVariable (h : Heap) (s : ScopeId) (name : String) (i : ItemId) : Except Failure Heap :=
  if (h.scope s).bindings.contains name then
    .error (.scope ("variable `" ++ name ++ "` already exists in scope `" ++
      (h.scope s).name ++ "`"))
  else .ok (h.bindVariable s name i)

/-- Unbinds a name and answers the item it was bound to. -/
def removeVariable (h : Heap) (s : ScopeId) (name : String) : Option ItemId × Heap :=
  (h.binding? s name, h.unbindVariable s name)

/-! ## The tree -/

/-- A scope and its ancestors, the nearest first, at most `bound` of them. -/
def lineageWithin (h : Heap) : Nat → ScopeId → List ScopeId
  | 0, _ => []
  | bound + 1, s =>
    s :: match (h.scope s).parent with
      | none => []
      | some p => lineageWithin h bound p

/-- A scope and its ancestors, the nearest first. No chain of distinct scopes
is longer than the heap. -/
def lineage (h : Heap) (s : ScopeId) : List ScopeId := h.lineageWithin (h.scopes.size + 1) s

/-- How many ancestors a scope has. -/
def depth (h : Heap) (s : ScopeId) : Nat := (h.lineage s).length - 1

/-- Sets the parent link of a scope. -/
def setParent (h : Heap) (s : ScopeId) (parent : Option ScopeId) : Heap :=
  h.updateScope s fun node => { node with parent }

/-- Attaches a detached scope at a place among the sub-scopes of another. -/
def insertChild (h : Heap) (s : ScopeId) (place : Nat) (child : ScopeId) : Except Failure Heap :=
  let count := (h.scope s).children.length
  if (h.scope child).parent.isSome then
    .error (.scope ("scope `" ++ (h.scope child).name ++ "` is already attached to a parent"))
  else if child ∈ h.lineage s then
    .error (.scope ("attaching `" ++ (h.scope child).name ++ "` under `" ++ (h.scope s).name ++
      "` would create a cycle"))
  else if count < place then
    .error (.scope ("sub-scope index " ++ toString place ++ " out of range (count " ++
      toString count ++ ")"))
  else
    .ok ((h.setParent child (some s)).updateScope s fun node =>
      { node with children := node.children.insertIdx place child })

/-- Attaches a detached scope as the last sub-scope of another. -/
def addChild (h : Heap) (s : ScopeId) (child : ScopeId) : Except Failure Heap :=
  h.insertChild s (h.scope s).children.length child

/-- Attaches fresh scopes after the sub-scopes of a scope, each named by its
place. -/
def appendFresh (h : Heap) (s : ScopeId) (count : Nat) : Heap :=
  let first := (h.scope s).children.length
  let fresh := (List.range count).map fun k => Scope.mk (toString (first + k)) .empty [] (some s)
  let ids := (List.range count).map fun k => ScopeId.mk (h.scopes.size + k)
  { h with scopes := h.scopes ++ fresh }.updateScope s fun node =>
    { node with children := node.children ++ ids }

/-- Detaches the sub-scope at a place and answers it, if there is one. -/
def removeChild (h : Heap) (s : ScopeId) (place : Nat) : Option ScopeId × Heap :=
  match (h.scope s).children[place]? with
  | none => (none, h)
  | some child =>
    (some child, (h.updateScope s fun node =>
      { node with children := node.children.eraseIdx place }).setParent child none)

/-- Detaches scopes from whatever they are attached to. -/
def detachAll (h : Heap) (children : List ScopeId) : Heap :=
  children.foldl (fun h child => h.setParent child none) h

/-- Detaches all sub-scopes and answers them in order. -/
def clearChildren (h : Heap) (s : ScopeId) : List ScopeId × Heap :=
  let children := (h.scope s).children
  (children, (h.updateScope s fun node => { node with children := [] }).detachAll children)

/-- The scopes exactly `depth` levels below a scope, from left to right. -/
def scopesAtDepth (h : Heap) : Nat → ScopeId → List ScopeId
  | 0, s => [s]
  | depth + 1, s => (h.scope s).children.flatMap (scopesAtDepth h depth)

end ScopeFlow.Heap
