import ScopeFlow.Scope.Basic
import ScopeFlow.Text.Quoted

/-!
# Views of a scope tree

A snapshot is the plain copy of a subtree: names and values, without the
identities of scopes and items. What it leaves out, which variables share an
item, is listed apart. Both list the tree from the top, each scope before its
sub-scopes and these from left to right.
-/

namespace ScopeFlow

/-- The names and values of a subtree. -/
inductive Snapshot where
  | node (name : String) (values : List (String × Value)) (children : List Snapshot)
deriving Inhabited

namespace Snapshot

/-- The name of the top scope. -/
def name : Snapshot → String
  | node n _ _ => n

/-- The values of the variables of the top scope. -/
def values : Snapshot → List (String × Value)
  | node _ vs _ => vs

/-- The snapshots of the sub-scopes. -/
def children : Snapshot → List Snapshot
  | node _ _ cs => cs

/-- The part of a snapshot that a path of indices leads to. -/
def at? : Snapshot → List Nat → Option Snapshot
  | t, [] => some t
  | t, k :: path =>
    match t.children[k]? with
    | none => none
    | some c => c.at? path

/-- The value of a variable of the scope that a path leads to. -/
def valueAt? (t : Snapshot) (path : List Nat) (name : String) : Option Value :=
  (t.at? path).bind fun part => part.values.lookup name

mutual

/-- How many scopes the subtree has. -/
def count : Snapshot → Nat
  | node _ _ cs => 1 + countAll cs

/-- How many scopes several subtrees have. -/
def countAll : List Snapshot → Nat
  | [] => 0
  | c :: cs => c.count + countAll cs

end

/-- Lists of variables are equal if names and contents are. -/
def sameVariables : List (String × Value) → List (String × Value) → Bool
  | [], [] => true
  | (n, v) :: vs, (m, w) :: ws => n == m && v.same w && sameVariables vs ws
  | _, _ => false

mutual

/-- Equality of names and contents all over. -/
def same : Snapshot → Snapshot → Bool
  | node n vs cs, node m ws ds => n == m && sameVariables vs ws && sameAll cs ds

/-- Equality of lists of snapshots. -/
def sameAll : List Snapshot → List Snapshot → Bool
  | [], [] => true
  | c :: cs, d :: ds => c.same d && sameAll cs ds
  | _, _ => false

end

/-- One scope in the listing of a snapshot. -/
structure Row where
  depth : Nat
  name : String
  values : List (String × Value)

mutual

/-- The scopes of a snapshot whose top lies at a given depth, each before its
sub-scopes. -/
def rows (depth : Nat) : Snapshot → List Row
  | node n vs cs => ⟨depth, n, vs⟩ :: rowsOfAll (depth + 1) cs

/-- The scopes of several snapshots side by side. -/
def rowsOfAll (depth : Nat) : List Snapshot → List Row
  | [] => []
  | c :: cs => rows depth c ++ rowsOfAll depth cs

end

end Snapshot

namespace Heap

/-- The names and values of the variables of a scope. -/
def variableValues (h : Heap) (s : ScopeId) : List (String × Value) :=
  (h.scope s).bindings.entries.map fun entry => (entry.1, h.value entry.2)

/-- The snapshot of a subtree, down to `levels` levels. -/
def snapshotWithin (h : Heap) : Nat → ScopeId → Snapshot
  | 0, s => .node (h.scope s).name (h.variableValues s) []
  | levels + 1, s =>
    .node (h.scope s).name (h.variableValues s)
      ((h.scope s).children.map (snapshotWithin h levels))

/-- The snapshot of a subtree. No branch of a tree is longer than the heap. -/
def snapshot (h : Heap) (s : ScopeId) : Snapshot := h.snapshotWithin h.scopes.size s

/-- The scopes of a subtree whose top lies at a given depth, with their
depths, down to `levels` levels. -/
def preorderWithin (h : Heap) : Nat → Nat → ScopeId → List (Nat × ScopeId)
  | 0, depth, s => [(depth, s)]
  | levels + 1, depth, s =>
    (depth, s) :: (h.scope s).children.flatMap (preorderWithin h levels (depth + 1))

/-- The scopes of a subtree with their depths below its top. -/
def preorder (h : Heap) (s : ScopeId) : List (Nat × ScopeId) :=
  h.preorderWithin h.scopes.size 0 s

/-- A variable in the listing of shared items: the depth of its scope, its
name, and the number of its item. -/
structure SharingRow where
  depth : Nat
  name : String
  number : Nat
deriving DecidableEq

/-- Numbers items in the order of first sight. -/
def numberItems : List ItemId → List (Nat × String × ItemId) → List SharingRow
  | _, [] => []
  | seen, (depth, name, i) :: rest =>
    match seen.idxOf? i with
    | some k => ⟨depth, name, k⟩ :: numberItems seen rest
    | none => ⟨depth, name, seen.length⟩ :: numberItems (seen ++ [i]) rest

/-- Which variables of a subtree share an item: each variable with the number
of its item. -/
def sharing (h : Heap) (s : ScopeId) : List SharingRow :=
  numberItems [] ((h.preorder s).flatMap fun (depth, t) =>
    (h.scope t).bindings.entries.map fun (name, i) => (depth, name, i))

/-- A scope as text: its name, the names of its variables, and how many
sub-scopes it has. -/
def scopeText (h : Heap) (s : ScopeId) : String :=
  let node := h.scope s
  Text.recordText "Scope" [("name", Text.quoted node.name),
    ("variables", Text.bracketed (node.bindings.names.map Text.quoted)),
    ("sub_scopes", toString node.children.length)]

end Heap

end ScopeFlow
