import ScopeFlow.Heap.Basic

/-!
# Lifetimes of scopes

A scope lives as long as somebody holds it: a caller who has kept it, a
context bound to it, or a living scope that it is a sub-scope of. A parent
link holds nothing. So a scope may outlive the scope it was attached to, and
then it has no parent any more and may be attached elsewhere.

* `Heap.living` marks the scopes that given scopes keep alive, themselves and
  all below them;
* `Heap.release` forgets the others.
-/

namespace ScopeFlow.Heap

/-- Marks a scope and what lies at most `levels` levels below it. What is
marked already has been followed before. -/
def markWithin (h : Heap) : Nat → Array Bool → ScopeId → Array Bool
  | 0, marks, s => marks.setIfInBounds s.index true
  | levels + 1, marks, s =>
    if marks.getD s.index true then marks
    else (h.scope s).children.foldl (markWithin h levels) (marks.setIfInBounds s.index true)

/-- Which scopes live while those in `held` are held. Each level marks a scope
that had no mark, so there are no more levels than scopes. -/
def living (h : Heap) (held : List ScopeId) : Array Bool :=
  held.foldl (h.markWithin h.scopes.size) (Array.replicate h.scopes.size false)

/-- Forgets every scope that those in `held` do not keep alive, and every link
to one. A forgotten scope reads like one that was never made. -/
def release (h : Heap) (held : List ScopeId) : Heap :=
  let living := h.living held
  { h with
    scopes := h.scopes.mapIdx fun k node =>
      if living.getD k false then
        { node with parent := node.parent.filter fun p => living.getD p.index false }
      else .named "" }

end ScopeFlow.Heap
