import ScopeFlow.Context.Basic

/-!
# Resolution of names

A parameter stands for a variable by way of names: its actual name may be a
parameter of the same frame, or of a frame above, with an actual name of its
own. Resolution follows the names from the frame that asks up to the root.
In each frame it goes from name to name as long as the frame renames, and
moves up where the frame declares nothing of that name or does not rename it.
A fixed value met on the way ends it; the first default met is kept.

Coming back to a name inside one frame is a circle, and so is a chain of more
than `aliasLimit` names; both are refused with the names passed through.
-/

namespace ScopeFlow

/-- How many names one chain may pass through. -/
def aliasLimit : Nat := 256

/-- What a parameter stands for. -/
inductive Resolution where
  /-- A fixed value, for a parameter declared with this type. -/
  | fixed (value : ItemId) (type : ValueType)
  /-- A variable, with the first default met on the way, for a parameter
  declared with this type. -/
  | variable (name : String) (default : Option ItemId) (type : ValueType)
deriving DecidableEq

/-- Where a resolution stands: the present name, the names passed through
before it with the latest first, and the first default met. -/
structure Passage where
  current : String
  earlier : List String
  default : Option ItemId
deriving DecidableEq

namespace Passage

/-- A resolution at its start. -/
def start (name : String) : Passage := ⟨name, [], none⟩

/-- All names passed through, the first one first. -/
def names (w : Passage) : List String := (w.current :: w.earlier).reverse

/-- How many more renamings the limit allows. -/
def left (w : Passage) : Nat := aliasLimit - w.earlier.length

/-- The default met first, a parameter's own if none was met before. -/
def meet (w : Passage) (p : Parameter) : Passage := { w with default := w.default.or p.default }

/-- The resolution one name further. -/
def rename (w : Passage) (name : String) : Passage := ⟨name, w.current :: w.earlier, w.default⟩

end Passage

/-- How a frame ends its part of a resolution. -/
inductive FrameEnd where
  /-- At a fixed value. -/
  | fixed (value : ItemId)
  /-- In a circle, or past the limit. -/
  | circle (names : List String)
  /-- In the frame above, with the name reached. -/
  | above (w : Passage)
deriving DecidableEq

/-- Follows the names that one frame declares: `seen` are those it has
followed already, `left` is how many more renamings are allowed. -/
def followFrame (ps : Parameters) (left : Nat) (seen : List String) (w : Passage) : FrameEnd :=
  match ps.get? w.current with
  | none => .above w
  | some p =>
    match left with
    | 0 => .circle w.names
    | left + 1 =>
      if w.current ∈ seen then .circle w.names
      else
        match p.fixed with
        | some value => .fixed value
        | none =>
          if p.actual = w.current then .above (w.meet p)
          else followFrame ps left (w.current :: seen) ((w.meet p).rename p.actual)

namespace Context

/-- Follows names from a frame up to the root, for a parameter of a declared
type, where `g` is the graph of the chain. -/
def follow (g : Graph) (parameter : String) (type : ValueType) :
    Context → Passage → Except Failure Resolution
  | root _ _ _, w =>
    match followFrame g.parameters w.left [] w with
    | .fixed value => .ok (.fixed value type)
    | .circle names => .error (.aliasCycle parameter names)
    | .above w => .ok (.variable w.current w.default type)
  | frame _ op _ _ p, w =>
    match g.get op with
    | .error e => .error e
    | .ok operator =>
      match followFrame operator.parameters w.left [] w with
      | .fixed value => .ok (.fixed value type)
      | .circle names => .error (.aliasCycle parameter names)
      | .above w => p.follow g parameter type w

/-- What a parameter declared by the bound operator stands for. -/
def resolve (ctx : Context) (parameter : String) : Except Failure Resolution :=
  match ctx.parameters with
  | .error e => .error e
  | .ok ps =>
    match ps.get? parameter with
    | none => .error (.unknownParameter ctx.operatorName parameter)
    | some p => ctx.follow ctx.graph.graph parameter p.type (.start parameter)

end Context

end ScopeFlow
