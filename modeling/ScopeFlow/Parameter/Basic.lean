import ScopeFlow.Heap.Basic

/-!
# Parameters

An operator declares its inputs and outputs as parameters. A parameter is
looked up under its actual name, which starts out as its own name; it may
hold a default, for when the look-up finds nothing, and a fixed value, which
takes the place of any look-up. Both are items of the declaration's own.

A collection lists parameters in the order of their declaration, one for each
name.
-/

namespace ScopeFlow

/-- A declared input or output. -/
structure Parameter where
  name : String
  description : String
  type : ValueType
  /-- The name under which the parameter is looked up. -/
  actual : String
  default : Option ItemId
  fixed : Option ItemId
deriving DecidableEq, Inhabited

namespace Parameter

/-- A parameter looked up under its own name. -/
def lookup (name : String) (type : ValueType) : Parameter := ⟨name, "", type, name, none, none⟩

/-- The items that the declaration holds: the default, then the fixed value. -/
def held (p : Parameter) : List ItemId := p.default.toList ++ p.fixed.toList

end Parameter

/-- Parameters in the order of declaration. -/
structure Parameters where
  list : List Parameter
deriving DecidableEq, Inhabited

namespace Parameters

/-- No parameters. -/
def empty : Parameters := ⟨[]⟩

/-- The parameter of a name. -/
def get? (ps : Parameters) (name : String) : Option Parameter :=
  ps.list.find? fun p => p.name == name

/-- Is a parameter of that name declared? -/
def contains (ps : Parameters) (name : String) : Bool := (ps.get? name).isSome

/-- The first parameter of a name, replaced. -/
def replaceFirst (name : String) (p : Parameter) : List Parameter → List Parameter
  | [] => []
  | q :: qs => if q.name = name then p :: qs else q :: replaceFirst name p qs

/-- Declares a parameter; one of the same name gives up its place to it. -/
def insert (ps : Parameters) (p : Parameter) : Parameters :=
  if ps.contains p.name then ⟨replaceFirst p.name p ps.list⟩ else ⟨ps.list ++ [p]⟩

/-- Changes the parameter of a name, if there is one. -/
def update (ps : Parameters) (name : String) (f : Parameter → Parameter) : Parameters :=
  match ps.get? name with
  | some p => ⟨replaceFirst name (f p) ps.list⟩
  | none => ps

/-- Takes the parameter of a name out. -/
def erase (ps : Parameters) (name : String) : Parameters :=
  ⟨ps.list.eraseP fun p => p.name == name⟩

/-- The items that all declarations hold. -/
def held (ps : Parameters) : List ItemId := ps.list.flatMap Parameter.held

end Parameters

namespace Heap

/-- A fresh item for a value, if one is given. -/
def newItem? (h : Heap) : Option Value → Option ItemId × Heap
  | none => (none, h)
  | some v => let (i, h') := h.newItem v; (some i, h')

/-- A parameter that always yields one value, of whose type it is. -/
def fixedParameter (h : Heap) (name : String) (v : Value) : Parameter × Heap :=
  let (i, h') := h.newItem v
  ({ Parameter.lookup name v.type with fixed := some i }, h')

/-- A parameter with a default. -/
def defaultParameter (h : Heap) (name : String) (type : ValueType) (v : Value) :
    Parameter × Heap :=
  let (i, h') := h.newItem v
  ({ Parameter.lookup name type with default := some i }, h')

/-- Are two held items both absent or equal in contents? -/
def sameHeld (h : Heap) : Option ItemId → Option ItemId → Bool
  | none, none => true
  | some i, some j => h.sameContents i j
  | _, _ => false

/-- Equality of declarations. -/
def sameParameter (h : Heap) (p q : Parameter) : Bool :=
  p.name == q.name && p.description == q.description && p.type == q.type &&
    p.actual == q.actual && h.sameHeld p.default q.default && h.sameHeld p.fixed q.fixed

/-- Equality of lists of declarations. -/
def sameParameterList (h : Heap) : List Parameter → List Parameter → Bool
  | [], [] => true
  | p :: ps, q :: qs => h.sameParameter p q && h.sameParameterList ps qs
  | _, _ => false

/-- Equality of collections, order included. -/
def sameParameters (h : Heap) (ps qs : Parameters) : Bool :=
  h.sameParameterList ps.list qs.list

/-- The operators among the values of items. -/
def operatorsIn (h : Heap) (items : List ItemId) : List OperatorId :=
  items.filterMap fun i => (h.value i).operator?

end Heap

end ScopeFlow
