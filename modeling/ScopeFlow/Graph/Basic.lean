import ScopeFlow.Failure
import ScopeFlow.Operator.Basic

/-!
# Operator graphs

A graph lists operators, which refer to one another by their place in the
list, so that shared nodes and circles need nothing special. It has
parameters of its own, seen by every operator that runs in it, and perhaps an
initial operator.

A graph in use has an identity and is no longer changed.
-/

namespace ScopeFlow

/-- An algorithm as operators that refer to one another. -/
structure Graph where
  name : String
  parameters : Parameters
  operators : Array Operator
  initial : Option OperatorId
deriving Inhabited

namespace Graph

/-- A graph without operators. -/
def named (name : String) : Graph := ⟨name, .empty, #[], none⟩

/-- The operator of a number. -/
def get? (g : Graph) (id : OperatorId) : Option Operator := g.operators[id.index]?

/-- The operator of a number, or the failure that there is none. -/
def get (g : Graph) (id : OperatorId) : Except Failure Operator :=
  match g.get? id with
  | some op => .ok op
  | none => .error (.unknownOperator id)

/-- Has the graph an operator of that number? -/
def has (g : Graph) (id : OperatorId) : Bool := (g.get? id).isSome

/-- How many operators the graph has. -/
def size (g : Graph) : Nat := g.operators.size

/-- Adds an operator, under the next number. -/
def add (g : Graph) (op : Operator) : OperatorId × Graph :=
  (⟨g.operators.size⟩, { g with operators := g.operators.push op })

/-- The first operator of a name. -/
def find? (g : Graph) (name : String) : Option OperatorId :=
  (g.operators.findIdx? fun op => op.name == name).map OperatorId.mk

/-- Changes one operator. -/
def update (g : Graph) (id : OperatorId) (f : Operator → Operator) : Graph :=
  { g with operators := g.operators.modify id.index f }

/-- Fails unless the graph has an operator of that number. -/
def need (g : Graph) (id : OperatorId) : Except Failure Unit :=
  match g.get id with
  | .ok _ => .ok ()
  | .error e => .error e

/-- Fails at the first number in a list that the graph has no operator of. -/
def needAll (g : Graph) : List OperatorId → Except Failure Unit
  | [] => .ok ()
  | id :: ids =>
    match g.need id with
    | .ok () => g.needAll ids
    | .error e => .error e

/-- Chooses the operator to start with. -/
def setInitial (g : Graph) (id : OperatorId) : Except Failure Graph :=
  match g.need id with
  | .ok () => .ok { g with initial := some id }
  | .error e => .error e

/-- Links an operator to its successor, or unlinks it. -/
def setSuccessor (g : Graph) (id : OperatorId) (next : Option OperatorId) :
    Except Failure Graph :=
  match g.needAll (next.toList ++ [id]) with
  | .ok () => .ok (g.update id fun op => { op with successor := next })
  | .error e => .error e

/-- Looks a parameter of an operator up under another name. -/
def setActual (g : Graph) (id : OperatorId) (parameter actual : String) : Except Failure Graph :=
  match g.get id with
  | .error e => .error e
  | .ok op =>
    if op.parameters.contains parameter then .ok (g.update id fun op => op.rewire parameter actual)
    else .error (.unknownParameter op.name parameter)

/-- Gives an operator another name. -/
def rename (g : Graph) (id : OperatorId) (name : String) : Except Failure Graph :=
  match g.need id with
  | .ok () => .ok (g.update id fun op => { op with name })
  | .error e => .error e

/-- All references of a graph in the order in which they are checked: the
initial operator, the references of each operator, and the operators held by
the graph's own parameters. -/
def allReferences (g : Graph) (h : Heap) : List OperatorId :=
  g.initial.toList ++ g.operators.toList.flatMap (fun op => op.references h) ++
    h.operatorsIn g.parameters.held

/-- Checks that every reference is to an operator of the graph. -/
def validate (g : Graph) (h : Heap) : Except Failure Unit := g.needAll (g.allReferences h)

/-! ## The numbers of a graph -/

variable {g : Graph} {h : Heap} {id : OperatorId} {ids : List OperatorId}

theorem has_iff : g.has id = true ↔ ∃ op, g.get? id = some op := Option.isSome_iff_exists

theorem not_has_iff : g.has id = false ↔ g.get? id = none := Option.isSome_eq_false_iff.trans
  Option.isNone_iff_eq_none

theorem has_iff_lt : g.has id = true ↔ id.index < g.size := by
  simp [has, get?, size]

theorem need_eq_ok_iff {u : Unit} : g.need id = .ok u ↔ g.has id = true := by
  unfold need get has
  cases g.get? id <;> simp

theorem needAll_eq_ok_iff {u : Unit} : g.needAll ids = .ok u ↔ ∀ id ∈ ids, g.has id = true := by
  induction ids with
  | nil => simp [needAll]
  | cons id ids ih =>
    rw [needAll, List.forall_mem_cons, ← ih, ← need_eq_ok_iff (u := ())]
    cases g.need id <;> simp

theorem validate_eq_ok_iff : g.validate h = .ok () ↔ ∀ id ∈ g.allReferences h, g.has id = true :=
  needAll_eq_ok_iff

end Graph

/-- A graph in use, with its identity. -/
structure SharedGraph where
  id : GraphId
  graph : Graph
deriving Inhabited

/-- Puts a graph to use. -/
def Heap.share (h : Heap) (g : Graph) : SharedGraph × Heap :=
  let (id, h') := h.newGraph
  (⟨id, g⟩, h')

end ScopeFlow
