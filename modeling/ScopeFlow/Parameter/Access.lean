import ScopeFlow.Act
import ScopeFlow.Parameter.Resolution
import ScopeFlow.Scope.Basic

/-!
# Access through parameters

How operators read and write. A variable is searched along the scopes of the
context chain and is handed out as it is, so that a write to its item lands
in the tree. Fixed values and defaults belong to the declaration and are
handed out as fresh copies. A write binds the variable in the nearest scope
that has it, or else creates it in the bound scope. Whatever is read or
written has to be of a type that the parameter at the start accepts.
-/

namespace ScopeFlow

namespace Heap

/-- The first of some scopes that binds a name, with the item bound there. -/
def findIn (h : Heap) (name : String) : List ScopeId → Option (ScopeId × ItemId)
  | [] => none
  | s :: rest =>
    match h.binding? s name with
    | some i => some (s, i)
    | none => h.findIn name rest

/-- Fails unless an item is of a type that is accepted. -/
def checkType (h : Heap) (parameter : String) (expected : ValueType) (i : ItemId) :
    Except Failure Unit :=
  let found := (h.value i).type
  if expected.accepts found then .ok ()
  else .error (.typeMismatch parameter expected found)

end Heap

namespace Context

/-- The scope and item of the variable of a name, as seen from a context. -/
def find? (ctx : Context) (h : Heap) (name : String) : Option (ScopeId × ItemId) :=
  h.findIn name ctx.scopeChain

/-- A fresh copy of an item of an accepted type. -/
def detached (parameter : String) (type : ValueType) (i : ItemId) : Act Heap ItemId := do
  Act.look fun h => h.checkType parameter type i
  Act.change fun h => h.copyItem i

/-- The item that a parameter stands for. -/
def get (ctx : Context) (parameter : String) : Act Heap ItemId := do
  match ← Act.ofExcept (ctx.resolve parameter) with
  | .fixed value type => detached parameter type value
  | .variable name default type =>
    match ← Act.see fun h => ctx.find? h name, default with
    | some (_, i), _ =>
      Act.look fun h => h.checkType parameter type i
      pure i
    | none, some value => detached parameter type value
    | none, none => Act.fail (.unknownVariable name)

/-- The item that a parameter stands for, or none if there is neither a
variable nor a default. -/
def getOptional (ctx : Context) (parameter : String) : Act Heap (Option ItemId) := do
  match ← (ctx.get parameter).attempt with
  | .ok i => pure (some i)
  | .error (.unknownVariable _) => pure none
  | .error e => Act.fail e

/-- The item of the variable that a parameter stands for; fixed values and
defaults do not count. -/
def getVariable (ctx : Context) (parameter : String) : Act Heap (Option ItemId) := do
  match ← Act.ofExcept (ctx.resolve parameter) with
  | .fixed _ _ => pure none
  | .variable name _ type =>
    match ← Act.see fun h => ctx.find? h name with
    | some (_, i) =>
      Act.look fun h => h.checkType parameter type i
      pure (some i)
    | none => pure none

/-- The value that a parameter stands for. -/
def value (ctx : Context) (parameter : String) : Act Heap Value := do
  let i ← ctx.get parameter
  Act.see fun h => h.value i

/-- The value that a parameter stands for, as one of a type. -/
def typed {α : Type} (ctx : Context) (parameter : String) (type : ValueType)
    (as? : Value → Option α) : Act Heap α := do
  let v ← ctx.value parameter
  match as? v with
  | some a => pure a
  | none => Act.fail (.typeMismatch parameter type v.type)

/-- The boolean that a parameter stands for. -/
def getBool (ctx : Context) (parameter : String) : Act Heap Bool :=
  ctx.typed parameter .bool Value.bool?

/-- The integer that a parameter stands for. -/
def getInt (ctx : Context) (parameter : String) : Act Heap Int64 :=
  ctx.typed parameter .int Value.int?

/-- The number that a parameter stands for, integers widened. -/
def getDouble (ctx : Context) (parameter : String) : Act Heap Float :=
  ctx.typed parameter .double Value.double?

/-- The operator that a parameter stands for. -/
def getOperator (ctx : Context) (parameter : String) : Act Heap OperatorId :=
  ctx.typed parameter .operator Value.operator?

/-- Binds an item through a parameter: in the nearest scope that has the
variable, or else in the bound scope. -/
def setItem (ctx : Context) (parameter : String) (i : ItemId) : Act Heap Unit := do
  match ← Act.ofExcept (ctx.resolve parameter) with
  | .fixed _ _ => Act.fail (.readOnlyParameter parameter)
  | .variable name _ type =>
    Act.look fun h => h.checkType parameter type i
    Act.modify fun h =>
      let target := match ctx.find? h name with
        | some (s, _) => s
        | none => ctx.scope
      h.bindVariable target name i

/-- Writes a fresh item through a parameter. -/
def set (ctx : Context) (parameter : String) (v : Value) : Act Heap Unit := do
  let i ← Act.change fun h => h.newItem v
  ctx.setItem parameter i

/-- Unbinds the variable that a parameter stands for, in the bound scope
only, and answers the item it was bound to. -/
def remove (ctx : Context) (parameter : String) : Act Heap (Option ItemId) := do
  match ← Act.ofExcept (ctx.resolve parameter) with
  | .fixed _ _ => Act.fail (.readOnlyParameter parameter)
  | .variable name _ _ => Act.change fun h => h.removeVariable ctx.scope name

/-- The item to draw from: the variable, or else a copy of the default or
fixed value, which becomes the variable unless the parameter is fixed. -/
def randomItem (ctx : Context) (parameter : String) : Act Heap ItemId := do
  match ← ctx.getVariable parameter with
  | some i => pure i
  | none =>
    let i ← ctx.get parameter
    match ← (ctx.setItem parameter i).attempt with
    | .ok () | .error (.readOnlyParameter _) => pure i
    | .error e => Act.fail e

/-- Lets `f` draw from the random source that a parameter stands for. A
source that exists only as a default is created in the bound scope first, so
that later draws go on with its stream; a fixed one is copied each time. -/
def withRandom {α : Type} (ctx : Context) (parameter : String)
    (f : Random.Source → α × Random.Source) : Act Heap α := do
  let i ← ctx.randomItem parameter
  match ← Act.see fun h => h.value i with
  | .random r =>
    let (a, r') := f r
    Act.modify fun h => h.setValue i (.random r')
    pure a
  | v => Act.fail (.typeMismatch parameter .random v.type)

end Context

end ScopeFlow
