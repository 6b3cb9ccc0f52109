import ScopeFlow.Random.Source

/-!
# Values

What a variable can hold, and the type tags by which parameters say what they
expect. A value knows its tag; a declared tag accepts a found one if they are
equal, if the declared one is `any`, or by the one widening there is, an
integer where a floating-point number is declared.

`Value.same` is the equality of contents that programs see: floating-point
numbers compare as numbers (a NaN differs from itself, the two zeros are
equal) and random sources by seed and count of draws.
-/

namespace ScopeFlow

/-- The place of an operator in its graph. -/
structure OperatorId where
  index : Nat
deriving DecidableEq, Inhabited

/-- An operator is written as its number behind a number sign. -/
def OperatorId.text (id : OperatorId) : String := "#" ++ toString id.index

/-- The tags of values, and `any` for a declaration that takes them all. -/
inductive ValueType where
  | any
  | bool
  | int
  | double
  | string
  | bools
  | ints
  | doubles
  | operator
  | random
deriving DecidableEq, Inhabited

namespace ValueType

/-- The name under which a tag is shown. -/
def name : ValueType → String
  | any => "any"
  | bool => "bool"
  | int => "int"
  | double => "double"
  | string => "string"
  | bools => "bool[]"
  | ints => "int[]"
  | doubles => "double[]"
  | operator => "operator"
  | random => "random"

/-- All tags. -/
def all : List ValueType :=
  [any, bool, int, double, string, bools, ints, doubles, operator, random]

/-- The tag shown under a name. -/
def ofName? (s : String) : Option ValueType := all.find? fun t => t.name == s

/-- Does a declaration of type `declared` take a value of type `found`? -/
def accepts (declared found : ValueType) : Bool :=
  declared == found || declared == any || (declared == double && found == int)

end ValueType

/-- A value of a variable. -/
inductive Value where
  | bool (b : Bool)
  | int (i : Int64)
  | double (x : Float)
  | string (s : String)
  | bools (bs : List Bool)
  | ints (is : List Int64)
  | doubles (xs : List Float)
  | operator (id : OperatorId)
  | random (r : Random.Source)
deriving Inhabited

namespace Value

/-- The tag of a value. -/
def type : Value → ValueType
  | bool _ => .bool
  | int _ => .int
  | double _ => .double
  | string _ => .string
  | bools _ => .bools
  | ints _ => .ints
  | doubles _ => .doubles
  | operator _ => .operator
  | random _ => .random

/-- The boolean held, if one is. -/
def bool? : Value → Option Bool
  | bool b => some b
  | _ => none

/-- The integer held, if one is. -/
def int? : Value → Option Int64
  | int i => some i
  | _ => none

/-- The number held, integers widened. -/
def double? : Value → Option Float
  | double x => some x
  | int i => some i.toFloat
  | _ => none

/-- The text held, if one is. -/
def string? : Value → Option String
  | string s => some s
  | _ => none

/-- The operator held, if one is. -/
def operator? : Value → Option OperatorId
  | operator id => some id
  | _ => none

/-- The random source held, if one is. -/
def random? : Value → Option Random.Source
  | random r => some r
  | _ => none

/-- Lists of floating-point numbers compare number by number. -/
def sameDoubles : List Float → List Float → Bool
  | [], [] => true
  | x :: xs, y :: ys => x == y && sameDoubles xs ys
  | _, _ => false

/-- Equality of contents. -/
def same : Value → Value → Bool
  | bool a, bool b => a == b
  | int a, int b => a == b
  | double a, double b => a == b
  | string a, string b => a == b
  | bools a, bools b => a == b
  | ints a, ints b => a == b
  | doubles a, doubles b => sameDoubles a b
  | operator a, operator b => a == b
  | random a, random b => a.same b
  | _, _ => false

/-- How two values compare: integers, booleans and texts with their own kind,
any other pair as numbers. Values that are not both numbers do not compare,
nor does a NaN with anything. -/
def compare? : Value → Value → Option Ordering
  | int a, int b => some (if a < b then .lt else if a == b then .eq else .gt)
  | bool a, bool b => some (if a == b then .eq else if b then .lt else .gt)
  | string a, string b => some (if a < b then .lt else if a == b then .eq else .gt)
  | a, b => do
    let x ← a.double?
    let y ← b.double?
    if x < y then some .lt else if x == y then some .eq else if y < x then some .gt else none

/-- The value with the operator it holds, if it holds one, replaced. -/
def mapOperator (f : OperatorId → OperatorId) : Value → Value
  | operator id => operator (f id)
  | v => v

end Value

/-- The relations a comparison can test. -/
inductive Comparison where
  | less
  | lessOrEqual
  | equal
  | notEqual
  | greaterOrEqual
  | greater
deriving DecidableEq, Inhabited

namespace Comparison

/-- Does the relation hold between two values that compare as given? -/
def holds : Comparison → Ordering → Bool
  | less, o => o == .lt
  | lessOrEqual, o => o != .gt
  | equal, o => o == .eq
  | notEqual, o => o != .eq
  | greaterOrEqual, o => o != .lt
  | greater, o => o == .gt

/-- The sign of the relation. -/
def symbol : Comparison → String
  | less => "<"
  | lessOrEqual => "<="
  | equal => "=="
  | notEqual => "!="
  | greaterOrEqual => ">="
  | greater => ">"

/-- The relation with a given sign. -/
def ofSymbol? (s : String) : Option Comparison :=
  [less, lessOrEqual, equal, notEqual, greaterOrEqual, greater].find? fun c => c.symbol == s

end Comparison

end ScopeFlow
