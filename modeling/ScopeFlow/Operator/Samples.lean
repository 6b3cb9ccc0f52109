import ScopeFlow.Operator.Basic

/-!
# Sample leaf programs

Small operators for trying graphs out: arithmetic on a variable, draws from a
random source, failures, removal of a variable, and requests made from inside
a run. Each comes with the parameters that it reads and writes.
-/

namespace ScopeFlow.Sample

/-- A leaf program with its parameters. -/
structure Spec where
  parameters : List Parameter
  program : Leaf

/-- Squares `X`. -/
def square : Spec where
  parameters := [.lookup "X" .double]
  program := .double "X" fun x => .set "X" (.double (x * x)) .done

/-- Writes the square of `X` to `Quality` and adds one to `X`. -/
def evaluate : Spec where
  parameters := [.lookup "X" .double, .lookup "Quality" .double]
  program := .double "X" fun x =>
    .set "Quality" (.double (x * x)) (.set "X" (.double (x + 1)) .done)

/-- The integer that a draw gives. -/
def drawn : List Random.Answer → Int64
  | [.word w] => w.toUInt64.toInt64
  | [.doubleWord w] => w.toInt64
  | _ => 0

/-- Draws once from `Random`, one word or two, and writes the integer to
`Result`. -/
def draw (wide : Bool) : Spec where
  parameters := [.lookup "Random" .random, .lookup "Result" .int]
  program := .random "Random" [if wide then .doubleWord else .word] fun answers =>
    .set "Result" (.int (drawn answers)) .done

/-- Fails. -/
def failing (message : String) : Spec where
  parameters := []
  program := .fail message

/-- Removes the variable that `Target` stands for. -/
def remover : Spec where
  parameters := [.lookup "Target" .any]
  program := .remove "Target" .done

/-- How a signal ends. -/
inductive Ending where
  | goOn
  /-- Fail as cancelled if the token is. -/
  | check
  | cancelled
  | fail
deriving DecidableEq

/-- The last part of a signal. -/
def Ending.program : Ending → Leaf
  | goOn => .done
  | check => .isCancelled fun c => if c then .cancelled else .done
  | cancelled => .cancelled
  | fail => .fail "signalled"

/-- A request, if any, and then an ending. -/
def signalling (request : Option Request) (ending : Ending) : Leaf :=
  match request with
  | some r => .request r ending.program
  | none => ending.program

/-- Makes a request and ends as told; with a time given, only if `Tick` holds
just that integer. -/
def signal (request : Option Request) (ending : Ending) (time : Option Int64) : Spec where
  parameters := [.lookup "Tick" .int]
  program := match time with
    | none => signalling request ending
    | some t => .optional "Tick" fun v =>
      if v.bind Value.int? = some t then signalling request ending else .done

/-- A sample as an operator of a name. -/
def Spec.operator (spec : Spec) (name : String) : Operator :=
  ⟨name, ⟨spec.parameters⟩, none, .leaf spec.program⟩

end ScopeFlow.Sample
