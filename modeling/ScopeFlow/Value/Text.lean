import ScopeFlow.Value.Basic
import ScopeFlow.Decimal.Shortest
import ScopeFlow.Text.Quoted

/-!
# Values as text

The text by which a value is shown to a person: its kind, and its contents in
parentheses. Numbers are written with the fewest digits that read back.
-/

namespace ScopeFlow

/-- Digits written as text. -/
def digitText (ds : List Nat) : String := String.ofList (ds.map Nat.digitChar)

/-- A decimal in positional notation, with at least one digit on each side of
the point. -/
def positional (d : Decimal.Numeral) : String :=
  match d.exponent with
  | .ofNat k =>
    let whole := d.digits.take (k + 1)
    let rest := d.digits.drop (k + 1)
    digitText (whole ++ List.replicate (k + 1 - whole.length) 0) ++ "." ++
      digitText (if rest.isEmpty then [0] else rest)
  | .negSucc k => "0." ++ digitText (List.replicate k 0 ++ d.digits)

/-- A decimal with one digit before the point and an exponent. -/
def scientific (d : Decimal.Numeral) : String :=
  let fraction := d.digits.drop 1
  digitText (d.digits.take 1) ++ (if fraction.isEmpty then "" else "." ++ digitText fraction) ++
    "e" ++ toString d.exponent

/-- A decimal is written positionally from `10 ^ -4` up to `10 ^ 16`, and with
an exponent outside. -/
def decimalText (d : Decimal.Numeral) : String :=
  if -4 ≤ d.exponent ∧ d.exponent < 16 then positional d else scientific d

/-- A double as text. -/
def doubleText (x : Float) : String :=
  let bits := x.toBits.toNat
  let exponent := bits >>> 52 % 2048
  let fraction := bits % 1 <<< 52
  let sign := if bits >>> 63 = 1 then "-" else ""
  if exponent = 2047 then
    if fraction = 0 then sign ++ "inf" else "NaN"
  else if exponent = 0 ∧ fraction = 0 then sign ++ "0.0"
  else sign ++ decimalText (Decimal.shortest (.ofFields exponent fraction))

/-- A boolean as text. -/
def boolText (b : Bool) : String := if b then "true" else "false"

/-- A random source as text: its seed and how many draws it has served. -/
def Random.Source.text (r : Source) : String :=
  Text.recordText "RandomSource" [("seed", toString r.seed), ("draws", toString r.draws)]

/-- A value as text. -/
def Value.text : Value → String
  | bool b => "Bool(" ++ boolText b ++ ")"
  | int i => "Int(" ++ toString i.toInt ++ ")"
  | double x => "Double(" ++ doubleText x ++ ")"
  | string s => "Str(" ++ Text.quoted s ++ ")"
  | bools bs => "BoolArray(" ++ Text.bracketed (bs.map boolText) ++ ")"
  | ints is => "IntArray(" ++ Text.bracketed (is.map fun i => toString i.toInt) ++ ")"
  | doubles xs => "DoubleArray(" ++ Text.bracketed (xs.map doubleText) ++ ")"
  | operator id => "Operator(OperatorId(" ++ toString id.index ++ "))"
  | random r => "Random(" ++ r.text ++ ")"

end ScopeFlow
