/-!
# The shortest decimal of a binary number

A binary floating-point number stands for every real that rounds to it. Of
the decimals in that interval the shortest is the one with the fewest digits,
and of several with as few digits the nearest to the number itself; of two
equally near the larger.

A positive number is given exactly as a quotient of natural numbers, with the
distances to the ends of its interval over the same denominator. On the grid
of decimals with a given number of digits only the two neighbours of the
number have to be looked at: if any point of the grid lies in the interval,
one of them does.

* `shortest` finds the decimal of a quotient with its interval;
* `Magnitude.ofFields` reads such a quotient off the fields of a double.
-/

namespace ScopeFlow.Decimal

/-- A decimal number by its digits, read as `d.ddd` times a power of ten. -/
structure Numeral where
  digits : List Nat
  exponent : Int
deriving DecidableEq

/-- A positive number `num / den` with the interval from `(num - below) / den`
to `(num + above) / den`, ends included if `closed`. -/
structure Magnitude where
  num : Nat
  den : Nat
  below : Nat
  above : Nat
  closed : Bool
deriving DecidableEq

/-- The decimal digits of a number, most significant first. -/
def digitsOf (n : Nat) : List Nat := (Nat.toDigits 10 n).map fun c => c.toNat - 48

/-- How often `num` has to be taken ten times to reach `den`, within a bound. -/
def stepsUp : Nat → Nat → Nat → Nat
  | 0, _, _ => 0
  | bound + 1, num, den => if den ≤ num then 0 else stepsUp bound (num * 10) den + 1

/-- The exponent of the leading digit of `num / den`. Doubles need at most
324 steps. -/
def leading (num den : Nat) : Int :=
  if den ≤ num then ((digitsOf (num / den)).length : Int) - 1
  else -(stepsUp 400 num den : Int)

namespace Magnitude

/-- `c * 10 ^ e` as a quotient over the same denominator as the number: the
numerators of both sides of a comparison with it. -/
def scaled (x : Magnitude) (c : Nat) (e : Int) : Nat × Nat :=
  match e with
  | .ofNat k => (c * Nat.pow 10 k * x.den, 1)
  | .negSucc k => (c * x.den, Nat.pow 10 (k + 1))

/-- Does `c * 10 ^ e` lie in the interval? -/
def holds (x : Magnitude) (c : Nat) (e : Int) : Bool :=
  let (p, q) := x.scaled c e
  let low := (x.num - x.below) * q
  let high := (x.num + x.above) * q
  if x.closed then low ≤ p && p ≤ high else low < p && p < high

/-- The greatest multiple of `10 ^ e` not above the number. -/
def floorAt (x : Magnitude) (e : Int) : Nat :=
  match e with
  | .ofNat k => x.num / (x.den * Nat.pow 10 k)
  | .negSucc k => x.num * Nat.pow 10 (k + 1) / x.den

/-- Is the number at least as near to `(c + 1) * 10 ^ e` as to `c * 10 ^ e`? -/
def nearerAbove (x : Magnitude) (c : Nat) (e : Int) : Bool :=
  let (p, q) := x.scaled (2 * c + 1) e
  p ≤ 2 * x.num * q

/-- The point of the interval on the grid of step `10 ^ e`, if there is one. -/
def pointAt (x : Magnitude) (e : Int) : Option Nat :=
  let c := x.floorAt e
  match x.holds c e, x.holds (c + 1) e with
  | true, true => some (if x.nearerAbove c e then c + 1 else c)
  | true, false => some c
  | false, true => some (c + 1)
  | false, false => none

/-- Tries grids of finer and finer step, as many as `grids`; the last one is
taken as it comes. -/
def search (x : Magnitude) : Nat → Int → Nat × Int
  | 0, e => (x.floorAt e, e)
  | grids + 1, e =>
    match x.pointAt e with
    | some c => (c, e)
    | none => search x grids (e - 1)

end Magnitude

/-- The digits of a point of a grid, trailing zeros left out. -/
def Numeral.ofPoint (c : Nat) (e : Int) : Numeral :=
  let ds := digitsOf c
  ⟨(ds.reverse.dropWhile (· == 0)).reverse, e + ds.length - 1⟩

/-- The shortest decimal in the interval of a positive number. Seventeen
digits always suffice for a double. -/
def shortest (x : Magnitude) : Numeral :=
  let (c, e) := x.search 17 (leading x.num x.den)
  Numeral.ofPoint c e

/-- The number of a positive finite double, from its exponent field and its
fraction field. The neighbour below a power of two is half as far away. -/
def Magnitude.ofFields (exponent fraction : Nat) : Magnitude :=
  let m := if exponent = 0 then fraction else fraction + 1 <<< 52
  let q := if exponent = 0 then 1 else exponent
  let below := if exponent ≠ 0 ∧ fraction = 0 then 1 else 2
  let closed := m % 2 == 0
  if 1075 ≤ q then
    let k := 1 <<< (q - 1075)
    ⟨4 * m * k, 4, below * k, 2 * k, closed⟩
  else ⟨4 * m, 4 * 1 <<< (1075 - q), below, 2, closed⟩

end ScopeFlow.Decimal
