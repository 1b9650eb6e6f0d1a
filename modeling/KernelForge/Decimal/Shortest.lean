/-!
# Shortest decimals

`shortest` gives a decimal `digits * 10 ^ place` that reads back as a given binary value and lies on
the coarsest decimal grid on which any such decimal lies. The binary value is
`significand * 2 ^ exponent`; the reals that read back as it form an interval around it, whose ends
belong to it exactly when the significand is even. A decimal grid meets the interval only if one of
the two grid points around the value does, so two candidates a grid are enough.
-/
namespace KernelForge.Decimal

/-- The value `digits * 10 ^ place`. -/
structure Scaled where
  digits : Nat
  place : Int
  deriving DecidableEq

/-- A value between two ends, each a natural multiple of the common unit `2 ^ unit`. -/
structure Interval where
  low : Nat
  value : Nat
  high : Nat
  unit : Int
  closed : Bool

namespace Interval

/-- The reals that round to `significand * 2 ^ exponent`, in quarters of the last place. -/
def around (significand : Nat) (exponent : Int) (narrow : Bool) : Interval where
  low := 4 * significand - if narrow then 1 else 2
  value := 4 * significand
  high := 4 * significand + 2
  unit := exponent - 2
  closed := significand % 2 == 0

/-- A unit is `num / den` steps of the grid of the multiples of `10 ^ place`. -/
def num (i : Interval) (place : Int) : Nat :=
  Nat.pow 2 i.unit.toNat * Nat.pow 10 (-place).toNat

def den (i : Interval) (place : Int) : Nat :=
  Nat.pow 2 (-i.unit).toNat * Nat.pow 10 place.toNat

/-- Whether `d * 10 ^ place` lies between the ends. -/
def contains (i : Interval) (place : Int) (d : Nat) : Bool :=
  let n := i.num place
  let x := d * i.den place
  if i.closed then i.low * n ≤ x && x ≤ i.high * n else i.low * n < x && x < i.high * n

/-- Of the two grid points around the value the nearer one inside; the upper one in a tie. -/
def onGrid (i : Interval) (place : Int) : Option Nat :=
  let n := i.value * i.num place
  let m := i.den place
  let below := n / m
  match i.contains place below, i.contains place (below + 1) with
  | true, true => some (if 2 * (n % m) < m then below else below + 1)
  | true, false => some below
  | false, true => some (below + 1)
  | false, false => none

/-- Looks at the grids from `place` downwards. The value itself lies on the grid that is `steps`
below, so the last grid needs no test. -/
def firstHit (i : Interval) : Nat → Int → Scaled
  | 0, place => ⟨i.value * i.num place / i.den place, place⟩
  | steps + 1, place =>
    match i.onGrid place with
    | some d => ⟨d, place⟩
    | none => firstHit i steps (place - 1)

/-- Every point of the interval is smaller than `10 ^ topPlace`. -/
def topPlace (i : Interval) : Int :=
  let bits : Int := i.high.log2 + 1 + i.unit
  if bits ≤ 0 then -(-bits * 30102 / 100000) else bits * 30103 / 100000 + 1

/-- The multiples of `10 ^ bottomPlace` hold the value itself. -/
def bottomPlace (i : Interval) : Int := min i.unit 0

def shortest (i : Interval) : Scaled :=
  i.firstHit (i.topPlace - i.bottomPlace).toNat i.topPlace

end Interval

end KernelForge.Decimal
