import ManifestSearch.Decimal.Double

/-!
The fewest decimal digits that read back. The reals that round to a double form an interval
around it; `shortest` takes the coarsest decimal grid with a point inside, and there the point
nearest to the double.
-/

namespace ManifestSearch.Decimal

/-- `digits · 10 ^ exponent`, with no zero at the end of the digits. -/
structure Shortest where
  digits : Nat
  exponent : Int
deriving DecidableEq

/-- Whether `left / leftUnder ≤ right / rightUnder`, or `<` if the bound is left out. -/
def within (inclusive : Bool) (left leftUnder right rightUnder : Nat) : Bool :=
  if inclusive then left * rightUnder ≤ right * leftUnder
  else left * rightUnder < right * leftUnder

/-- The reals that round to a positive double, in quarters of its last binary place. The ends
belong to it iff the significand is even. -/
structure Interval where
  low : Nat
  middle : Nat
  high : Nat
  exponent : Int
  closed : Bool
deriving DecidableEq

/-- Just above a power of two the lower neighbour is half as far away. -/
def Interval.of (scaled : Scaled) : Interval :=
  let atPower := scaled.significand = Nat.pow 2 52 ∧ scaled.exponent > -1074
  { low := 4 * scaled.significand - if atPower then 1 else 2
    middle := 4 * scaled.significand
    high := 4 * scaled.significand + 2
    exponent := scaled.exponent - 2
    closed := scaled.significand % 2 = 0 }

def gridPoint (count : Nat) (exponent : Int) : Nat × Nat :=
  match exponent with
  | .ofNat up => (count * Nat.pow 10 up, 1)
  | .negSucc down => (count, Nat.pow 10 (down + 1))

def Interval.holds (interval : Interval) (count : Nat) (exponent : Int) : Bool :=
  let point := gridPoint count exponent
  let low := scaledRatio interval.low 1 interval.exponent
  let high := scaledRatio interval.high 1 interval.exponent
  count > 0 && within interval.closed low.1 low.2 point.1 point.2 &&
    within interval.closed point.1 point.2 high.1 high.2

/-- The point of a grid nearest to the double among its two neighbours there, an exact middle
going to the even count. -/
def Interval.nearestOn? (interval : Interval) (exponent : Int) : Option Nat :=
  let middle := scaledRatio interval.middle 1 interval.exponent
  let unit := gridPoint 1 exponent
  let numerator := middle.1 * unit.2
  let denominator := middle.2 * unit.1
  let below := numerator / denominator
  let nearest := nearestEven numerator denominator
  let other := if nearest = below then below + 1 else below
  if interval.holds nearest exponent then some nearest
  else if interval.holds other exponent then some other
  else none

/-- Goes from a grid to finer ones until a point lies in the interval. -/
def Interval.search (interval : Interval) : Nat → Int → Shortest
  | 0, exponent => ⟨(interval.nearestOn? exponent).getD 0, exponent⟩
  | steps + 1, exponent =>
      match interval.nearestOn? exponent with
      | some count => ⟨count, exponent⟩
      | none => interval.search steps (exponent - 1)

/-- A decimal exponent above that of the number, from the count of its binary places. -/
def topExponent (scaled : Scaled) : Int :=
  let places := (scaled.significand.log2 : Int) + scaled.exponent
  places * 30103 / 100000 + 2

def Shortest.trim (limit : Nat) (shortest : Shortest) : Shortest :=
  match limit with
  | 0 => shortest
  | limit + 1 =>
      if shortest.digits % 10 = 0 ∧ shortest.digits ≠ 0 then
        Shortest.trim limit ⟨shortest.digits / 10, shortest.exponent + 1⟩
      else shortest

def Double.shortest (value : Double) : Shortest :=
  if value.isZero then ⟨0, 0⟩
  else ((Interval.of value.scaled).search 24 (topExponent value.scaled)).trim 20

end ManifestSearch.Decimal
