/-!
Double-precision numbers as exact ratios. A finite double is `significand · 2 ^ exponent`;
`ofRatio` is the nearest double to a ratio, a half going to the even neighbour. All arithmetic
is on natural numbers, and a double is its 64-bit pattern.
-/

namespace ManifestSearch.Decimal

structure Double where
  bits : UInt64
deriving DecidableEq, Inhabited

/-- A finite non-negative double as `significand · 2 ^ exponent`. -/
structure Scaled where
  significand : Nat
  exponent : Int
deriving DecidableEq

/-- `numerator / denominator · 2 ^ exponent` as a ratio of natural numbers. -/
def scaledRatio (numerator denominator : Nat) (exponent : Int) : Nat × Nat :=
  match exponent with
  | .ofNat up => (numerator * Nat.pow 2 up, denominator)
  | .negSucc down => (numerator, denominator * Nat.pow 2 (down + 1))

/-- The nearest whole number to a ratio, a half going to the even one. -/
def nearestEven (numerator denominator : Nat) : Nat :=
  let whole := numerator / denominator
  let twice := 2 * (numerator % denominator)
  if twice > denominator ∨ (twice = denominator ∧ whole % 2 = 1) then whole + 1 else whole

namespace Double

def infinityBits : Nat := 0x7ff0000000000000

def signBit : Nat := 0x8000000000000000

def ofMagnitude (negative : Bool) (magnitude : Nat) : Double :=
  ⟨(magnitude + if negative then signBit else 0).toUInt64⟩

def isNegative (value : Double) : Bool := signBit ≤ value.bits.toNat

/-- The pattern without its sign. -/
def magnitude (value : Double) : Nat := value.bits.toNat % signBit

def isFinite (value : Double) : Bool := value.magnitude < infinityBits

def isInfinite (value : Double) : Bool := value.magnitude = infinityBits

def isZero (value : Double) : Bool := value.magnitude = 0

def negate (value : Double) : Double :=
  ofMagnitude (!value.isNegative) value.magnitude

def infinity (negative : Bool) : Double := ofMagnitude negative infinityBits

def nan : Double := ⟨0x7ff8000000000000⟩

/-- The size of a finite double. Below the smallest exponent the leading bit is not implied. -/
def scaled (value : Double) : Scaled :=
  let fraction : Nat := value.magnitude % Nat.pow 2 52
  let biased : Nat := value.magnitude / Nat.pow 2 52
  if biased = 0 then ⟨fraction, -1074⟩ else ⟨fraction + Nat.pow 2 52, (biased : Int) - 1075⟩

/-- The exponent at which the significand of a ratio has 53 bits, or the smallest exponent. -/
def exponentFor (numerator denominator : Nat) : Int :=
  let guess := (numerator.log2 : Int) - denominator.log2 - 53
  let ratio := scaledRatio numerator denominator (-guess)
  let exponent := if ratio.1 / ratio.2 < Nat.pow 2 53 then guess else guess + 1
  max exponent (-1074)

/-- The nearest double to a non-negative ratio; infinity where it is out of range. -/
def ofRatio (negative : Bool) (numerator denominator : Nat) : Double :=
  if numerator = 0 then ofMagnitude negative 0
  else
    let exponent := exponentFor numerator denominator
    let ratio := scaledRatio numerator denominator (-exponent)
    let pattern := (exponent + 1074).toNat * Nat.pow 2 52 + nearestEven ratio.1 ratio.2
    ofMagnitude negative (min pattern infinityBits)

/-- The nearest double to `digits · 10 ^ exponent`. An exponent far out of range is decided
without building the power. -/
def ofDecimal (negative : Bool) (digits : Nat) (exponent : Int) : Double :=
  let size := (digits.log2 : Int)
  if digits = 0 then ofMagnitude negative 0
  else if exponent > 310 then infinity negative
  else if exponent < -400 - size then ofMagnitude negative 0
  else match exponent with
    | .ofNat up => ofRatio negative (digits * Nat.pow 10 up) 1
    | .negSucc down => ofRatio negative digits (Nat.pow 10 (down + 1))

def mul (left right : Double) : Double :=
  let a := left.scaled
  let b := right.scaled
  let ratio := scaledRatio (a.significand * b.significand) 1 (a.exponent + b.exponent)
  ofRatio (left.isNegative != right.isNegative) ratio.1 ratio.2

def div (left right : Double) : Double :=
  let a := left.scaled
  let b := right.scaled
  let ratio := scaledRatio a.significand b.significand (a.exponent - b.exponent)
  ofRatio (left.isNegative != right.isNegative) ratio.1 ratio.2

end Double

end ManifestSearch.Decimal
