/-
The fewest decimal digits that read back to a given float.

A positive finite float is `mantissa * 2 ^ exponent`, and every real closer to
it than to its neighbours rounds to it.  `Binary.shortest` looks for a decimal
in that interval on coarser grids first, and takes the nearer one of two.
-/

namespace Horn

/-- The positive real `mantissa * 2 ^ exponent`, stored with the format's 53
bits of precision. -/
structure Binary where
  mantissa : Nat
  exponent : Int
deriving Repr, DecidableEq

inductive Magnitude
  | zero
  | finite (value : Binary)
  | infinite
  | notANumber
deriving Repr, DecidableEq

def magnitude (number : Float) : Magnitude :=
  let pattern : Nat := number.toBits.toNat
  let fraction : Nat := pattern % Nat.pow 2 52
  let power : Nat := pattern / Nat.pow 2 52 % Nat.pow 2 11
  if power = 2047 then
    if fraction = 0 then .infinite else .notANumber
  else if power = 0 then
    if fraction = 0 then .zero else .finite ⟨fraction, -1074⟩
  else .finite ⟨Nat.pow 2 52 + fraction, (power : Int) - 1075⟩

/-- Whether the sign bit is set; so negative zero counts as negative. -/
def isNegative (number : Float) : Bool :=
  number.toBits.toNat / Nat.pow 2 63 = 1

structure Decimal where
  digits : Nat
  exponent : Int
deriving Repr, DecidableEq

/-- How a decimal exactly halfway between two candidates is decided. -/
inductive Tie
  | upward
  | toEven
deriving Repr, DecidableEq

/-- The reals that round to one float, as fractions over a shared denominator.
The ends belong to the interval exactly when `closed` holds. -/
structure Interval where
  low : Nat
  middle : Nat
  high : Nat
  denominator : Nat
  closed : Bool
deriving Repr, DecidableEq

/-- A power of two has its lower neighbour at half the distance of the upper
one, unless it is the least normal float. -/
def Binary.interval (value : Binary) : Interval :=
  let unit := Nat.pow 2 value.exponent.toNat
  let below := if value.mantissa = Nat.pow 2 52 ∧ -1074 < value.exponent then 1 else 2
  ⟨(4 * value.mantissa - below) * unit, 4 * value.mantissa * unit,
    (4 * value.mantissa + 2) * unit, 4 * Nat.pow 2 (-value.exponent).toNat,
    value.mantissa % 2 = 0⟩

def digitCount (n : Nat) : Nat :=
  (Nat.toDigits 10 n).length

/-- The exponent of the leading decimal digit of the interval's middle. -/
def Interval.leading (interval : Interval) : Int :=
  if interval.denominator ≤ interval.middle then
    (digitCount (interval.middle / interval.denominator) : Int) - 1
  else -(digitCount ((interval.denominator - 1) / interval.middle) : Int)

/-- Whether `steps * 10 ^ grid` rounds to the float. -/
def Interval.admits (interval : Interval) (grid : Int) (steps : Nat) : Bool :=
  let candidate := steps * interval.denominator * Nat.pow 10 grid.toNat
  let low := interval.low * Nat.pow 10 (-grid).toNat
  let high := interval.high * Nat.pow 10 (-grid).toNat
  if interval.closed then low ≤ candidate && candidate ≤ high
  else low < candidate && candidate < high

/-- The multiple of `10 ^ grid` nearest to the middle among those that round
to the float; only the two neighbours of the middle need to be tried. -/
def Interval.onGrid? (interval : Interval) (tie : Tie) (grid : Int) : Option Nat :=
  let step := interval.denominator * Nat.pow 10 grid.toNat
  let middle := interval.middle * Nat.pow 10 (-grid).toNat
  let down := middle / step
  let remainder := middle % step
  match 0 < down && interval.admits grid down, interval.admits grid (down + 1) with
  | true, true =>
      if 2 * remainder < step then some down
      else if step < 2 * remainder then some (down + 1)
      else match tie with
        | .upward => some (down + 1)
        | .toEven => some (if down % 2 = 0 then down else down + 1)
  | true, false => some down
  | false, true => some (down + 1)
  | false, false => none

/-- The first grid with a hit, starting from one that keeps a single digit.
Seventeen digits always suffice, so the fallback is never taken for a float. -/
def Interval.shortestUpTo (interval : Interval) (tie : Tie) :
    Nat → Int → Decimal
  | 0, grid =>
      ⟨interval.middle * Nat.pow 10 (-grid).toNat /
        (interval.denominator * Nat.pow 10 grid.toNat), grid⟩
  | fuel + 1, grid =>
      match interval.onGrid? tie grid with
      | some digits => ⟨digits, grid⟩
      | none => interval.shortestUpTo tie fuel (grid - 1)

def Decimal.trimUpTo (decimal : Decimal) : Nat → Decimal
  | 0 => decimal
  | fuel + 1 =>
      if 0 < decimal.digits ∧ decimal.digits % 10 = 0 then
        Decimal.trimUpTo ⟨decimal.digits / 10, decimal.exponent + 1⟩ fuel
      else decimal

/-- The decimal with the fewest digits that rounds to `value`, and the nearest
one of those. -/
def Binary.shortest (tie : Tie) (value : Binary) : Decimal :=
  let interval := value.interval
  (interval.shortestUpTo tie 17 interval.leading).trimUpTo 17

end Horn
