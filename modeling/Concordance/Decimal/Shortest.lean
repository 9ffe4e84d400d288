import Concordance.Binary

/-!
# Shortest decimal digits

The decimal that stands for a binary value: of the powers of ten that have a multiple inside the
interval of reals rounding to the value, the largest is taken, and on it the multiple nearest to
the value.
-/

namespace Concordance

/-- The decimal `coefficient * 10 ^ exponent`. -/
structure Decimal where
  coefficient : Nat
  exponent : Int
  deriving DecidableEq

namespace Decimal

inductive Tie where
  | even
  | up
  deriving DecidableEq

def width (n : Nat) : Nat := (Nat.toDigits 10 n).length

/-- An exponent `k` with `num / den < 10 ^ k`, at most one too large. -/
def magnitudeBound (num den : Nat) : Int :=
  if den ≤ num then width (num / den) else 2 - (width (den / num) : Int)

/-- The reals that round to a binary value, in quarters of its unit `2 ^ exponent`. -/
structure Interval where
  low : Nat
  value : Nat
  high : Nat
  /-- Whether the ends round to the value as well. -/
  closed : Bool

/-- Half a unit to each side, but a quarter below a power of two, where the units get smaller. -/
def Interval.around (f : BinaryFormat) (significand : Nat) (exponent : Int) : Interval where
  low := 4 * significand -
    (if significand = f.exponentUnit ∧ f.minExponent < exponent then 1 else 2)
  value := 4 * significand
  high := 4 * significand + 2
  closed := significand % 2 == 0

/-- The multiple of `10 ^ k` inside the interval that is nearest to the value, when there is one.
The interval's quarters are worth `2 ^ (exponent - 2)`. -/
def Interval.multiple? (i : Interval) (exponent : Int) (tie : Tie) (k : Int) : Option Nat :=
  let scale := Nat.pow 10 (-k).toNat <<< (exponent - 2).toNat
  let grid := Nat.pow 10 k.toNat <<< (2 - exponent).toNat
  let inside (n : Nat) : Bool :=
    if i.closed then i.low * scale ≤ n * grid && n * grid ≤ i.high * scale
    else i.low * scale < n * grid && n * grid < i.high * scale
  let below := i.value * scale / grid
  let rest := i.value * scale % grid
  match inside below, inside (below + 1) with
  | false, false => none
  | true, false => some below
  | false, true => some (below + 1)
  | true, true =>
      if 2 * rest < grid then some below
      else if grid < 2 * rest then some (below + 1)
      else match tie with
        | .up => some (below + 1)
        | .even => some (below + below % 2)

/-- The first of the exponents `k`, `k - 1`, … that has a multiple in the interval. -/
def Interval.coarsest (i : Interval) (exponent : Int) (tie : Tie) (k : Int) : Nat → Option Decimal
  | 0 => none
  | steps + 1 =>
      match i.multiple? exponent tie k with
      | some n => some ⟨n, k⟩
      | none => i.coarsest exponent tie (k - 1) steps

/-- The shortest decimal that rounds to `significand * 2 ^ exponent`, for a positive significand.
Twenty steps reach a grid finer than the interval, in single and in double precision. -/
def shortest (f : BinaryFormat) (tie : Tie) (significand : Nat) (exponent : Int) : Decimal :=
  let bound := magnitudeBound (significand <<< exponent.toNat) (1 <<< (-exponent).toNat)
  ((Interval.around f significand exponent).coarsest exponent tie bound 20).getD ⟨0, 0⟩

end Decimal

end Concordance
