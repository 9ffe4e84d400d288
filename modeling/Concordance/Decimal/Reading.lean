import Concordance.Binary
import Concordance.Decimal.Numeral

/-!
# Reading numerals

What a numeral denotes. An integer literal in range denotes itself; every other numeral denotes the
double-precision value of its leading digits, as many as fit a 64-bit significand, scaled by one
power of ten. A numeral that overflows denotes nothing.
-/

namespace Concordance.Numeral

/-- The value of an integer literal between `-2 ^ 63` and `2 ^ 64 - 1`. A negative zero is no
integer. -/
def integer? (n : Numeral) : Option Int :=
  match n.fraction, n.exponent with
  | [], none =>
      let value := Digit.number n.whole
      if n.negative then
        if 0 < value ∧ Int64.minValue.toInt ≤ -(value : Int) then some (-(value : Int)) else none
      else if value < UInt64.size then some value else none
  | _, _ => none

structure Reading where
  significand : Nat
  scale : Int

namespace Reading

/-- Whether one more digit still fits a 64-bit significand. -/
def fits (r : Reading) (d : Digit) : Bool := 10 * r.significand + d.val < UInt64.size

/-- Whole digits: from the first that does not fit, each one only raises the scale. -/
def whole (r : Reading) : List Digit → Reading
  | [] => r
  | d :: rest =>
      if r.fits d then whole ⟨10 * r.significand + d.val, r.scale⟩ rest
      else ⟨r.significand, r.scale + (rest.length + 1)⟩

/-- Fraction digits: from the first that does not fit, they are dropped. -/
def fraction (r : Reading) : List Digit → Reading
  | [] => r
  | d :: rest =>
      if r.fits d then fraction ⟨10 * r.significand + d.val, r.scale - 1⟩ rest else r

end Reading

def reading (n : Numeral) : Reading :=
  let r := ((Reading.mk 0 0).whole n.whole).fraction n.fraction
  { r with scale := r.scale + n.exponent.getD 0 }

/-- `x * 10 ^ e` for a non-negative `x`, by multiplying or dividing once by a power of ten up to
`10 ^ 308`; a smaller exponent is worked off `308` at a time. An infinite result is refused. -/
def scaled? (x : Binary64) (e : Int) : Option Binary64 :=
  if 0 ≤ e then
    if 308 < e then if x.isZero then some x else none
    else
      let y := x * .pow10 e.toNat
      if y.isInfinite then none else some y
  else if -308 ≤ e then some (x / .pow10 (-e).toNat)
  else if x.isZero then some x
  else scaled? (x / .pow10 308) (e + 308)
termination_by (-e).toNat

def binary64? (n : Numeral) : Option Binary64 :=
  match n.integer? with
  | some i => some (.ofInt i)
  | none =>
      let r := n.reading
      (scaled? (.ofInt r.significand) r.scale).map fun x => if n.negative then x.neg else x

/-- The single-precision value a numeral denotes: an integer is rounded once, any other numeral by
way of its double-precision value. -/
def float32? (n : Numeral) : Option Float32 :=
  match n.integer? with
  | some i => some (Single.ofInt i)
  | none => n.binary64?.map Binary64.toFloat32

end Concordance.Numeral
