/-!
# Binary floating-point formats

A format is a precision and an exponent width. `BinaryFormat.round` gives the value of a format
nearest to a quotient of natural numbers; the operations of `Binary64` are exact quotients rounded
once. A value is kept as its bits, so every NaN and both zeros are told apart.
-/

namespace Concordance

/-- A binary interchange format: significant bits, the leading one included, and exponent bits. -/
structure BinaryFormat where
  precision : Nat
  exponentBits : Nat

/-- `num / den` rounded to the nearest natural number, a half to the even one. -/
def roundHalfEven (num den : Nat) : Nat :=
  let quotient := num / den
  let rest := num % den
  if 2 * rest < den then quotient
  else if den < 2 * rest then quotient + 1
  else quotient + quotient % 2

/-- The largest `e` with `2 ^ e ≤ num / den`, for positive arguments. -/
def floorLog2 (num den : Nat) : Int :=
  let guess : Int := (num.log2 : Int) - (den.log2 : Int)
  if num <<< (-guess).toNat < den <<< guess.toNat then guess - 1 else guess

/-- A value of a binary format, taken apart. -/
inductive Decoded where
  | nan
  | infinite (negative : Bool)
  /-- The value `significand * 2 ^ exponent`, negated when `negative` holds. -/
  | finite (negative : Bool) (significand : Nat) (exponent : Int)
  deriving DecidableEq

namespace BinaryFormat

def binary32 : BinaryFormat := ⟨24, 8⟩

def binary64 : BinaryFormat := ⟨53, 11⟩

variable (f : BinaryFormat)

/-- The exponent of the smallest positive value. -/
def minExponent : Int := 3 - (1 <<< (f.exponentBits - 1) : Nat) - (f.precision : Int)

/-- The weight of the lowest exponent bit, which is that of the leading significant bit. -/
def exponentUnit : Nat := 1 <<< (f.precision - 1)

/-- The bits of positive infinity; a NaN has larger ones. -/
def infinity : Nat := (1 <<< f.exponentBits - 1) * f.exponentUnit

def signWeight : Nat := f.exponentUnit <<< f.exponentBits

/-- The quiet NaN with no payload and a clear sign. -/
def quietNaN : Nat := f.infinity + f.exponentUnit / 2

def magnitude (bits : Nat) : Nat := bits % f.signWeight

def isNegative (bits : Nat) : Bool := f.signWeight ≤ bits

def isNaN (bits : Nat) : Bool := f.infinity < f.magnitude bits

def withSign (negative : Bool) (magnitude : Nat) : Nat :=
  if negative then f.signWeight + magnitude else magnitude

/-- The magnitude nearest to `num / den`, a tie going to the even one; infinity from half a unit
past the largest finite value. A significand that rounds up to the next power of two carries into
the exponent by itself. -/
def round (num den : Nat) : Nat :=
  if num = 0 then 0
  else
    let exponent := max (floorLog2 num den - (f.precision - 1 : Nat)) f.minExponent
    let significand := roundHalfEven (num <<< (-exponent).toNat) (den <<< exponent.toNat)
    min ((exponent - f.minExponent).toNat * f.exponentUnit + significand) f.infinity

def decode (bits : Nat) : Decoded :=
  let magnitude := f.magnitude bits
  if f.infinity < magnitude then .nan
  else if magnitude = f.infinity then .infinite (f.isNegative bits)
  else
    let biased := magnitude / f.exponentUnit
    let fraction := magnitude % f.exponentUnit
    if biased = 0 then .finite (f.isNegative bits) fraction f.minExponent
    else .finite (f.isNegative bits) (f.exponentUnit + fraction) (f.minExponent + (biased - 1 : Nat))

def ofInt (n : Int) : Nat := f.withSign (n < 0) (f.round n.natAbs 1)

/-- The bits, in format `f`, nearest to a decoded value. -/
def encode : Decoded → Nat
  | .nan => f.quietNaN
  | .infinite negative => f.withSign negative f.infinity
  | .finite negative significand exponent =>
      f.withSign negative (f.round (significand <<< exponent.toNat) (1 <<< (-exponent).toNat))

/-- A key that orders bits totally: negative values below positive ones, `-0` below `0`, and a NaN
outside the infinity of its sign. -/
def orderKey (bits : Nat) : Int :=
  if f.isNegative bits then -(f.magnitude bits : Int) - 1 else f.magnitude bits

end BinaryFormat

structure Binary64 where
  bits : UInt64
  deriving DecidableEq, Inhabited

namespace Binary64

open BinaryFormat (binary32 binary64)

def ofNatBits (bits : Nat) : Binary64 := ⟨UInt64.ofNat bits⟩

def isNaN (x : Binary64) : Bool := binary64.isNaN x.bits.toNat

def isInfinite (x : Binary64) : Bool := binary64.magnitude x.bits.toNat = binary64.infinity

def isZero (x : Binary64) : Bool := binary64.magnitude x.bits.toNat = 0

def decode (x : Binary64) : Decoded := binary64.decode x.bits.toNat

def ofInt (n : Int) : Binary64 := ofNatBits (binary64.ofInt n)

def neg (x : Binary64) : Binary64 := ⟨x.bits ^^^ 0x8000000000000000⟩

/-- Numeric equality: a NaN differs from itself and the zeros are equal. -/
protected def beq (x y : Binary64) : Bool :=
  !x.isNaN && !y.isNaN && (x.bits == y.bits || (x.isZero && y.isZero))

instance : BEq Binary64 := ⟨Binary64.beq⟩

/-- The total order of `BinaryFormat.orderKey`. -/
def totalCompare (x y : Binary64) : Ordering :=
  compare (binary64.orderKey x.bits.toNat) (binary64.orderKey y.bits.toNat)

def ofDecoded (d : Decoded) : Binary64 := ofNatBits (binary64.encode d)

protected def mul (x y : Binary64) : Binary64 :=
  match x.decode, y.decode with
  | .nan, _ | _, .nan => ofDecoded .nan
  | .infinite s, .infinite t => ofDecoded (.infinite (s != t))
  | .infinite s, .finite t m _ | .finite s m _, .infinite t =>
      ofDecoded (if m = 0 then .nan else .infinite (s != t))
  | .finite s m p, .finite t n q => ofDecoded (.finite (s != t) (m * n) (p + q))

/-- The exact quotient, rounded once. -/
protected def div (x y : Binary64) : Binary64 :=
  match x.decode, y.decode with
  | .nan, _ | _, .nan | .infinite _, .infinite _ => ofDecoded .nan
  | .infinite s, .finite t _ _ => ofDecoded (.infinite (s != t))
  | .finite s _ _, .infinite t => ofNatBits (binary64.withSign (s != t) 0)
  | .finite s m p, .finite t n q =>
      if n = 0 then ofDecoded (if m = 0 then .nan else .infinite (s != t))
      else ofNatBits (binary64.withSign (s != t)
        (binary64.round (m <<< (p - q).toNat) (n <<< (q - p).toNat)))

instance : Mul Binary64 := ⟨Binary64.mul⟩

instance : Div Binary64 := ⟨Binary64.div⟩

def pow10 (n : Nat) : Binary64 := ofNatBits (binary64.round (Nat.pow 10 n) 1)

def toFloat32 (x : Binary64) : Float32 := Float32.ofBits (UInt32.ofNat (binary32.encode x.decode))

end Binary64

/-! ### Single precision -/

namespace Single

open BinaryFormat (binary32)

def totalCompare (x y : Float32) : Ordering :=
  compare (binary32.orderKey x.toBits.toNat) (binary32.orderKey y.toBits.toNat)

def ofInt (n : Int) : Float32 := Float32.ofBits (UInt32.ofNat (binary32.ofInt n))

def decode (x : Float32) : Decoded := binary32.decode x.toBits.toNat

end Single

end Concordance
