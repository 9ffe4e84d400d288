import Concordance.Decimal.Numeral
import Concordance.Decimal.Shortest

/-!
# Layouts of decimals

How a shortest decimal becomes a numeral. A `Layout` holds all that a number format decides, and
`Layout.numeral?` is the only function that writes a floating-point value.
-/

namespace Concordance.Decimal

structure Layout where
  /-- Where a value halfway between two shortest decimals goes. -/
  tie : Tie
  /-- Whether a number whose first digit stands for this power of ten has no exponent. -/
  positional : Int → Bool
  /-- The fraction of a whole number written without an exponent. -/
  wholeFraction : List Digit

/-- Plain text: never an exponent, and no point in a whole number. -/
def plain : Layout where
  tie := .up
  positional _ := true
  wholeFraction := []

/-- JSON: always a point or an exponent, and no exponent while the first digit stands for a power of
ten from `10 ^ low` to `10 ^ high`. -/
def json (low high : Int) : Layout where
  tie := .even
  positional e := low ≤ e && e ≤ high
  wholeFraction := [.zero]

def significantDigits (coefficient : Nat) : List Digit :=
  ((Digit.ofNat coefficient).reverse.dropWhile (· = .zero)).reverse

namespace Layout

variable (layout : Layout)

/-- Digits whose first stands for `10 ^ e`, without an exponent. -/
def positionalNumeral (negative : Bool) (digits : List Digit) (e : Int) : Numeral :=
  if e < 0 then ⟨negative, [.zero], List.replicate (-e - 1).toNat .zero ++ digits, none⟩
  else if digits.length ≤ e.toNat + 1 then
    let padding := List.replicate (e.toNat + 1 - digits.length) Digit.zero
    ⟨negative, digits ++ padding, layout.wholeFraction, none⟩
  else ⟨negative, digits.take (e.toNat + 1), digits.drop (e.toNat + 1), none⟩

def ofDecimal (negative : Bool) (d : Decimal) : Numeral :=
  let e : Int := (width d.coefficient : Int) - 1 + d.exponent
  let digits := significantDigits d.coefficient
  if layout.positional e then layout.positionalNumeral negative digits e
  else ⟨negative, digits.take 1, digits.drop 1, some e⟩

def numeral? (f : BinaryFormat) : Decoded → Option Numeral
  | .nan | .infinite _ => none
  | .finite negative significand exponent =>
      if significand = 0 then some ⟨negative, [.zero], layout.wholeFraction, none⟩
      else some (layout.ofDecimal negative (shortest f layout.tie significand exponent))

end Layout

def plainText (f : BinaryFormat) (d : Decoded) : String :=
  match plain.numeral? f d with
  | some n => String.ofList n.text
  | none =>
      match d with
      | .infinite true => "-inf"
      | .infinite false => "inf"
      | _ => "NaN"

end Concordance.Decimal

namespace Concordance

def Binary64.text (x : Binary64) : String := Decimal.plainText .binary64 x.decode

def Single.text (x : Float32) : String := Decimal.plainText .binary32 (Single.decode x)

def Binary64.numeral? (x : Binary64) : Option Numeral :=
  (Decimal.json (-5) 15).numeral? .binary64 x.decode

/-- The JSON numeral of a single-precision value; fewer of its whole numbers are written out than in
double precision, and one more power of ten below one. -/
def Single.numeral? (x : Float32) : Option Numeral :=
  (Decimal.json (-6) 12).numeral? .binary32 (Single.decode x)

end Concordance
