/-!
# Decimal numerals

A `Numeral` is a number as it is written: a sign, whole digits, fraction digits and an exponent.
-/

namespace Concordance

abbrev Digit := Fin 10

namespace Digit

def zero : Digit := ⟨0, by decide⟩

def char (d : Digit) : Char := Nat.digitChar d

def ofChar? (c : Char) : Option Digit :=
  if c.isDigit then some (Fin.ofNat 10 (c.toNat - '0'.toNat)) else none

def ofNat (n : Nat) : List Digit := (Nat.toDigits 10 n).filterMap ofChar?

def number (digits : List Digit) : Nat := digits.foldl (fun n d => 10 * n + d.val) 0

end Digit

/-- A number literal; a literal without a point has no fraction digits. -/
structure Numeral where
  negative : Bool
  whole : List Digit
  fraction : List Digit
  exponent : Option Int
  deriving DecidableEq

namespace Numeral

def ofInt (n : Int) : Numeral := ⟨n < 0, Digit.ofNat n.natAbs, [], none⟩

def fractionText : List Digit → List Char
  | [] => []
  | digits => '.' :: digits.map Digit.char

/-- The text of an exponent, which always has its sign. -/
def exponentText : Option Int → List Char
  | none => []
  | some e => 'e' :: (if e < 0 then '-' else '+') :: (Digit.ofNat e.natAbs).map Digit.char

def text (n : Numeral) : List Char :=
  (if n.negative then ['-'] else []) ++ n.whole.map Digit.char ++ fractionText n.fraction ++
    exponentText n.exponent

end Numeral

end Concordance
