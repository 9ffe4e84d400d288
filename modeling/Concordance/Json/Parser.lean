import Concordance.Json.Syntax

/-!
# Reading JSON texts

A recursive-descent reader for the grammar of RFC 8259 and nothing more: no comments, no trailing
commas, no raw control characters in strings, no leading zeros. `Json.parse?` reads a whole text.
-/

namespace Concordance.Json

def isBlank (c : Char) : Bool := c == ' ' || c == '\t' || c == '\n' || c == '\r'

def skipBlank (cs : List Char) : List Char := cs.dropWhile isBlank

/-! ### Strings -/

/-- A character of a string literal: as such, or as a 16-bit code unit. -/
inductive StringUnit where
  | char (c : Char)
  | code (unit : Nat)

def hexValue? (c : Char) : Option Nat :=
  if '0' ≤ c ∧ c ≤ '9' then some (c.toNat - '0'.toNat)
  else if 'a' ≤ c ∧ c ≤ 'f' then some (c.toNat - 'a'.toNat + 10)
  else if 'A' ≤ c ∧ c ≤ 'F' then some (c.toNat - 'A'.toNat + 10)
  else none

def escape? : Char → Option Char
  | '"' => some '"'
  | '\\' => some '\\'
  | '/' => some '/'
  | 'b' => some '\x08'
  | 'f' => some '\x0c'
  | 'n' => some '\n'
  | 'r' => some '\r'
  | 't' => some '\t'
  | _ => none

/-- The units of a literal up to its closing quote, and what follows it. -/
def stringUnits? : List Char → Option (List StringUnit × List Char)
  | [] => none
  | '"' :: rest => some ([], rest)
  | '\\' :: 'u' :: a :: b :: c :: d :: rest =>
      match hexValue? a, hexValue? b, hexValue? c, hexValue? d with
      | some a, some b, some c, some d =>
          (stringUnits? rest).map fun (units, after) =>
            (.code (4096 * a + 256 * b + 16 * c + d) :: units, after)
      | _, _, _, _ => none
  | '\\' :: e :: rest =>
      match escape? e with
      | some c => (stringUnits? rest).map fun (units, after) => (.char c :: units, after)
      | none => none
  | c :: rest =>
      if c < ' ' then none
      else (stringUnits? rest).map fun (units, after) => (.char c :: units, after)

def isHighSurrogate (unit : Nat) : Bool := 0xD800 ≤ unit && unit < 0xDC00

def isLowSurrogate (unit : Nat) : Bool := 0xDC00 ≤ unit && unit < 0xE000

/-- The characters of a literal: a high surrogate joins the low one right after it. -/
def assemble : List StringUnit → Option (List Char)
  | [] => some []
  | .char c :: rest => (assemble rest).map (c :: ·)
  | .code high :: .code low :: rest =>
      if isHighSurrogate high then
        if isLowSurrogate low then
          (assemble rest).map (Char.ofNat (0x10000 + 1024 * (high - 0xD800) + (low - 0xDC00)) :: ·)
        else none
      else if isLowSurrogate high then none
      else (assemble (.code low :: rest)).map (Char.ofNat high :: ·)
  | .code unit :: rest =>
      if isHighSurrogate unit || isLowSurrogate unit then none
      else (assemble rest).map (Char.ofNat unit :: ·)

def literal? (cs : List Char) : Option (Literal × List Char) :=
  (stringUnits? cs).map fun (units, rest) => ((assemble units).map String.ofList, rest)

/-! ### Numbers -/

def digits (cs : List Char) : List Digit × List Char :=
  ((cs.takeWhile Char.isDigit).filterMap Digit.ofChar?, cs.dropWhile Char.isDigit)

/-- The whole part of a number: a zero by itself, or digits that start with another one. -/
def whole? (cs : List Char) : Option (List Digit × List Char) :=
  match digits cs with
  | ([], _) => none
  | (first :: second :: more, rest) =>
      if first = .zero then none else some (first :: second :: more, rest)
  | (short, rest) => some (short, rest)

/-- The fraction of a number, which has digits when there is a point. -/
def fraction? : List Char → Option (List Digit × List Char)
  | '.' :: cs =>
      match digits cs with
      | ([], _) => none
      | found => some found
  | cs => some ([], cs)

def exponentSign : List Char → Bool × List Char
  | '-' :: rest => (true, rest)
  | '+' :: rest => (false, rest)
  | rest => (false, rest)

/-- The exponent of a number, which has digits when there is one. -/
def exponent? : List Char → Option (Option Int × List Char)
  | c :: cs =>
      if c = 'e' ∨ c = 'E' then
        let (negative, cs) := exponentSign cs
        match digits cs with
        | ([], _) => none
        | (found, rest) =>
            let e : Int := Digit.number found
            some (some (if negative then -e else e), rest)
      else some (none, c :: cs)
  | [] => some (none, [])

def sign : List Char → Bool × List Char
  | '-' :: rest => (true, rest)
  | rest => (false, rest)

def numeral? (cs : List Char) : Option (Numeral × List Char) := do
  let (negative, cs) := sign cs
  let (whole, cs) ← whole? cs
  let (fraction, cs) ← fraction? cs
  let (exponent, cs) ← exponent? cs
  pure (⟨negative, whole, fraction, exponent⟩, cs)

/-! ### Values -/

mutual

/-- A value with blanks before it, and what follows it. The fuel bounds the calls. -/
def value? : (fuel : Nat) → List Char → Option (Json × List Char)
  | 0, _ => none
  | fuel + 1, cs =>
      match skipBlank cs with
      | 'n' :: 'u' :: 'l' :: 'l' :: rest => some (.null, rest)
      | 't' :: 'r' :: 'u' :: 'e' :: rest => some (.bool true, rest)
      | 'f' :: 'a' :: 'l' :: 's' :: 'e' :: rest => some (.bool false, rest)
      | '"' :: rest => (literal? rest).map fun (s, rest) => (.string s, rest)
      | '[' :: rest =>
          match skipBlank rest with
          | ']' :: rest => some (.array [], rest)
          | rest => (items? fuel rest).map fun (items, rest) => (.array items, rest)
      | '\x7b' :: rest =>
          match skipBlank rest with
          | '\x7d' :: rest => some (.object [], rest)
          | rest => (members? fuel rest).map fun (members, rest) => (.object members, rest)
      | cs => (numeral? cs).map fun (n, rest) => (.number n, rest)

def items? : (fuel : Nat) → List Char → Option (List Json × List Char)
  | 0, _ => none
  | fuel + 1, cs =>
      match value? fuel cs with
      | none => none
      | some (item, rest) =>
          match skipBlank rest with
          | ',' :: rest => (items? fuel rest).map fun (items, rest) => (item :: items, rest)
          | ']' :: rest => some ([item], rest)
          | _ => none

def members? : (fuel : Nat) → List Char → Option (List (Literal × Json) × List Char)
  | 0, _ => none
  | fuel + 1, cs =>
      match skipBlank cs with
      | '"' :: rest =>
          match literal? rest with
          | none => none
          | some (key, rest) =>
              match skipBlank rest with
              | ':' :: rest =>
                  match value? fuel rest with
                  | none => none
                  | some (item, rest) =>
                      match skipBlank rest with
                      | ',' :: rest =>
                          (members? fuel rest).map fun (members, rest) =>
                            ((key, item) :: members, rest)
                      | '\x7d' :: rest => some ([(key, item)], rest)
                      | _ => none
              | _ => none
      | _ => none

end

/-- The value of a whole text, blanks around it allowed. Every second call consumes a character, so
the fuel is never short. -/
def parse? (text : String) : Option Json :=
  let cs := text.toList
  match value? (2 * cs.length + 1) cs with
  | some (json, rest) => if (skipBlank rest).isEmpty then some json else none
  | none => none

end Concordance.Json
