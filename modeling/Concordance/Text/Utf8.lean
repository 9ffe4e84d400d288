/-!
# UTF-8

The bytes of a text, and the text of any bytes: `lossyText` puts one replacement character in the
place of each longest run of bytes that starts a character but does not finish it.
-/

namespace Concordance

/-- Raw bytes, compared lexicographically. -/
abbrev Bytes := List UInt8

def utf8 (s : String) : Bytes := s.toUTF8.data.toList

namespace Utf8

/-- What a leading byte asks for: how many bytes follow, the range of the first of them, and the
bits the leading byte contributes. -/
structure Lead where
  following : Nat
  low : UInt8
  high : UInt8
  bits : Nat

/-- The ranges exclude overlong forms, surrogates and values past the last code point. -/
def lead? (b : UInt8) : Option Lead :=
  if b < 0x80 then some ⟨0, 0, 0, b.toNat⟩
  else if b < 0xC2 then none
  else if b < 0xE0 then some ⟨1, 0x80, 0xBF, b.toNat - 0xC0⟩
  else if b < 0xF0 then
    some ⟨2, if b = 0xE0 then 0xA0 else 0x80, if b = 0xED then 0x9F else 0xBF, b.toNat - 0xE0⟩
  else if b < 0xF5 then
    some ⟨3, if b = 0xF0 then 0x90 else 0x80, if b = 0xF4 then 0x8F else 0xBF, b.toNat - 0xF0⟩
  else none

/-- Reads up to `following` continuation bytes, the first between `low` and `high`: the number of
bytes read, and the code point when none was missing. -/
def continuation (bits : Nat) (low high : UInt8) : (following : Nat) → Bytes → Nat × Option Nat
  | 0, _ => (0, some bits)
  | _ + 1, [] => (0, none)
  | following + 1, b :: rest =>
      if low ≤ b ∧ b ≤ high then
        let (n, code) := continuation (64 * bits + (b.toNat - 0x80)) 0x80 0xBF following rest
        (n + 1, code)
      else (0, none)

/-- The first character of `b :: rest` with the number of bytes of `rest` it takes. -/
def decodeFirst (b : UInt8) (rest : Bytes) : Nat × Char :=
  match lead? b with
  | none => (0, '\uFFFD')
  | some l =>
      match continuation l.bits l.low l.high l.following rest with
      | (n, some code) => (n, Char.ofNat code)
      | (n, none) => (n, '\uFFFD')

end Utf8

/-- The characters of any bytes, ill-formed parts replaced. -/
def lossyChars : Bytes → List Char
  | [] => []
  | b :: rest =>
      let (n, c) := Utf8.decodeFirst b rest
      c :: lossyChars (rest.drop n)
termination_by bytes => bytes.length
decreasing_by simp only [List.length_drop, List.length_cons]; omega

def lossyText (bytes : Bytes) : String := String.ofList (lossyChars bytes)

/-- The text of well-formed bytes. -/
def wellFormedText? (bytes : Bytes) : Option String := String.fromUTF8? ⟨bytes.toArray⟩

end Concordance
