import Concordance.Json.Syntax

/-!
# Writing JSON texts

The compact text of a JSON value. In strings only quotes, backslashes and control characters are
escaped, the latter by their letter when they have one.
-/

namespace Concordance.Json

def escaped (c : Char) : List Char :=
  match c with
  | '"' => ['\\', '"']
  | '\\' => ['\\', '\\']
  | '\x08' => ['\\', 'b']
  | '\x0c' => ['\\', 'f']
  | '\n' => ['\\', 'n']
  | '\r' => ['\\', 'r']
  | '\t' => ['\\', 't']
  | c =>
      if c < ' ' then
        ['\\', 'u', '0', '0', Nat.digitChar (c.toNat / 16), Nat.digitChar (c.toNat % 16)]
      else [c]

/-- A literal with its quotes; one that spells no text is written as a lone surrogate. -/
def literalText : Literal → List Char
  | some s => '"' :: s.toList.flatMap escaped ++ ['"']
  | none => "\"\\ud800\"".toList

mutual

def chars : Json → List Char
  | .null => ['n', 'u', 'l', 'l']
  | .bool true => ['t', 'r', 'u', 'e']
  | .bool false => ['f', 'a', 'l', 's', 'e']
  | .number n => n.text
  | .string literal => literalText literal
  | .array items => '[' :: itemChars items ++ [']']
  | .object members => '\x7b' :: memberChars members ++ ['\x7d']

def itemChars : List Json → List Char
  | [] => []
  | [item] => chars item
  | item :: next :: rest => chars item ++ ',' :: itemChars (next :: rest)

def memberChars : List (Literal × Json) → List Char
  | [] => []
  | [(key, item)] => literalText key ++ ':' :: chars item
  | (key, item) :: next :: rest =>
      literalText key ++ ':' :: chars item ++ ',' :: memberChars (next :: rest)

end

def render (json : Json) : String := String.ofList json.chars

end Concordance.Json
