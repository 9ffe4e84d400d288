import Concordance.Decimal.Reading

/-!
# JSON values

A JSON text as a tree. Numbers keep their numeral, and a string literal that spells no text, because
a surrogate in it has no partner, stays in the tree as such: both are judged only where a value is
looked at. `Json.admitted` says when every part of a tree may be looked at.
-/

namespace Concordance

/-- What a string literal spells; nothing when a surrogate in it has no partner. -/
abbrev Literal := Option String

/-- A JSON value. Members keep their order and may repeat a key. -/
inductive Json where
  | null
  | bool (value : Bool)
  | number (numeral : Numeral)
  | string (literal : Literal)
  | array (items : List Json)
  | object (members : List (Literal × Json))
  deriving Inhabited, BEq

namespace Json

/-- How many arrays and objects may be open at once. -/
def nestingLimit : Nat := 127

def text (s : String) : Json := .string (some s)

def int (n : Int) : Json := .number (.ofInt n)

def record (members : List (String × Json)) : Json :=
  .object (members.map fun (name, value) => (some name, value))

mutual

/-- Whether a value nests at most `levels` containers and holds only literals that spell a text and
numerals that do not overflow. -/
def admitted (levels : Nat) : Json → Bool
  | .null | .bool _ => true
  | .number n => n.binary64?.isSome
  | .string literal => literal.isSome
  | .array items =>
      match levels with
      | 0 => false
      | inner + 1 => admittedItems inner items
  | .object members =>
      match levels with
      | 0 => false
      | inner + 1 => admittedMembers inner members

def admittedItems (levels : Nat) : List Json → Bool
  | [] => true
  | item :: rest => item.admitted levels && admittedItems levels rest

def admittedMembers (levels : Nat) : List (Literal × Json) → Bool
  | [] => true
  | (key, value) :: rest => key.isSome && value.admitted levels && admittedMembers levels rest

end

end Json

end Concordance
