import Concordance.Json.Decode
import Concordance.Json.Number

/-!
# Field values

What a document stores in a field: a text, a number, a truth value or bytes. Every value has the
bytes of the term it is indexed under, and values of all kinds share one order.
-/

namespace Concordance

inductive Value where
  | text (s : String)
  | integer (n : Int64)
  | float (x : Binary64)
  | boolean (b : Bool)
  | binary (bytes : Bytes)
  deriving DecidableEq, Inhabited

/-- A signed 64-bit integer in decimal, with an optional sign and any number of leading zeros. -/
def parseInt64? (s : String) : Option Int64 :=
  let (negative, digits) := match s.toList with
    | '-' :: rest => (true, rest)
    | '+' :: rest => (false, rest)
    | rest => (false, rest)
  if digits.isEmpty || !digits.all Char.isDigit then none
  else
    let size : Int := Digit.number (digits.filterMap Digit.ofChar?)
    let n := if negative then -size else size
    if Int64.minValue.toInt ≤ n ∧ n ≤ Int64.maxValue.toInt then some (Int64.ofInt n) else none

namespace Value

def asText? : Value → Option String
  | text s => some s
  | _ => none

/-- The value as an integer: a text counts when it spells one. -/
def asInteger? : Value → Option Int64
  | integer n => some n
  | text s => parseInt64? s
  | _ => none

/-- The value as a floating-point number, an integer rounded to the nearest. -/
def asFloat? : Value → Option Binary64
  | float x => some x
  | integer n => some (.ofInt n.toInt)
  | _ => none

def booleanText (b : Bool) : String := if b then "true" else "false"

/-- The bytes of the term a value is indexed under. -/
def termBytes : Value → Bytes
  | text s => utf8 s
  | integer n => utf8 (toString n.toInt)
  | float x => utf8 x.text
  | boolean b => utf8 (booleanText b)
  | binary bytes => bytes

/-- The value for a reader; bytes are only counted. -/
def display : Value → String
  | text s => s
  | integer n => toString n.toInt
  | float x => x.text
  | boolean b => booleanText b
  | binary bytes => s!"<{bytes.length} bytes>"

/-- Numeric equality of floats, and of an integer only with an integer. -/
protected def beq : Value → Value → Bool
  | text a, text b => a == b
  | integer a, integer b => a == b
  | float x, float y => x == y
  | boolean a, boolean b => a == b
  | binary a, binary b => a == b
  | _, _ => false

instance : BEq Value := ⟨Value.beq⟩

/-! ### Order -/

/-- Where values of different kinds stand to each other. -/
def rank : Value → Nat
  | boolean _ => 0
  | integer _ | float _ => 1
  | text _ => 2
  | binary _ => 3

def compareBytes (a b : Bytes) : Ordering := if a < b then .lt else if b < a then .gt else .eq

/-- Integers compare exactly, numbers otherwise as floats, texts and bytes bytewise, and values of
different kinds by their rank. -/
def compare (a b : Value) : Ordering :=
  match a, b with
  | integer m, integer n => Ord.compare m.toInt n.toInt
  | boolean x, boolean y => Ord.compare x.toNat y.toNat
  | text s, text t => compareBytes (utf8 s) (utf8 t)
  | binary s, binary t => compareBytes s t
  | a, b =>
      match a.asFloat?, b.asFloat? with
      | some x, some y => x.totalCompare y
      | _, _ => Ord.compare a.rank b.rank

/-! ### JSON -/

/-- An object whose one key names the kind. -/
def toJson : Value → Json
  | text s => .record [("Text", .text s)]
  | integer n => .record [("Integer", .int n.toInt)]
  | float x => .record [("Float", x.toJson)]
  | boolean b => .record [("Boolean", .bool b)]
  | binary bytes => .record [("Binary", .array (bytes.map fun b => .int b.toNat))]

open Json (Decoder)

/-- The kind a key names, with the value read for it. -/
def ofMember? (levels : Nat) (key : String) (json : Json) : Option Value :=
  match key with
  | "Text" => (Decoder.text levels json).map text
  | "Integer" => (Decoder.int64 levels json).map integer
  | "Float" => (Decoder.double levels json).map float
  | "Boolean" => (Decoder.bool levels json).map boolean
  | "Binary" => (Decoder.list Decoder.byte levels json).map binary
  | _ => none

def decoder : Decoder Value
  | levels + 1, .object [(some key, json)] => ofMember? levels key json
  | _, _ => none

end Value

end Concordance
