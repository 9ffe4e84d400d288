import Concordance.Json.Parser
import Concordance.Text.Utf8

/-!
# Typed views of JSON values

Readers of one kind of value each. A reader is given the number of containers that may still be
opened and refuses a container when none is left; what it does not look at it does not judge.
-/

namespace Concordance.Json

/-- Reads a value, given how many containers may be opened. -/
abbrev Decoder (α : Type) := (levels : Nat) → Json → Option α

namespace Decoder

def text : Decoder String
  | _, .string literal => literal
  | _, _ => none

def bool : Decoder Bool
  | _, .bool b => some b
  | _, _ => none

def integer (low high : Int) : Decoder Int
  | _, .number n => n.integer?.filter fun i => low ≤ i ∧ i ≤ high
  | _, _ => none

def word : Decoder Nat
  | levels, json => (integer 0 (UInt64.size - 1) levels json).map Int.toNat

def int64 : Decoder Int64
  | levels, json =>
      (integer Int64.minValue.toInt Int64.maxValue.toInt levels json).map Int64.ofInt

def byte : Decoder UInt8
  | levels, json => (integer 0 255 levels json).map fun i => UInt8.ofNat i.toNat

def double : Decoder Binary64
  | _, .number n => n.binary64?
  | _, _ => none

def single : Decoder Float32
  | _, .number n => n.float32?
  | _, _ => none

def nullable (decode : Decoder α) : Decoder (Option α)
  | _, .null => some none
  | levels, json => (decode levels json).map some

def list (decode : Decoder α) : Decoder (List α)
  | levels + 1, .array items => items.mapM (decode levels)
  | _, _ => none

def pair (first : Decoder α) (second : Decoder β) : Decoder (α × β)
  | levels + 1, .array [a, b] => do
      let x ← first levels a
      let y ← second levels b
      pure (x, y)
  | _, _ => none

/-- The members of an object, every key a text. -/
def members (decode : Decoder α) : Decoder (List (String × α))
  | levels + 1, .object members => members.mapM fun (key, value) => do
      let key ← key
      let value ← decode levels value
      pure (key, value)
  | _, _ => none

end Decoder

def Decoder.ofText? (decode : Decoder α) (text : String) : Option α :=
  (Json.parse? text).bind (decode nestingLimit)

/-! ### Records -/

/-- The fields found in a record, which is an object or an array of the fields in order. -/
structure Fields where
  /-- Whether the fields were named rather than listed. -/
  named : Bool
  values : List (String × Json)

namespace Fields

/-- Pairs field names with listed values; more values than names are refused. -/
def zip? : List String → List Json → Option (List (String × Json))
  | _, [] => some []
  | [], _ :: _ => none
  | name :: names, value :: values => (zip? names values).map ((name, value) :: ·)

/-- The known fields among named members: a repeated one is refused, an unknown one dropped. -/
def select? (names : List String) : List (Literal × Json) → Option (List (String × Json))
  | [] => some []
  | (none, _) :: _ => none
  | (some key, value) :: rest =>
      match select? names rest with
      | none => none
      | some found =>
          if key ∉ names then some found
          else if found.any (·.1 == key) then none
          else some ((key, value) :: found)

def ofJson? (names : List String) : Json → Option Fields
  | .object members => (select? names members).map (⟨true, ·⟩)
  | .array items => (zip? names items).map (⟨false, ·⟩)
  | _ => none

def get? (fields : Fields) (name : String) : Option Json := fields.values.lookup name

def required (fields : Fields) (name : String) (decode : Json → Option α) : Option α :=
  (fields.get? name).bind decode

def withDefault (fields : Fields) (name : String) (default : α) (decode : Json → Option α) :
    Option α :=
  match fields.get? name with
  | some value => decode value
  | none => some default

/-- A field that may be left out of an object, but not off the end of an array. -/
def nullable (fields : Fields) (name : String) (decode : Json → Option (Option α)) :
    Option (Option α) :=
  match fields.get? name with
  | some value => decode value
  | none => if fields.named then some none else none

end Fields

def Decoder.record (names : List String) (build : (levels : Nat) → Fields → Option α) : Decoder α
  | levels + 1, json => (Fields.ofJson? names json).bind (build levels)
  | 0, _ => none

end Concordance.Json
