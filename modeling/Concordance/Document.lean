import Concordance.Value

/-!
# Documents

A document has an id of the caller's and field values in order; a field may repeat.
-/

namespace Concordance

structure Document where
  id : String
  fields : List (String × Value) := []
  deriving DecidableEq, Inhabited

namespace Document

def add (doc : Document) (name : String) (value : Value) : Document :=
  { doc with fields := doc.fields ++ [(name, value)] }

/-- The first value of a field. -/
def get? (doc : Document) (name : String) : Option Value := doc.fields.lookup name

def has (doc : Document) (name : String) : Bool := (doc.get? name).isSome

def size (doc : Document) : Nat := doc.fields.length

def isEmpty (doc : Document) : Bool := doc.fields.isEmpty

/-- Equality up to the numeric equality of floats. -/
protected def beq (a b : Document) : Bool := a.id == b.id && a.fields == b.fields

instance : BEq Document := ⟨Document.beq⟩

def toJson (doc : Document) : Json :=
  .record [
    ("id", .text doc.id),
    ("fields", .array (doc.fields.map fun (name, value) => .array [.text name, value.toJson]))]

open Json (Decoder Fields)

def decoder : Decoder Document :=
  Decoder.record ["id", "fields"] fun levels fields => do
    let id ← fields.required "id" (Decoder.text levels)
    let values ← fields.required "fields"
      (Decoder.list (Decoder.pair Decoder.text Value.decoder) levels)
    pure ⟨id, values⟩

end Document

end Concordance
