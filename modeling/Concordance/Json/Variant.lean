import Concordance.Json.Decode

/-!
# Tagged unions in JSON

A value of a union is an object that names its variant under the key `type`, or an array of the
variant and its fields.
-/

namespace Concordance.Json

/-- The variants of a union with the names of their fields. -/
abbrev Variants := List (String × List String)

def tagKey : String := "type"

/-- The variant that a tag names. Inside another union a tag may also be the variant's position. -/
def Variants.tagged? (variants : Variants) (nested : Bool) : Json → Option (String × List String)
  | .string (some name) => variants.find? (·.1 == name)
  | .number n =>
      if nested then
        match n.integer? with
        | some i => if i < 0 then none else variants[i.toNat]?
        | none => none
      else none
  | _ => none

/-- The variant of a value with the fields found. The tag may stand anywhere, but only once. -/
def Variants.select? (variants : Variants) (nested : Bool) : Json → Option (String × Fields)
  | .object members =>
      match members.filter (·.1 == some tagKey) with
      | [(_, tag)] => do
          let (name, fields) ← variants.tagged? nested tag
          let values ← Fields.select? fields (members.filter (·.1 != some tagKey))
          pure (name, ⟨true, values⟩)
      | _ => none
  | .array (tag :: items) => do
      let (name, fields) ← variants.tagged? nested tag
      let values ← Fields.zip? fields items
      pure (name, ⟨false, values⟩)
  | _ => none

end Concordance.Json
