import Concordance.Failure
import Concordance.Json.Number
import Concordance.Json.Parser
import Concordance.Json.Printer
import Concordance.Json.Variant
import Concordance.Query.Basic

/-!
# Queries in JSON

Queries and score functions are tagged unions. `Query.toJson` leaves out score functions and bounds
that are not given; `Query.ofText?` reads a whole text, every part of which has to be admitted.
-/

namespace Concordance

open Json (Decoder Variants)

namespace ScoreSpec

def toJson : ScoreSpec → Json
  | constant value => .record [("type", .text "constant"), ("value", Single.toJson value)]
  | termFrequency => .record [("type", .text "term_frequency")]
  | idf => .record [("type", .text "idf")]

def variants : Variants := [("constant", ["value"]), ("term_frequency", []), ("idf", [])]

def decoder : Decoder ScoreSpec
  | levels + 1, json => do
      match ← variants.select? true json with
      | ("constant", fields) =>
          let value ← fields.required "value" (Decoder.single levels)
          pure (constant value)
      | ("term_frequency", _) => pure termFrequency
      | ("idf", _) => pure idf
      | _ => none
  | 0, _ => none

end ScoreSpec

namespace Query

/-- The tag of a predicate's variant, and the name of the field of its operand. -/
def predicateTag : TermPredicate α → String × String
  | .startsWith _ => ("starts_with", "prefix")
  | .notStartsWith _ => ("not_starts_with", "prefix")
  | .endsWith _ => ("ends_with", "suffix")
  | .contains _ => ("contains", "value")
  | .notContains _ => ("not_contains", "value")
  | .present => ("exists", "")

def optional (name : String) (json : Option Json) : List (String × Json) :=
  match json with
  | some json => [(name, json)]
  | none => []

def variant (tag : String) (members : List (String × Json)) : Json :=
  .record (("type", .text tag) :: members)

def takeJson (take : Option Int64) : Option Json := take.map fun n => .int n.toInt

mutual

def toJson : Query → Json
  | term field value => variant "term" [("field", .text field), ("value", .text value)]
  | multiTerm field predicate score =>
      let (tag, name) := predicateTag predicate
      variant tag (("field", .text field) :: optional name (predicate.operand?.map .text) ++
        optional "score" (score.map (·.toJson)))
  | oneOf field values score =>
      variant "in" (("field", .text field) :: ("values", .array (values.map .text)) ::
        optional "score" (score.map (·.toJson)))
  | all => variant "all" []
  | and children => variant "and" [("children", .array (toJsons children))]
  | or children => variant "or" [("children", .array (toJsons children))]
  | andNot base exclusion =>
      variant "and_not" [("base", base.toJson), ("exclusion", exclusion.toJson)]
  | boost child factor =>
      variant "boost" [("child", child.toJson), ("boost", Single.toJson factor)]
  | boostBy child function =>
      variant "boost_by" [("child", child.toJson), ("function", function.toJson)]
  | orderByScore child take ascending =>
      variant "order_by_score" (("child", child.toJson) :: optional "take" (takeJson take) ++
        [("ascending", .bool ascending)])
  | orderByField child field descending take =>
      variant "order_by_field" (("child", child.toJson) :: ("field", .text field) ::
        ("descending", .bool descending) :: optional "take" (takeJson take))

def toJsons : List Query → List Json
  | [] => []
  | q :: rest => q.toJson :: toJsons rest

end

def toText (q : Query) : String := q.toJson.render

def variants : Variants := [
  ("term", ["field", "value"]),
  ("starts_with", ["field", "prefix", "score"]),
  ("not_starts_with", ["field", "prefix", "score"]),
  ("ends_with", ["field", "suffix", "score"]),
  ("contains", ["field", "value", "score"]),
  ("not_contains", ["field", "value", "score"]),
  ("exists", ["field", "score"]),
  ("in", ["field", "values", "score"]),
  ("all", []),
  ("and", ["children"]),
  ("or", ["children"]),
  ("and_not", ["base", "exclusion"]),
  ("boost", ["child", "boost"]),
  ("boost_by", ["child", "function"]),
  ("order_by_score", ["child", "take", "ascending"]),
  ("order_by_field", ["child", "field", "descending", "take"])]

/-- The query of a variant with the fields found, given readers of a child and of all children. -/
def ofFields (levels : Nat) (child : Json → Option Query) (children : Json → Option (List Query))
    (tag : String) (fields : Json.Fields) : Option Query := do
  let text (name : String) := fields.required name (Decoder.text levels)
  let child (name : String) := fields.required name child
  let children := fields.required "children" children
  let score := fields.withDefault "score" none (Decoder.nullable ScoreSpec.decoder levels)
  let take := fields.withDefault "take" none (Decoder.nullable Decoder.int64 levels)
  let flag (name : String) := fields.withDefault name false (Decoder.bool levels)
  match tag with
  | "term" => pure (term (← text "field") (← text "value"))
  | "starts_with" => pure (multiTerm (← text "field") (.startsWith (← text "prefix")) (← score))
  | "not_starts_with" =>
      pure (multiTerm (← text "field") (.notStartsWith (← text "prefix")) (← score))
  | "ends_with" => pure (multiTerm (← text "field") (.endsWith (← text "suffix")) (← score))
  | "contains" => pure (multiTerm (← text "field") (.contains (← text "value")) (← score))
  | "not_contains" => pure (multiTerm (← text "field") (.notContains (← text "value")) (← score))
  | "exists" => pure (multiTerm (← text "field") .present (← score))
  | "in" =>
      let values ← fields.required "values" (Decoder.list Decoder.text levels)
      pure (oneOf (← text "field") values (← score))
  | "all" => pure all
  | "and" => pure (and (← children))
  | "or" => pure (or (← children))
  | "and_not" => pure (andNot (← child "base") (← child "exclusion"))
  | "boost" =>
      let factor ← fields.required "boost" (Decoder.single levels)
      pure (boost (← child "child") factor)
  | "boost_by" =>
      let function ← fields.required "function" (ScoreSpec.decoder levels)
      pure (boostBy (← child "child") function)
  | "order_by_score" => pure (orderByScore (← child "child") (← take) (← flag "ascending"))
  | "order_by_field" =>
      pure (orderByField (← child "child") (← text "field") (← flag "descending") (← take))
  | _ => none

mutual

/-- Reads a query; `nested` tells whether it stands inside another one. -/
def decoder (nested : Bool) : Decoder Query
  | 0, _ => none
  | levels + 1, json =>
      (variants.select? nested json).bind fun (tag, fields) =>
        ofFields levels (decoder true levels) (listDecoder levels) tag fields

def listDecoder : Decoder (List Query)
  | levels + 1, .array items => items.mapM (decoder true levels)
  | _, _ => none

end

def ofText? (text : String) : Option Query := do
  let json ← Json.parse? text
  if json.admitted Json.nestingLimit then decoder false Json.nestingLimit json else none

def ofText (text : String) : Except Failure Query :=
  match ofText? text with
  | some q => .ok q
  | none => .error .malformedJson

end Query

end Concordance
