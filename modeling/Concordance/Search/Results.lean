import Concordance.Json.Decode
import Concordance.Json.Number
import Concordance.Source

/-!
# Search results

What a search returns: hits in the order the match served them, how many documents matched, and the
maximum score of the hits.
-/

namespace Concordance

structure SearchHit where
  docId : DocId
  /-- The caller's id, when the index knows the document. -/
  externalId : Option String
  score : Float32

structure SearchResults where
  hits : List SearchHit
  /-- The number of matching documents, those past the limit included. -/
  totalHits : Nat
  maxScore : Float32

namespace SearchResults

/-- The maximum of zero and some scores; a NaN is passed over. -/
def maximum (scores : List Float32) : Float32 :=
  scores.foldl (fun best score => if best < score then score else best) 0

def ofHits (hits : List SearchHit) (totalHits : Nat) : SearchResults :=
  { hits, totalHits, maxScore := maximum (hits.map (·.score)) }

def externalIds (results : SearchResults) : List String := results.hits.filterMap (·.externalId)

def scores (results : SearchResults) : List Float32 := results.hits.map (·.score)

end SearchResults

/-! ### JSON -/

open Json (Decoder Fields)

def SearchHit.toJson (hit : SearchHit) : Json :=
  .record [
    ("doc_id", .int hit.docId.toNat),
    ("external_id", (hit.externalId.map Json.text).getD .null),
    ("score", Single.toJson hit.score)]

def SearchHit.decoder : Decoder SearchHit :=
  Decoder.record ["doc_id", "external_id", "score"] fun levels fields => do
    let docId ← fields.required "doc_id" (Decoder.word levels)
    let externalId ← fields.nullable "external_id" (Decoder.nullable Decoder.text levels)
    let score ← fields.required "score" (Decoder.single levels)
    pure ⟨UInt64.ofNat docId, externalId, score⟩

def SearchResults.toJson (results : SearchResults) : Json :=
  .record [
    ("hits", .array (results.hits.map (·.toJson))),
    ("total_hits", .int results.totalHits),
    ("max_score", Single.toJson results.maxScore)]

/-- Reads results, whose maximum score is taken as given. -/
def SearchResults.decoder : Decoder SearchResults :=
  Decoder.record ["hits", "total_hits", "max_score"] fun levels fields => do
    let hits ← fields.required "hits" (Decoder.list SearchHit.decoder levels)
    let totalHits ← fields.required "total_hits" (Decoder.word levels)
    let maxScore ← fields.required "max_score" (Decoder.single levels)
    pure ⟨hits, totalHits, maxScore⟩

end Concordance
