import Concordance.Failure
import Concordance.Json.Decode

/-!
# Match configuration

Batch sizes, which no result depends on, and a limit on how many terms a match may have.
-/

namespace Concordance

structure MatchConfig where
  /-- How many ids are read ahead from a child of a union, or drained at a time. -/
  fillBatchSize : Nat := 64
  /-- How many ids are scored at a time. -/
  scoreBatchSize : Nat := 256
  maxExpansions : Option Nat := none
  deriving DecidableEq

namespace MatchConfig

def validate (config : MatchConfig) : Except Failure Unit :=
  if config.fillBatchSize = 0 then .error (.notPositive "fill_batch_size")
  else if config.scoreBatchSize = 0 then .error (.notPositive "score_batch_size")
  else .ok ()

def toJson (config : MatchConfig) : Json :=
  .record [
    ("fill_batch_size", .int config.fillBatchSize),
    ("score_batch_size", .int config.scoreBatchSize),
    ("max_expansions", (config.maxExpansions.map fun n => Json.int n).getD .null)]

open Json (Decoder)

def decoder : Decoder MatchConfig :=
  let default : MatchConfig := {}
  Decoder.record ["fill_batch_size", "score_batch_size", "max_expansions"] fun levels fields => do
    let fill ← fields.withDefault "fill_batch_size" default.fillBatchSize (Decoder.word levels)
    let score ← fields.withDefault "score_batch_size" default.scoreBatchSize (Decoder.word levels)
    let limit ← fields.withDefault "max_expansions" default.maxExpansions
      (Decoder.nullable Decoder.word levels)
    pure ⟨fill, score, limit⟩

def ofText (text : String) : Except Failure MatchConfig :=
  match decoder.ofText? text with
  | some config => config.validate.map fun _ => config
  | none => .error .malformedJson

/-- Reads a configuration from the bytes of a file; `none` is a file that cannot be opened. -/
def ofFile (content : Option Bytes) : Except Failure MatchConfig :=
  match content.bind wellFormedText? with
  | some text => ofText text
  | none => .error .unreadable

end MatchConfig

end Concordance
