import Concordance.Failure
import Concordance.Json.Decode

/-!
# Index configuration
-/

namespace Concordance

structure IndexConfig where
  /-- The field under which the documents' own ids are indexed. -/
  idField : String := "id"
  postingBlockSize : Nat := 128
  deriving DecidableEq

namespace IndexConfig

def validate (config : IndexConfig) : Except Failure Unit :=
  if config.idField.isEmpty then .error .emptyIdField
  else if config.postingBlockSize = 0 then .error (.notPositive "posting_block_size")
  else .ok ()

def toJson (config : IndexConfig) : Json :=
  .record [
    ("id_field", .text config.idField),
    ("posting_block_size", .int config.postingBlockSize)]

open Json (Decoder)

def decoder : Decoder IndexConfig :=
  let default : IndexConfig := {}
  Decoder.record ["id_field", "posting_block_size"] fun levels fields => do
    let idField ← fields.withDefault "id_field" default.idField (Decoder.text levels)
    let blockSize ← fields.withDefault "posting_block_size" default.postingBlockSize
      (Decoder.word levels)
    pure ⟨idField, blockSize⟩

end IndexConfig

end Concordance
