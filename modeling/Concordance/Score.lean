import Concordance.Source

/-!
# Score functions

Functions from a document and two counts to a single-precision score.
-/

namespace Concordance

structure ScoreContext where
  docId : DocId
  /-- How many documents the scored term or match has. -/
  docFreq : UInt64
  totalDocs : UInt64

structure ScoreFunction where
  name : String
  score : ScoreContext → Float32

/-- The score of a match that carries no boost and no score function. -/
def neutralScore : Float32 := 1

namespace ScoreFunction

def constant (value : Float32) : ScoreFunction := ⟨"Constant", fun _ => value⟩

/-- One part for each document of the term, nothing for a term without any. -/
def termFrequency : ScoreFunction :=
  ⟨"TermFrequency", fun ctx => if ctx.docFreq = 0 then 0 else 1 / ctx.docFreq.toFloat32⟩

/-- `ln (1 + (n - df + 1/2) / (df + 1/2))`, where `df` counts at most all `n` documents; nothing for
an empty index. -/
def inverseDocumentFrequency (docFreq totalDocs : UInt64) : Float32 :=
  if totalDocs = 0 then 0
  else
    let n := totalDocs.toFloat32
    let known := docFreq.toFloat32
    let df := if known < n then known else n
    Float32.log (1 + (n - df + 0.5) / (df + 0.5))

def idf : ScoreFunction :=
  ⟨"Idf", fun ctx => inverseDocumentFrequency ctx.docFreq ctx.totalDocs⟩

end ScoreFunction

/-- A score function by name, as a query names it. -/
inductive ScoreSpec where
  | constant (value : Float32)
  | termFrequency
  | idf
  deriving DecidableEq, BEq

def ScoreSpec.function : ScoreSpec → ScoreFunction
  | constant value => .constant value
  | termFrequency => .termFrequency
  | idf => .idf

end Concordance
