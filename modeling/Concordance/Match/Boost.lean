import Concordance.Match.Basic

/-!
# Boosts

A match whose scores are multiplied by a factor.
-/

namespace Concordance

inductive Boost where
  | constant (factor : Float32)
  | function (function : ScoreFunction) (totalDocs : UInt64)

/-- Multiplies scores; a function sees the cost of the match as its document frequency. -/
def Boost.apply (docFreq : UInt64) (ids : List DocId) (scores : Array Float32) :
    Boost → Array Float32
  | constant factor => scores.map (· * factor)
  | function f totalDocs =>
      Array.zipWith (fun d score => score * f.score ⟨d, docFreq, totalDocs⟩) ids.toArray scores

structure BoostMatch (M : Type) where
  inner : M
  boost : Boost

namespace BoostMatch

variable {M : Type} [Matcher M]

def fill : BoostMatch M → Nat → Except Failure (List DocId) × BoostMatch M
  | ⟨inner, boost⟩, n =>
      let (result, inner) := IdSource.fill inner n
      (result, ⟨inner, boost⟩)

def score : BoostMatch M → List DocId → Array Float32 →
    Except Failure (Array Float32) × BoostMatch M
  | ⟨inner, boost⟩, ids, buffer =>
      let (result, inner) := Matcher.score inner ids buffer
      (result.map fun scores => boost.apply (Matcher.cost inner) ids scores, ⟨inner, boost⟩)

def inspect (m : BoostMatch M) : Inspection :=
  let node := Inspection.ofOperation "BoostMatch"
  let node := match m.boost with
    | .constant factor => node.withParameter "Boost" (Single.text factor)
    | .function f _ => node.withParameter "ScoreFunction" f.name
  node.withChildren [Matcher.inspect m.inner]

instance : Matcher (BoostMatch M) where
  fill := fill
  reset m := { m with inner := IdSource.reset m.inner }
  left m := IdSource.left m.inner
  left_fill {m m' n ids} h := by
    obtain ⟨hr, rfl⟩ := Prod.mk.inj h
    exact IdSource.left_fill (Prod.ext hr rfl : IdSource.fill m.inner n = (.ok ids, _))
  evaluate m d := Matcher.evaluate m.inner d
  score := score
  left_score m := Matcher.left_score m.inner
  isScored _ := true
  cost m := Matcher.cost m.inner
  inspect := inspect

end BoostMatch

end Concordance
