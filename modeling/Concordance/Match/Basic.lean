import Concordance.Inspection
import Concordance.Score
import Concordance.Source

/-!
# Matchers

A matcher serves the ids of matching documents, tells whether a given document matches, and scores
documents. Scoring may leave something in the buffers of a matcher, but takes no id from it.
-/

namespace Concordance

class Matcher (M : Type) extends IdSource M where
  evaluate : M → DocId → Except Failure Bool
  /-- Writes one score for each of some ids into a buffer, which has to have as many slots. What the
  buffer held before is written over. -/
  score : M → List DocId → Array Float32 → Except Failure (Array Float32) × M
  left_score (m : M) (ids : List DocId) (buffer : Array Float32) :
    left (score m ids buffer).2 = left m
  /-- Whether a boost or a score function is in the match; an unscored match gives every id the
  neutral score and adds nothing to a sum. -/
  isScored : M → Bool
  /-- An estimate of how many ids the match serves. -/
  cost : M → UInt64
  inspect : M → Inspection

namespace Matcher

def checkSlots (ids : List DocId) (buffer : Array Float32) : Except Failure Unit :=
  if buffer.size = ids.length then .ok () else .error (.scoreSlots buffer.size ids.length)

def neutralScores (ids : List DocId) (buffer : Array Float32) : Except Failure (Array Float32) :=
  (checkSlots ids buffer).map fun _ => .replicate buffer.size neutralScore

def totalCost {M : Type} [Matcher M] (ms : List M) : UInt64 :=
  ms.foldl (fun n m => n + cost m) 0

end Matcher

structure NoMatch where

instance : Matcher NoMatch where
  fill m _ := (.ok [], m)
  reset m := m
  left _ := 0
  left_fill h := by
    obtain ⟨h, _⟩ := Prod.mk.inj h
    simp [← Except.ok.inj h]
  evaluate _ _ := .ok false
  score m ids buffer := (Matcher.neutralScores ids buffer, m)
  left_score _ _ _ := rfl
  isScored _ := false
  cost _ := 0
  inspect _ := .ofOperation "EmptyMatch"

structure AllMatch where
  bound : DocId
  next : DocId := 0

namespace AllMatch

/-- The ids `d`, `d + 1`, …, in number `n`. -/
def idsFrom (d : DocId) : Nat → List DocId
  | 0 => []
  | n + 1 => d :: idsFrom (d + 1) n

def available (m : AllMatch) (n : Nat) : Nat := min (m.bound.toNat - m.next.toNat) n

def fill (m : AllMatch) (n : Nat) : Except Failure (List DocId) × AllMatch :=
  (.ok (idsFrom m.next (m.available n)), { m with next := m.next + UInt64.ofNat (m.available n) })

theorem length_idsFrom (d : DocId) (n : Nat) : (idsFrom d n).length = n := by
  induction n generalizing d with
  | zero => rfl
  | succ n ih => simp [idsFrom, ih]

theorem toNat_next_fill (m : AllMatch) (n : Nat) (h : m.next.toNat ≤ m.bound.toNat) :
    (m.next + UInt64.ofNat (m.available n)).toNat = m.next.toNat + m.available n := by
  have hb := m.bound.toNat_lt
  have ha : m.available n ≤ m.bound.toNat - m.next.toNat := Nat.min_le_left _ _
  rw [UInt64.toNat_add, UInt64.toNat_ofNat_of_lt' (by simp [UInt64.size]; omega)]
  exact Nat.mod_eq_of_lt (by omega)

theorem left_fill {m m' : AllMatch} {n : Nat} {ids : List DocId} (h : m.fill n = (.ok ids, m')) :
    (m'.bound.toNat - m'.next.toNat) + ids.length ≤ m.bound.toNat - m.next.toNat := by
  obtain ⟨hi, rfl⟩ := Prod.mk.inj h
  rw [← Except.ok.inj hi, length_idsFrom]
  dsimp only
  by_cases hle : m.next.toNat ≤ m.bound.toNat
  · rw [toNat_next_fill m n hle]
    have : m.available n ≤ m.bound.toNat - m.next.toNat := Nat.min_le_left _ _
    omega
  · have : m.available n = 0 := by simp [available]; omega
    simp [this]

instance : Matcher AllMatch where
  fill := fill
  reset m := { m with next := 0 }
  left m := m.bound.toNat - m.next.toNat
  left_fill := left_fill
  evaluate m d := .ok (d < m.bound)
  score m ids buffer := (Matcher.neutralScores ids buffer, m)
  left_score _ _ _ := rfl
  isScored _ := false
  cost m := m.bound
  inspect m := (Inspection.ofOperation "AllMatch").withParameter "Count" (toString m.bound)

end AllMatch

end Concordance
