import Concordance.Match.Basic
import Concordance.Reader

/-!
# Term matches

The documents of one exact term of one field.
-/

namespace Concordance

structure TermMatch where
  field : String
  term : Bytes
  /-- The posting list; a term the index does not have is without one. -/
  postings : Option PostingCursor

namespace TermMatch

def ofAbsent (field : String) (term : Bytes) : TermMatch := ⟨field, term, none⟩

def ofTerm (reader : IndexReader) (field : String) (term : Bytes) : Except Failure TermMatch := do
  match ← reader.lookup field (reader.encodeTerm term) with
  | some info => pure ⟨field, term, some (← reader.postings field info)⟩
  | none => pure (ofAbsent field term)

def docFreq (m : TermMatch) : UInt64 := (m.postings.map (·.docFreq)).getD 0

def fill (m : TermMatch) (n : Nat) : Except Failure (List DocId) × TermMatch :=
  match m.postings with
  | some cursor =>
      let (result, cursor) := cursor.fill n
      (result, { m with postings := some cursor })
  | none => (.ok [], m)

def evaluate (m : TermMatch) (d : DocId) : Except Failure Bool :=
  match m.postings with
  | some cursor => cursor.contains d
  | none => .ok false

def left (m : TermMatch) : Nat := (m.postings.map (·.left)).getD 0

theorem left_fill {m m' : TermMatch} {n : Nat} {ids : List DocId} (h : m.fill n = (.ok ids, m')) :
    m'.left + ids.length ≤ m.left := by
  unfold fill at h
  split at h
  · rename_i cursor hc
    obtain ⟨hr, rfl⟩ := Prod.mk.inj h
    have := PostingCursor.left_fill (Prod.ext hr rfl : cursor.fill n = (.ok ids, _))
    simpa [left, hc] using this
  · obtain ⟨hr, rfl⟩ := Prod.mk.inj h
    simp [← Except.ok.inj hr]

instance : Matcher TermMatch where
  fill := fill
  reset m := { m with postings := m.postings.map (·.reset) }
  left := left
  left_fill := left_fill
  evaluate := evaluate
  score m ids buffer := (Matcher.neutralScores ids buffer, m)
  left_score _ _ _ := rfl
  isScored _ := false
  cost := docFreq
  inspect m :=
    (((Inspection.ofOperation "TermMatch").withParameter "Field" m.field).withParameter "Term"
      (lossyText m.term)).withParameter "TermFrequency" (toString m.docFreq)

end TermMatch

end Concordance
