import Concordance.Dictionary
import Concordance.Posting
import Concordance.Value

/-!
# Index readers

What matching needs to know of an index. A reader may keep its terms in a form of its own, which
`encodeTerm` produces from the caller's bytes and `decodeTerm` takes back.
-/

namespace Concordance

/-- The terms of one field in the reader's own form and order. A term may be unreadable. -/
structure TermList where
  size : Nat
  entry : Fin size → Except Failure TermEntry
  /-- The position of the first term not below the given one. -/
  lowerBound : Bytes → Nat

structure TermCursor where
  terms : TermList
  position : Nat := 0

namespace TermCursor

def reset (c : TermCursor) : TermCursor := { c with position := 0 }

def seek (c : TermCursor) (term : Bytes) : TermCursor :=
  { c with position := c.terms.lowerBound term }

/-- The next term. The cursor moves past a term that cannot be read. -/
def next (c : TermCursor) : Except Failure (Option TermEntry) × TermCursor :=
  if h : c.position < c.terms.size then
    ((c.terms.entry ⟨c.position, h⟩).map some, { c with position := c.position + 1 })
  else (.ok none, c)

def left (c : TermCursor) : Nat := c.terms.size - c.position

theorem left_next {c c' : TermCursor} {entry : TermEntry} (h : c.next = (.ok (some entry), c')) :
    c'.left < c.left := by
  unfold next at h
  split at h
  · rw [← (Prod.mk.inj h).2]
    simp only [left]
    omega
  · simp at h

def all (c : TermCursor) : Except Failure (List TermEntry) × TermCursor :=
  match _h : c.next with
  | (.error e, c') => (.error e, c')
  | (.ok none, c') => (.ok [], c')
  | (.ok (some entry), c') =>
      match all c' with
      | (.ok rest, c'') => (.ok (entry :: rest), c'')
      | (.error e, c'') => (.error e, c'')
termination_by c.left
decreasing_by exact left_next _h

end TermCursor

structure IndexReader where
  docCount : UInt64
  hasField : String → Bool
  terms : String → Except Failure TermList
  lookup : String → Bytes → Except Failure (Option TermInfo)
  postings : String → TermInfo → Except Failure PostingCursor
  decodeTerm : Bytes → Bytes := id
  encodeTerm : Bytes → Bytes := id
  externalId : DocId → Except Failure (Option String)
  /-- The first stored value of a document's field. -/
  readField : DocId → String → Except Failure (Option Value)

/-- How many documents a term, given in the reader's form, has; none when it is unknown. -/
def IndexReader.termDocFreq (reader : IndexReader) (field : String) (term : Bytes) :
    Except Failure UInt64 :=
  (reader.lookup field term).map fun info => (info.map (·.docFrequency)).getD 0

end Concordance
