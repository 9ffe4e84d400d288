import Concordance.Failure

/-!
# Sources of document ids

A source serves ids a batch at a time and can be rewound. It knows a bound on what it still has to
serve, which every batch uses up: that is why draining a source ends.
-/

namespace Concordance

/-- The internal id of a document. -/
abbrev DocId := UInt64

/-- A resumable supply of document ids. A failing `fill` serves nothing but may have moved. -/
class IdSource (S : Type) where
  /-- At most this many of the next ids; none only when the source is exhausted or nothing was
  asked for. -/
  fill : S → Nat → Except Failure (List DocId) × S
  reset : S → S
  /-- A bound on the number of ids still to come. -/
  left : S → Nat
  left_fill {s s' : S} {n : Nat} {ids : List DocId} :
    fill s n = (.ok ids, s') → left s' + ids.length ≤ left s

namespace IdSource

variable {S : Type} [IdSource S]

theorem left_fill_lt {s s' : S} {n : Nat} {d : DocId} {ids : List DocId}
    (h : fill s n = (.ok (d :: ids), s')) : left s' < left s := by
  have := left_fill h
  simp only [List.length_cons] at this
  omega

def drain (batch : Nat) (s : S) : Except Failure (List DocId) × S :=
  match _h : fill s (max batch 1) with
  | (.error e, s') => (.error e, s')
  | (.ok [], s') => (.ok [], s')
  | (.ok (d :: ids), s') =>
      match drain batch s' with
      | (.ok more, s'') => (.ok (d :: ids ++ more), s'')
      | (.error e, s'') => (.error e, s'')
termination_by left s
decreasing_by exact left_fill_lt _h

end IdSource

end Concordance
