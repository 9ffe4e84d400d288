import Concordance.Chunks
import Concordance.Text.Utf8

/-!
# Term dictionaries

The terms of one field in ascending byte order, each once, with the place of its posting list.
-/

namespace Concordance

/-- Where a term's posting list and skip entries are, and how many documents it holds. -/
structure TermInfo where
  postingOffset : UInt64
  postingLength : UInt64
  skipOffset : UInt32
  skipCount : UInt32
  docFrequency : UInt64
  deriving DecidableEq, Inhabited

abbrev TermEntry := Bytes × TermInfo

structure Dictionary where
  entries : Array TermEntry := #[]

namespace Dictionary

/-- Of neighbours with the same term, the last. -/
def keepLast : List TermEntry → List TermEntry
  | a :: b :: rest => if a.1 = b.1 then keepLast (b :: rest) else a :: keepLast (b :: rest)
  | short => short

/-- The dictionary of some entries in any order; of entries for one term, the last given stays. -/
def ofList (entries : List TermEntry) : Dictionary :=
  ⟨(keepLast (entries.mergeSort fun a b => a.1 ≤ b.1)).toArray⟩

variable (dictionary : Dictionary)

def size : Nat := dictionary.entries.size

def isEmpty : Bool := dictionary.entries.isEmpty

def entry (i : Fin dictionary.size) : TermEntry :=
  have h : i.val < dictionary.entries.size := i.isLt
  dictionary.entries[i.val]

def entryAt? (position : Nat) : Option TermEntry := dictionary.entries[position]?

/-- The position of the first term that is not below `term`. -/
def lowerBound (term : Bytes) : Nat :=
  partitionPoint dictionary.size fun i => (dictionary.entryAt? i).any (·.1 < term)

/-- The info of a term, found by halving. This stands for a hash index from terms to positions,
which finds the same: `Dictionary.get?_eq_idxOf?`. -/
def get? (term : Bytes) : Option TermInfo :=
  match dictionary.entryAt? (dictionary.lowerBound term) with
  | some (found, info) => if found = term then some info else none
  | none => none

end Dictionary

end Concordance
