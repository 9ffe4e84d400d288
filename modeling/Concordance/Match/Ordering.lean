import Concordance.Match.Config
import Concordance.Match.Basic
import Concordance.Reader

/-!
# Ordering stages

A match served in the order of a comparer. The match is drained once, when its first id is asked
for; the entries are sorted, those that compare equal in the order they were found. A stage with a
bound keeps no more than twice as many entries while it drains.
-/

namespace Concordance

structure SortEntry where
  docId : DocId
  /-- The score, when the comparer needs it, and otherwise zero. -/
  score : Float32
  value : Option Value
  /-- How many matches were found before this one. -/
  seq : Nat

/-- An order of entries; `lt` comes first. -/
structure SortComparer where
  name : String
  needsScores : Bool
  /-- The field whose first stored value is loaded into the entries. -/
  field : Option String
  compare : SortEntry → SortEntry → Ordering

namespace SortComparer

def byScore : SortComparer where
  name := "Score(Descending)"
  needsScores := true
  field := none
  compare a b := Single.totalCompare b.score a.score

def byScoreAscending : SortComparer where
  name := "Score(Ascending)"
  needsScores := true
  field := none
  compare a b := Single.totalCompare a.score b.score

/-- The order of two optional values, those that are missing last in either direction. -/
def compareValues (descending : Bool) : Option Value → Option Value → Ordering
  | some x, some y => if descending then y.compare x else x.compare y
  | some _, none => .lt
  | none, some _ => .gt
  | none, none => .eq

def byField (field : String) (descending : Bool) : SortComparer where
  name :=
    let direction := if descending then "Descending" else "Ascending"
    s!"Field({field}, {direction})"
  needsScores := false
  field := some field
  compare a b := compareValues descending a.value b.value

/-- Whether an entry may stand before another: by the comparer, then by when it was found. -/
def before (comparer : SortComparer) (a b : SortEntry) : Bool :=
  ((comparer.compare a b).then (Ord.compare a.seq b.seq)).isLE

/-- The entries in the order of a comparer, which has to be a total order. Sorting promises nothing
for one that is not, such as the order of values in `Value.compare_not_transitive`: another sort may
put the entries in another order or fail. -/
def sort (comparer : SortComparer) (entries : List SortEntry) : List SortEntry :=
  entries.mergeSort comparer.before

end SortComparer

/-- A way to bring the `k` first of some entries to the front. Which order they stand in there, and
the others behind them, is left open. -/
structure Selection where
  select : (before : SortEntry → SortEntry → Bool) → (k : Nat) → List SortEntry → List SortEntry
  perm_select (before : SortEntry → SortEntry → Bool) (k : Nat) (entries : List SortEntry) :
    (select before k entries).Perm entries
  /-- When `before` is a total preorder, none of the others comes ahead of one of the `k`. -/
  before_select {before : SortEntry → SortEntry → Bool}
    (trans : ∀ a b c, before a b → before b c → before a c) (total : ∀ a b, before a b || before b a)
    (k : Nat) (entries : List SortEntry) :
    ∀ a ∈ (select before k entries).take k, ∀ b ∈ (select before k entries).drop k, before a b

namespace Selection

def bySorting : Selection where
  select before _ entries := entries.mergeSort before
  perm_select before _ entries := List.mergeSort_perm entries before
  before_select {before} trans total k entries a ha b hb := by
    have hs := List.pairwise_mergeSort trans total entries
    rw [← List.take_append_drop k (entries.mergeSort before), List.pairwise_append] at hs
    exact hs.2.2 a ha b hb

/-- The `k` best of more than `k` entries. -/
def retainBest (selection : Selection) (before : SortEntry → SortEntry → Bool) (k : Nat)
    (entries : Array SortEntry) : Array SortEntry :=
  if k < entries.size then ((selection.select before k entries.toList).take k).toArray
  else entries

end Selection

structure OrderBy (M : Type) where
  inner : M
  comparer : SortComparer
  selection : Selection
  reader : IndexReader
  take : Option Nat
  batch : Nat
  /-- The sorted entries, once the match is drained. -/
  entries : Option (List SortEntry) := none
  /-- Of the sorted entries, those still to be served. -/
  rest : List SortEntry := []

namespace OrderBy

variable {M : Type} [Matcher M]

/-- A stage over a match; a bound has to be positive and the comparer's field known. -/
def ofMatch (inner : M) (comparer : SortComparer) (reader : IndexReader) (take : Option Nat)
    (config : MatchConfig) (selection : Selection := .bySorting) : OrderBy M :=
  { inner, comparer, selection, reader, take, batch := max config.fillBatchSize 1 }

def retainBest (o : OrderBy M) (k : Nat) (entries : Array SortEntry) : Array SortEntry :=
  o.selection.retainBest o.comparer.before k entries

/-- Twice a bound, as far as a machine word reaches. -/
def doubled (k : Nat) : Nat := min (2 * k) (UInt64.size - 1)

/-- Adds an entry to those found so far, and drops all but the best when there are too many. -/
def collect (o : OrderBy M) (entries : Array SortEntry) (entry : SortEntry) : Array SortEntry :=
  let entries := entries.push entry
  match o.take with
  | some k => if doubled k ≤ entries.size then o.retainBest k entries else entries
  | none => entries

def readValue (o : OrderBy M) (d : DocId) : Except Failure (Option Value) :=
  match o.comparer.field with
  | some field => o.reader.readField d field
  | none => .ok none

def collectBatch (o : OrderBy M) (seq : Nat) (entries : Array SortEntry) :
    List (DocId × Float32) → Except Failure (Array SortEntry)
  | [] => .ok entries
  | (docId, score) :: rest =>
      match o.readValue docId with
      | .error e => .error e
      | .ok value => o.collectBatch (seq + 1) (o.collect entries { docId, score, value, seq }) rest

/-- The scores of one batch, zero when the comparer does not need them. -/
def batchScores (o : OrderBy M) (m : M) (ids : List DocId) : Except Failure (List Float32) × M :=
  if o.comparer.needsScores then
    let (result, m) := Matcher.score m ids (.replicate ids.length 0)
    (result.map (·.toList), m)
  else (.ok (ids.map fun _ => 0), m)

theorem left_batchScores (o : OrderBy M) (m : M) (ids : List DocId) :
    IdSource.left (o.batchScores m ids).2 = IdSource.left m := by
  unfold batchScores
  split
  · exact Matcher.left_score m ids _
  · rfl

/-- Drains a match, `seq` entries having been found before: the entries kept. -/
def drainFrom (o : OrderBy M) (seq : Nat) (entries : Array SortEntry) (m : M) :
    Except Failure (Array SortEntry) × M :=
  match _h : IdSource.fill m o.batch with
  | (.error e, m') => (.error e, m')
  | (.ok [], m') => (.ok entries, m')
  | (.ok (d :: ids), m') =>
      match _hs : o.batchScores m' (d :: ids) with
      | (.error e, m'') => (.error e, m'')
      | (.ok scores, m'') =>
          match o.collectBatch seq entries ((d :: ids).zip scores) with
          | .error e => (.error e, m'')
          | .ok entries => o.drainFrom (seq + (ids.length + 1)) entries m''
termination_by IdSource.left m
decreasing_by
  have hleft := o.left_batchScores m' (d :: ids)
  rw [_hs] at hleft
  exact hleft ▸ IdSource.left_fill_lt _h

def finish (o : OrderBy M) (entries : Array SortEntry) : List SortEntry :=
  o.comparer.sort (match o.take with
    | some k => (o.retainBest k entries).toList
    | none => entries.toList)

/-- Drains the match if that has not been done. A failure leaves the match where it got to. -/
def materialize (o : OrderBy M) : Except Failure (List SortEntry) × OrderBy M :=
  match o.entries with
  | some entries => (.ok entries, o)
  | none =>
      match o.drainFrom 0 #[] o.inner with
      | (.error e, inner) => (.error e, { o with inner })
      | (.ok found, inner) =>
          let entries := o.finish found
          (.ok entries, { o with inner, entries := some entries, rest := entries })

def fill (o : OrderBy M) (n : Nat) : Except Failure (List DocId) × OrderBy M :=
  match o.materialize with
  | (.error e, o') => (.error e, o')
  | (.ok _, o') => (.ok ((o'.rest.take n).map (·.docId)), { o' with rest := o'.rest.drop n })

def evaluate (o : OrderBy M) (d : DocId) : Except Failure Bool × OrderBy M :=
  match o.take with
  | none => (Matcher.evaluate o.inner d, o)
  | some _ =>
      match o.materialize with
      | (.error e, o') => (.error e, o')
      | (.ok entries, o') => (.ok (entries.any (·.docId == d)), o')

/-- Starts over with the entries already sorted. -/
def reset (o : OrderBy M) : OrderBy M := { o with rest := o.entries.getD [] }

def score (o : OrderBy M) (ids : List DocId) (buffer : Array Float32) :
    Except Failure (Array Float32) × OrderBy M :=
  let (result, inner) := Matcher.score o.inner ids buffer
  (result, { o with inner })

def cost (o : OrderBy M) : UInt64 :=
  match o.take with
  | some k => min (Matcher.cost o.inner) (UInt64.ofNat k)
  | none => Matcher.cost o.inner

def inspect (o : OrderBy M) : Inspection :=
  let node := (Inspection.ofOperation "OrderByMatch").withParameter "Comparer" o.comparer.name
  let node := match o.take with
    | some k => node.withParameter "Take" (toString k)
    | none => node
  node.withChildren [Matcher.inspect o.inner]

/-! ### The stage as a source -/

/-- The entries still to be served; before the match is drained, what the match can serve. -/
def left (o : OrderBy M) : Nat :=
  match o.entries with
  | some _ => o.rest.length
  | none => IdSource.left o.inner

omit [Matcher M] in
theorem size_retainBest_le (o : OrderBy M) (k : Nat) (entries : Array SortEntry) :
    (o.retainBest k entries).size ≤ entries.size := by
  unfold retainBest Selection.retainBest
  split
  · rw [List.size_toArray, List.length_take,
      (o.selection.perm_select o.comparer.before k entries.toList).length_eq, Array.length_toList]
    omega
  · exact Nat.le_refl _

omit [Matcher M] in
theorem size_collect_le (o : OrderBy M) (entries : Array SortEntry) (entry : SortEntry) :
    (o.collect entries entry).size ≤ entries.size + 1 := by
  unfold collect
  dsimp only
  rw [← Array.size_push entry]
  split
  · split
    · exact size_retainBest_le o _ _
    · exact Nat.le_refl _
  · exact Nat.le_refl _

omit [Matcher M] in
theorem size_collectBatch {o : OrderBy M} {seq : Nat} {entries entries' : Array SortEntry}
    {batch : List (DocId × Float32)} (h : o.collectBatch seq entries batch = .ok entries') :
    entries'.size ≤ entries.size + batch.length := by
  induction batch generalizing seq entries with
  | nil => simp [← Except.ok.inj h]
  | cons found rest ih =>
    unfold collectBatch at h
    split at h
    · simp at h
    · rename_i value _
      have h1 := ih h
      have h2 := o.size_collect_le entries ⟨found.1, found.2, value, seq⟩
      rw [List.length_cons]
      omega

theorem size_drainFrom {o : OrderBy M} {seq : Nat} {entries entries' : Array SortEntry}
    {m m' : M} (h : o.drainFrom seq entries m = (.ok entries', m')) :
    entries'.size ≤ entries.size + IdSource.left m := by
  fun_induction o.drainFrom seq entries m with
  | case1 | case3 | case4 => simp at h
  | case2 seq entries m m₁ hf =>
    obtain ⟨he, _⟩ := Prod.mk.inj h
    rw [← Except.ok.inj he]
    exact Nat.le_add_right _ _
  | case5 seq entries m d ids m₁ hf scores m₂ hs kept hc ih =>
    have h1 := ih h
    have h2 := size_collectBatch hc
    have h3 := IdSource.left_fill hf
    have hleft : IdSource.left m₂ = IdSource.left m₁ := by
      rw [← o.left_batchScores m₁ (d :: ids), hs]
    have h4 : ((d :: ids).zip scores).length ≤ (d :: ids).length := by
      rw [List.length_zip]
      exact Nat.min_le_left _ _
    omega

omit [Matcher M] in
theorem length_finish_le (o : OrderBy M) (entries : Array SortEntry) :
    (o.finish entries).length ≤ entries.size := by
  unfold finish SortComparer.sort
  rw [List.length_mergeSort]
  split
  · exact Nat.le_trans (Nat.le_of_eq Array.length_toList) (o.size_retainBest_le _ _)
  · exact Nat.le_of_eq Array.length_toList

theorem left_materialize {o o' : OrderBy M} {entries : List SortEntry}
    (h : o.materialize = (.ok entries, o')) :
    o'.entries = some entries ∧ o'.rest.length ≤ o.left := by
  unfold materialize at h
  split at h
  · rename_i found he
    obtain ⟨hr, rfl⟩ := Prod.mk.inj h
    obtain rfl := Except.ok.inj hr
    refine ⟨he, ?_⟩
    simp only [left, he]
    exact Nat.le_refl _
  · rename_i he
    split at h
    · simp at h
    · rename_i found inner hd
      obtain ⟨hr, rfl⟩ := Prod.mk.inj h
      obtain rfl := Except.ok.inj hr
      have h1 := size_drainFrom hd
      have h2 := o.length_finish_le found
      refine ⟨rfl, ?_⟩
      simp only [left, he, Array.size_empty, Nat.zero_add] at h1 ⊢
      omega

theorem left_fill {o o' : OrderBy M} {n : Nat} {ids : List DocId}
    (h : o.fill n = (.ok ids, o')) : o'.left + ids.length ≤ o.left := by
  unfold fill at h
  split at h
  · simp at h
  · rename_i entries o₁ hm
    obtain ⟨h1, h2⟩ := left_materialize hm
    obtain ⟨hr, rfl⟩ := Prod.mk.inj h
    rw [← Except.ok.inj hr]
    refine Nat.le_trans ?_ h2
    simp only [left, h1, List.length_map, List.length_take, List.length_drop]
    omega

theorem left_score (o : OrderBy M) (ids : List DocId) (buffer : Array Float32) :
    (o.score ids buffer).2.left = o.left := by
  show (match o.entries with
    | some _ => o.rest.length
    | none => IdSource.left (Matcher.score o.inner ids buffer).2) = o.left
  rw [Matcher.left_score]
  rfl

instance : IdSource (OrderBy M) where
  fill := fill
  reset := reset
  left := left
  left_fill := left_fill

end OrderBy

end Concordance
