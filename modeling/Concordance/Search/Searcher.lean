import Concordance.Match.Root
import Concordance.Query.Basic
import Concordance.Search.Results

/-!
# Searchers

A searcher makes the match of a query over one index and collects what a match serves. Every
mistake in a query is found while its match is made.
-/

namespace Concordance

structure Searcher where
  reader : IndexReader
  config : MatchConfig := {}

namespace Searcher

def withConfig (reader : IndexReader) (config : MatchConfig) : Except Failure Searcher :=
  config.validate.map fun _ => { reader, config }

variable (s : Searcher) {n : Nat}

/-! ### Matches without children -/

def term (field : String) (term : Bytes) : Except Failure (Match n) :=
  (TermMatch.ofTerm s.reader field term).map fun m => .ofNode (.term m)

/-- The documents of a provider's terms, scored term by term when there is a score function. -/
def expand {P : Type} [TermProvider P] (p : P) (score : Option ScoreFunction) :
    Except Failure (Match n) :=
  (MultiTermMatch.ofProvider s.config p).map fun m =>
    .ofNode (.multiTerm (match score with
      | some function => m.withScoring function s.reader.docCount
      | none => m))

def multiTerm (field : String) (predicate : TermPredicate Bytes) (score : Option ScoreFunction) :
    Except Failure (Match n) := do
  s.expand (← PredicateTerms.ofField s.reader field predicate) score

def oneOf (field : String) (terms : List Bytes) (score : Option ScoreFunction) :
    Except Failure (Match n) := do
  s.expand (← ListedTerms.ofField s.reader field terms) score

def allEntries : Match n := .ofNode (.all { bound := s.reader.docCount })

/-! ### Matches of queries -/

def orderBy (inner : Match n) (comparer : SortComparer) (take : Option Nat) :
    Except Failure (Match n) :=
  inner.orderBy comparer s.reader take s.config

/-- The bound of an ordering as a query gives it, which has to be positive. -/
def positiveTake : Option Int64 → Except Failure (Option Nat)
  | none => .ok none
  | some k => if k ≤ 0 then .error (.takeNotPositive k) else .ok (some k.toInt.toNat)

mutual

/-- The match of a query, in trees high enough for it. The parts of a query are compiled before the
query itself, from left to right, and the first mistake found is reported. -/
def compile : (q : Query) → (n : Nat) → q.depth ≤ n → Except Failure (Match n)
  | .term field value, _, _ => s.term field (utf8 value)
  | .multiTerm field predicate score, _, _ =>
      s.multiTerm field (predicate.map utf8) (score.map (·.function))
  | .oneOf field values score, _, _ => s.oneOf field (values.map utf8) (score.map (·.function))
  | .all, _, _ => .ok s.allEntries
  | .and children, n + 1, h => do
      let parts ← compileAll children n (Nat.le_of_succ_le_succ h)
      Match.and s.config parts
  | .or children, n + 1, h => do
      let parts ← compileAll children n (Nat.le_of_succ_le_succ h)
      Match.or s.config parts
  | .andNot base exclusion, n + 1, h => do
      let h := Nat.le_of_succ_le_succ h
      let base ← compile base n (Nat.le_trans (Nat.le_max_left _ _) h)
      let exclusion ← compile exclusion n (Nat.le_trans (Nat.le_max_right _ _) h)
      Match.andNot base exclusion
  | .boost child factor, n + 1, h => do
      let inner ← compile child n (Nat.le_of_succ_le_succ h)
      inner.boost factor
  | .boostBy child function, n + 1, h => do
      let inner ← compile child n (Nat.le_of_succ_le_succ h)
      inner.boostBy function.function s.reader.docCount
  | .orderByScore child take ascending, n, h => do
      let inner ← compile child n h
      let take ← positiveTake take
      s.orderBy inner (if ascending then .byScoreAscending else .byScore) take
  | .orderByField child field descending take, n, h => do
      let inner ← compile child n h
      let take ← positiveTake take
      s.orderBy inner (.byField field descending) take

def compileAll :
    (qs : List Query) → (n : Nat) → Query.depths qs ≤ n → Except Failure (List (Match n))
  | [], _, _ => .ok []
  | q :: rest, n, h => do
      let m ← compile q n (Nat.le_trans (Nat.le_max_left _ _) h)
      let ms ← compileAll rest n (Nat.le_trans (Nat.le_max_right _ _) h)
      pure (m :: ms)

end

def search (q : Query) : Except Failure (Match q.depth) := s.compile q q.depth (Nat.le_refl _)

/-! ### Collecting results -/

def resolve : List (DocId × Float32) → Except Failure (List SearchHit)
  | [] => .ok []
  | (docId, score) :: rest => do
      let externalId ← s.reader.externalId docId
      let hits ← resolve rest
      pure ({ docId, externalId, score } :: hits)

/-- The hits of some ids. Without ids nothing is scored. -/
def hitsOf (m : Match n) (ids : List DocId) : Except Failure (List SearchHit) × Match n :=
  if ids.isEmpty then (.ok [], m)
  else
    let (result, m) := m.score ids (.replicate ids.length 0)
    (result.bind fun scores => s.resolve (ids.zip scores.toList), m)

theorem left_hitsOf (m : Match n) (ids : List DocId) :
    IdSource.left (s.hitsOf m ids).2 = IdSource.left m := by
  unfold hitsOf
  split
  · rfl
  · exact m.left_score ids _

/-- The ids of a batch that become hits, `limit` of them when there is one. -/
def wanted (limit : Option Nat) (ids : List DocId) : List DocId :=
  match limit with
  | some most => ids.take most
  | none => ids

/-- Drains a match: the hits of the first ids, `limit` of them when there is one, and the number of
all ids. -/
def collectHits (limit : Option Nat) (m : Match n) :
    Except Failure (List SearchHit × Nat) × Match n :=
  match _h : IdSource.fill m s.config.fillBatchSize with
  | (.error e, m') => (.error e, m')
  | (.ok [], m') => (.ok ([], 0), m')
  | (.ok (d :: ids), m') =>
      match _hs : s.hitsOf m' (wanted limit (d :: ids)) with
      | (.error e, m'') => (.error e, m'')
      | (.ok hits, m'') =>
          match collectHits (limit.map (· - (wanted limit (d :: ids)).length)) m'' with
          | (.error e, m'') => (.error e, m'')
          | (.ok (more, count), m'') => (.ok (hits ++ more, ids.length + 1 + count), m'')
termination_by IdSource.left m
decreasing_by
  have hleft := s.left_hitsOf m' (wanted limit (d :: ids))
  rw [_hs] at hleft
  exact hleft ▸ IdSource.left_fill_lt _h

/-- Drains a match. Every id it serves counts as a match, and the first ones become hits. -/
def collect (limit : Option Nat) (m : Match n) : Except Failure SearchResults × Match n :=
  let (result, m) := s.collectHits limit m
  (result.map fun (hits, count) => .ofHits hits count, m)

def execute (q : Query) (limit : Option Nat) : Except Failure SearchResults := do
  let m ← s.search q
  (s.collect limit m).1

end Searcher

end Concordance
