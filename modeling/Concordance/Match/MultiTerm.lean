import Concordance.Match.Config
import Concordance.Match.Union
import Concordance.Term.Provider

/-!
# Multi-term matches

The union of the matches of all terms a provider enumerates. The terms are enumerated once, when
the match is made. A score function adds up its scores of the terms that a document has.
-/

namespace Concordance

structure MultiTermMatch where
  field : String
  provider : Inspection
  terms : Union TermMatch
  /-- A function for the score of each term, with the number of documents of the index. -/
  scoring : Option (ScoreFunction × UInt64) := none
  /-- The number of documents of the terms, counted once for each term. -/
  cost : UInt64

namespace MultiTermMatch

/-- The matches of a provider's terms, after `taken` others; a term past the limit is refused. -/
def expand {P : Type} [TermProvider P] (limit : Option Nat) (taken : Nat) (p : P) :
    Except Failure (List TermMatch) :=
  match _h : TermProvider.next p with
  | (.error e, _) => .error e
  | (.ok none, _) => .ok []
  | (.ok (some m), p') =>
      match limit with
      | some most =>
          if most ≤ taken then
            .error (.tooManyTerms (TermProvider.inspect p').operation (TermProvider.field p') most)
          else (expand limit (taken + 1) p').map (m :: ·)
      | none => (expand limit (taken + 1) p').map (m :: ·)
termination_by TermProvider.left p
decreasing_by all_goals exact TermProvider.left_next _h

def ofProvider {P : Type} [TermProvider P] (config : MatchConfig) (p : P) :
    Except Failure MultiTermMatch :=
  (expand config.maxExpansions 0 p).map fun terms =>
    { field := TermProvider.field p
      provider := TermProvider.inspect p
      terms := .ofList terms config.fillBatchSize
      cost := Matcher.totalCost terms }

def withScoring (m : MultiTermMatch) (function : ScoreFunction) (totalDocs : UInt64) :
    MultiTermMatch :=
  { m with scoring := some (function, totalDocs) }

def termCount (m : MultiTermMatch) : Nat := m.terms.children.size

def fill : MultiTermMatch → Nat → Except Failure (List DocId) × MultiTermMatch
  | ⟨field, provider, terms, scoring, cost⟩, n =>
      let (result, terms) := terms.fill n
      (result, ⟨field, provider, terms, scoring, cost⟩)

def anyTerm (d : DocId) : List TermMatch → Except Failure Bool
  | [] => .ok false
  | term :: rest =>
      match term.evaluate d with
      | .ok false => anyTerm d rest
      | decided => decided

/-- Adds a term's score to the score of each document that has it. -/
def addTerm (function : ScoreFunction) (totalDocs : UInt64) (term : TermMatch) :
    List DocId → List Float32 → Except Failure (List Float32)
  | d :: ids, score :: scores =>
      match term.evaluate d with
      | .error e => .error e
      | .ok found =>
          let added :=
            if found then score + function.score ⟨d, term.docFreq, totalDocs⟩ else score
          (addTerm function totalDocs term ids scores).map (added :: ·)
  | _, scores => .ok scores

def addTerms (function : ScoreFunction) (totalDocs : UInt64) (ids : List DocId) :
    List TermMatch → List Float32 → Except Failure (List Float32)
  | [], scores => .ok scores
  | term :: rest, scores =>
      match addTerm function totalDocs term ids scores with
      | .error e => .error e
      | .ok scores => addTerms function totalDocs ids rest scores

def score (m : MultiTermMatch) (ids : List DocId) (buffer : Array Float32) :
    Except Failure (Array Float32) :=
  match m.scoring with
  | none => Matcher.neutralScores ids buffer
  | some (function, totalDocs) => do
      Matcher.checkSlots ids buffer
      let scores ← addTerms function totalDocs ids m.terms.matchers (.replicate buffer.size 0)
      pure scores.toArray

def inspect (m : MultiTermMatch) : Inspection :=
  let node := ((Inspection.ofOperation "MultiTermMatch").withParameter "Field" m.field).withParameter
    "TermCount" (toString m.termCount)
  let node := match m.scoring with
    | some (function, _) => node.withParameter "ScoreFunction" function.name
    | none => node
  node.withChildren (m.provider :: m.terms.matchers.map Matcher.inspect)

instance : Matcher MultiTermMatch where
  fill := fill
  reset m := { m with terms := m.terms.reset }
  left m := m.terms.left
  left_fill {m m' n ids} h := by
    obtain ⟨hr, rfl⟩ := Prod.mk.inj h
    exact Union.left_fill (Prod.ext hr rfl : m.terms.fill n = (.ok ids, _))
  evaluate m d := anyTerm d m.terms.matchers
  score m ids buffer := (m.score ids buffer, m)
  left_score _ _ _ := rfl
  isScored m := m.scoring.isSome
  cost := MultiTermMatch.cost
  inspect := inspect

end MultiTermMatch

end Concordance
