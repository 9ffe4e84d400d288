import Concordance.Proofs.QueryMeaning

/-!
# Scores of queries

The score a query gives a document, by recursion on the query. A query that no boost and no score
function is in gives every document the neutral score and adds nothing to a sum.
-/

namespace Concordance

namespace Query

mutual

/-- Whether a boost or a score function is in a query. An exclusion is never scored. -/
def isScored : Query → Bool
  | term .. | all => false
  | multiTerm _ _ score | oneOf _ _ score => score.isSome
  | and children | or children => anyScored children
  | andNot base _ => base.isScored
  | boost .. | boostBy .. => true
  | orderByScore child _ _ | orderByField child _ _ _ => child.isScored

def anyScored : List Query → Bool
  | [] => false
  | q :: rest => q.isScored || anyScored rest

end

def total : List Float32 → Float32
  | [] => neutralScore
  | first :: rest => (first :: rest).foldl (fun sum score => sum + score) 0

mutual

/-- The score of a document. A score function that multiplies is told the cost of what it is
applied to. -/
def score (c : Catalog) (d : DocId) : Query → Float32
  | term .. | all => neutralScore
  | multiTerm field predicate score =>
      MultiTermMatch.termScore (scoring c score) (matching c field predicate) d
  | oneOf field values score =>
      MultiTermMatch.termScore (scoring c score) (listed c field values) d
  | and children => total (scores c d false children)
  | or children => total (scores c d true children)
  | andNot base _ => base.score c d
  | boost child factor => child.score c d * factor
  | boostBy child function =>
      child.score c d * function.function.score ⟨d, (child.meaning c).cost, c.docCount⟩
  | orderByScore child _ _ | orderByField child _ _ _ => child.score c d

/-- The scores of those of some queries that are scored and, when that is checked, have the
document. -/
def scores (c : Catalog) (d : DocId) (checked : Bool) : List Query → List Float32
  | [] => []
  | q :: rest =>
      if q.isScored && (!checked || decide (d ∈ (q.meaning c).ids)) then
        q.score c d :: scores c d checked rest
      else scores c d checked rest

end

/-! ### Scores of meanings -/

mutual

theorem scored_meaning (c : Catalog) : (q : Query) → (q.meaning c).scored = q.isScored
  | .term field value => by
    unfold meaning isScored
    split <;> rfl
  | .multiTerm field predicate score => by
    unfold meaning isScored
    cases score <;> rfl
  | .oneOf field values score => by
    unfold meaning isScored
    cases score <;> rfl
  | .all => by
    unfold meaning isScored
    rfl
  | .and children => by
    unfold meaning isScored
    exact any_scored_meanings c children
  | .or children => by
    unfold meaning isScored
    exact any_scored_meanings c children
  | .andNot base exclusion => by
    unfold meaning isScored
    exact scored_meaning c base
  | .boost child factor => by
    unfold meaning isScored
    rfl
  | .boostBy child function => by
    unfold meaning isScored
    rfl
  | .orderByScore child take ascending => by
    unfold meaning isScored
    exact scored_meaning c child
  | .orderByField child field descending take => by
    unfold meaning isScored
    exact scored_meaning c child

theorem any_scored_meanings (c : Catalog) :
    (qs : List Query) → (meanings c qs).any (·.scored) = anyScored qs
  | [] => rfl
  | q :: qs => by
    unfold meanings anyScored
    rw [List.any_cons, scored_meaning c q, any_scored_meanings c qs]

end

theorem sum_eq_total (checked : Bool) (μs : List Meaning) (d : DocId) :
    Meaning.sum checked μs d =
      total ((μs.filter fun μ => μ.scored && μ.adds checked d).map fun μ => μ.score d) := by
  unfold Meaning.sum total
  cases μs.filter fun μ => μ.scored && μ.adds checked d with
  | nil => rfl
  | cons μ rest =>
    rw [List.map_cons]
    dsimp only
    rw [List.foldl_cons, List.foldl_cons, List.foldl_map]

mutual

theorem score_meaning (c : Catalog) (d : DocId) : (q : Query) → (q.meaning c).score d = q.score c d
  | .term field value => by
    unfold meaning score
    split <;> rfl
  | .multiTerm field predicate function => by
    unfold meaning score
    rfl
  | .oneOf field values function => by
    unfold meaning score
    rfl
  | .all => by
    unfold meaning score
    rfl
  | .and children => by
    unfold meaning score
    rw [← scores_meanings c d false children, ← sum_eq_total]
    rfl
  | .or children => by
    unfold meaning score
    rw [← scores_meanings c d true children, ← sum_eq_total]
    rfl
  | .andNot base exclusion => by
    unfold meaning score
    exact score_meaning c d base
  | .boost child factor => by
    unfold meaning score
    rw [← score_meaning c d child]
    rfl
  | .boostBy child function => by
    unfold meaning score
    rw [← score_meaning c d child]
    rfl
  | .orderByScore child take ascending => by
    unfold meaning score
    exact score_meaning c d child
  | .orderByField child field descending take => by
    unfold meaning score
    exact score_meaning c d child

theorem scores_meanings (c : Catalog) (d : DocId) (checked : Bool) : (qs : List Query) →
    ((meanings c qs).filter fun μ => μ.scored && μ.adds checked d).map (fun μ => μ.score d) =
      scores c d checked qs
  | [] => rfl
  | q :: qs => by
    unfold meanings scores
    rw [List.filter_cons, scored_meaning, Meaning.adds, ← scores_meanings c d checked qs]
    split
    · rw [List.map_cons, score_meaning c d q]
    · rfl

end

end Query

end Concordance
