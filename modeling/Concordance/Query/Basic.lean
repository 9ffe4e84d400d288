import Concordance.Score
import Concordance.Term.Predicate

/-!
# Queries

What a caller asks for, without reference to an index.
-/

namespace Concordance

inductive Query where
  | term (field value : String)
  | multiTerm (field : String) (predicate : TermPredicate String) (score : Option ScoreSpec)
  | oneOf (field : String) (values : List String) (score : Option ScoreSpec)
  | all
  | and (children : List Query)
  | or (children : List Query)
  | andNot (base exclusion : Query)
  | boost (child : Query) (factor : Float32)
  | boostBy (child : Query) (function : ScoreSpec)
  /-- By score, the highest first unless `ascending`. -/
  | orderByScore (child : Query) (take : Option Int64) (ascending : Bool)
  /-- By a stored value, missing values last. -/
  | orderByField (child : Query) (field : String) (descending : Bool) (take : Option Int64)
  deriving BEq, Inhabited

namespace Query

mutual

/-- How many levels the match tree of a query has below its root; ordering adds none. -/
def depth : Query → Nat
  | term .. | multiTerm .. | oneOf .. | all => 0
  | and children | or children => depths children + 1
  | andNot base exclusion => max base.depth exclusion.depth + 1
  | boost child _ | boostBy child _ => child.depth + 1
  | orderByScore child _ _ | orderByField child _ _ _ => child.depth

def depths : List Query → Nat
  | [] => 0
  | q :: rest => max q.depth (depths rest)

end

/-- The query with a score function for its terms; a query that is not about several terms stays as
it is. -/
def scoredBy (q : Query) (function : ScoreSpec) : Query :=
  match q with
  | multiTerm field predicate _ => multiTerm field predicate (some function)
  | oneOf field values _ => oneOf field values (some function)
  | other => other

end Query

end Concordance
