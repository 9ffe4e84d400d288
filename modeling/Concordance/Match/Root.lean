import Concordance.Match.Ordering
import Concordance.Match.Tree

/-!
# Matches

A match is a match tree, or an ordering stage over one: only the root of a match can order. The
constructors that combine matches refuse what cannot be combined.
-/

namespace Concordance

/-- A match whose tree is at most `n` levels high. -/
inductive Match (n : Nat) where
  | plain (tree : Tree n)
  | ordered (stage : OrderBy (Tree n))

namespace Match

variable {n : Nat}

/-! ### What a match does -/

def fill (m : Match n) (size : Nat) : Except Failure (List DocId) × Match n :=
  match m with
  | plain tree =>
      let (result, tree) := IdSource.fill tree size
      (result, plain tree)
  | ordered stage =>
      let (result, stage) := IdSource.fill stage size
      (result, ordered stage)

def reset : Match n → Match n
  | plain tree => plain (IdSource.reset tree)
  | ordered stage => ordered (IdSource.reset stage)

def left : Match n → Nat
  | plain tree => IdSource.left tree
  | ordered stage => IdSource.left stage

theorem left_fill {m m' : Match n} {size : Nat} {ids : List DocId}
    (h : m.fill size = (.ok ids, m')) : m'.left + ids.length ≤ m.left := by
  cases m <;>
  · obtain ⟨hr, rfl⟩ := Prod.mk.inj h
    exact IdSource.left_fill (Prod.ext hr rfl)

instance : IdSource (Match n) where
  fill := fill
  reset := reset
  left := left
  left_fill := left_fill

/-- Whether a document matches; a bounded ordering stage is drained to tell. -/
def evaluate (m : Match n) (d : DocId) : Except Failure Bool × Match n :=
  match m with
  | plain tree => (Matcher.evaluate tree d, m)
  | ordered stage =>
      let (result, stage) := stage.evaluate d
      (result, ordered stage)

def tree : Match n → Tree n
  | plain tree => tree
  | ordered stage => stage.inner

def score (m : Match n) (ids : List DocId) (buffer : Array Float32) :
    Except Failure (Array Float32) × Match n :=
  match m with
  | plain tree =>
      let (result, tree) := Matcher.score tree ids buffer
      (result, plain tree)
  | ordered stage =>
      let (result, stage) := stage.score ids buffer
      (result, ordered stage)

theorem left_score (m : Match n) (ids : List DocId) (buffer : Array Float32) :
    IdSource.left (m.score ids buffer).2 = IdSource.left m := by
  cases m with
  | plain tree => exact Matcher.left_score tree ids buffer
  | ordered stage => exact stage.left_score ids buffer

def isScored (m : Match n) : Bool := Matcher.isScored m.tree

def isOrdered : Match n → Bool
  | plain _ => false
  | ordered _ => true

def cost : Match n → UInt64
  | plain tree => Matcher.cost tree
  | ordered stage => stage.cost

def inspect : Match n → Inspection
  | plain tree => Matcher.inspect tree
  | ordered stage => stage.inspect

/-! ### Making matches -/

def ofNode (node : Node (Tree.Child n)) : Match n := plain (Tree.ofNode node)

def child (parent : String) (m : Match n) : Except Failure (Tree n) :=
  match m with
  | plain tree => .ok tree
  | ordered stage => .error (.orderedChild parent stage.inspect.operation)

def children (parent : String) : List (Match n) → Except Failure (List (Tree n))
  | [] => .ok []
  | m :: rest => do
      let tree ← m.child parent
      let trees ← children parent rest
      pure (tree :: trees)

def and (config : MatchConfig) (parts : List (Match n)) : Except Failure (Match (n + 1)) :=
  match parts with
  | [] => .error .noChildren
  | m :: rest => do
      let first ← m.child "AndMatch"
      let others ← children "AndMatch" rest
      pure (plain (Node.and (.ofCons first others config.scoreBatchSize)))

def or (config : MatchConfig) (parts : List (Match n)) : Except Failure (Match (n + 1)) := do
  let trees ← children "OrMatch" parts
  pure (plain (Node.or (.ofList trees config.fillBatchSize config.scoreBatchSize)))

def andNot (base exclusion : Match n) : Except Failure (Match (n + 1)) := do
  let base ← base.child "AndNotMatch"
  let exclusion ← exclusion.child "AndNotMatch"
  pure (plain (Node.andNot { base, exclusion }))

def boost (inner : Match n) (factor : Float32) : Except Failure (Match (n + 1)) :=
  if factor.isNaN || factor < 0 then .error (.boostFactor factor)
  else (inner.child "BoostMatch").map fun inner =>
    plain (Node.boost { inner, boost := .constant factor })

def boostBy (inner : Match n) (function : ScoreFunction) (totalDocs : UInt64) :
    Except Failure (Match (n + 1)) :=
  (inner.child "BoostMatch").map fun inner =>
    plain (Node.boost { inner, boost := .function function totalDocs })

/-- A match in the order of a comparer, no more than `take` of it when there is a bound. -/
def orderBy (inner : Match n) (comparer : SortComparer) (reader : IndexReader)
    (take : Option Nat) (config : MatchConfig) : Except Failure (Match n) :=
  if take = some 0 then .error .zeroTake
  else
    match comparer.field.filter (!reader.hasField ·) with
    | some field => .error (.unknownSortField field)
    | none =>
        match inner with
        | plain tree => .ok (ordered (.ofMatch tree comparer reader take config))
        | ordered _ => .error .orderedTwice

end Match

end Concordance
