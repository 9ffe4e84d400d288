import Concordance.Match.Boolean
import Concordance.Match.Boost
import Concordance.Match.MultiTerm

/-!
# Match trees

`Tree n` is the type of match trees at most `n` levels high, each served in ascending order of ids.
The type is built level by level, since a batch may replace a child of a tree by its next state,
which is no part of the tree: what a tree does is defined by recursion on the height.
-/

namespace Concordance

/-- The root of a match tree whose children are of type `M`. -/
inductive Node (M : Type) where
  | none (m : NoMatch)
  | all (m : AllMatch)
  | term (m : TermMatch)
  | multiTerm (m : MultiTermMatch)
  | and (m : AndMatch M)
  | or (m : OrMatch M)
  | andNot (m : AndNotMatch M)
  | boost (m : BoostMatch M)

namespace Node

variable {M : Type} [Matcher M]

/-- Puts the state back under its constructor. -/
def wrap (node : S → Node M) (step : Except Failure α × S) : Except Failure α × Node M :=
  (step.1, node step.2)

def fill (node : Node M) (n : Nat) : Except Failure (List DocId) × Node M :=
  match node with
  | none m => wrap none (IdSource.fill m n)
  | all m => wrap all (IdSource.fill m n)
  | term m => wrap term (IdSource.fill m n)
  | multiTerm m => wrap multiTerm (IdSource.fill m n)
  | and m => wrap and (IdSource.fill m n)
  | or m => wrap or (IdSource.fill m n)
  | andNot m => wrap andNot (IdSource.fill m n)
  | boost m => wrap boost (IdSource.fill m n)

def reset : Node M → Node M
  | none m => none (IdSource.reset m)
  | all m => all (IdSource.reset m)
  | term m => term (IdSource.reset m)
  | multiTerm m => multiTerm (IdSource.reset m)
  | and m => and (IdSource.reset m)
  | or m => or (IdSource.reset m)
  | andNot m => andNot (IdSource.reset m)
  | boost m => boost (IdSource.reset m)

def left : Node M → Nat
  | none m => IdSource.left m
  | all m => IdSource.left m
  | term m => IdSource.left m
  | multiTerm m => IdSource.left m
  | and m => IdSource.left m
  | or m => IdSource.left m
  | andNot m => IdSource.left m
  | boost m => IdSource.left m

theorem left_wrap {S : Type} [IdSource S] {node : S → Node M}
    (hnode : ∀ s, left (node s) = IdSource.left s) {s : S} {n : Nat} {ids : List DocId}
    {m' : Node M} (h : wrap node (IdSource.fill s n) = (.ok ids, m')) :
    m'.left + ids.length ≤ IdSource.left s := by
  obtain ⟨hr, rfl⟩ := Prod.mk.inj h
  rw [hnode]
  exact IdSource.left_fill (Prod.ext hr rfl)

theorem left_fill {m m' : Node M} {n : Nat} {ids : List DocId} (h : m.fill n = (.ok ids, m')) :
    m'.left + ids.length ≤ m.left := by
  cases m <;> exact left_wrap (fun _ => rfl) h

instance : IdSource (Node M) where
  fill := fill
  reset := reset
  left := left
  left_fill := left_fill

def evaluate (node : Node M) (d : DocId) : Except Failure Bool :=
  match node with
  | none m => Matcher.evaluate m d
  | all m => Matcher.evaluate m d
  | term m => Matcher.evaluate m d
  | multiTerm m => Matcher.evaluate m d
  | and m => Matcher.evaluate m d
  | or m => Matcher.evaluate m d
  | andNot m => Matcher.evaluate m d
  | boost m => Matcher.evaluate m d

def score (node : Node M) (ids : List DocId) (buffer : Array Float32) :
    Except Failure (Array Float32) × Node M :=
  match node with
  | none m => wrap none (Matcher.score m ids buffer)
  | all m => wrap all (Matcher.score m ids buffer)
  | term m => wrap term (Matcher.score m ids buffer)
  | multiTerm m => wrap multiTerm (Matcher.score m ids buffer)
  | and m => wrap and (Matcher.score m ids buffer)
  | or m => wrap or (Matcher.score m ids buffer)
  | andNot m => wrap andNot (Matcher.score m ids buffer)
  | boost m => wrap boost (Matcher.score m ids buffer)

def isScored : Node M → Bool
  | none m => Matcher.isScored m
  | all m => Matcher.isScored m
  | term m => Matcher.isScored m
  | multiTerm m => Matcher.isScored m
  | and m => Matcher.isScored m
  | or m => Matcher.isScored m
  | andNot m => Matcher.isScored m
  | boost m => Matcher.isScored m

def cost : Node M → UInt64
  | none m => Matcher.cost m
  | all m => Matcher.cost m
  | term m => Matcher.cost m
  | multiTerm m => Matcher.cost m
  | and m => Matcher.cost m
  | or m => Matcher.cost m
  | andNot m => Matcher.cost m
  | boost m => Matcher.cost m

def inspect : Node M → Inspection
  | none m => Matcher.inspect m
  | all m => Matcher.inspect m
  | term m => Matcher.inspect m
  | multiTerm m => Matcher.inspect m
  | and m => Matcher.inspect m
  | or m => Matcher.inspect m
  | andNot m => Matcher.inspect m
  | boost m => Matcher.inspect m

instance : Matcher (Node M) where
  evaluate := evaluate
  score := score
  left_score m ids buffer := by
    cases m with
    | none m | all m | term m | multiTerm m | and m | or m | andNot m | boost m =>
      exact Matcher.left_score m ids buffer
  isScored := isScored
  cost := cost
  inspect := inspect

end Node

instance : Matcher Empty where
  fill m := nomatch m
  reset m := m
  left m := nomatch m
  left_fill {m} := nomatch m
  evaluate m := nomatch m
  score m := nomatch m
  left_score m := nomatch m
  isScored m := nomatch m
  cost m := nomatch m
  inspect m := nomatch m

/-- Match trees at most `n` levels high. -/
def Tree : Nat → Type
  | 0 => Node Empty
  | n + 1 => Node (Tree n)

namespace Tree

instance matcher : (n : Nat) → Matcher (Tree n)
  | 0 => inferInstanceAs (Matcher (Node Empty))
  | n + 1 =>
      have := matcher n
      inferInstanceAs (Matcher (Node (Tree n)))

def Child : Nat → Type
  | 0 => Empty
  | n + 1 => Tree n

def ofNode : {n : Nat} → Node (Child n) → Tree n
  | 0, node => node
  | _ + 1, node => node

end Tree

end Concordance
