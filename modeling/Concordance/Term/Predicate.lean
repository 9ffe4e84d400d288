import Concordance.Text.Utf8

/-!
# Term predicates

Conditions on the bytes of a term. The operand is a text where a predicate is written down and
bytes where it is tested.
-/

namespace Concordance

inductive TermPredicate (α : Type) where
  | startsWith (operand : α)
  | notStartsWith (operand : α)
  | endsWith (operand : α)
  | contains (operand : α)
  | notContains (operand : α)
  | present
  deriving DecidableEq, BEq

/-- Whether `part` occurs somewhere in `whole`. -/
def isInfixOf (part : Bytes) : Bytes → Bool
  | [] => part.isEmpty
  | b :: rest => part.isPrefixOf (b :: rest) || isInfixOf part rest

namespace TermPredicate

def name : TermPredicate α → String
  | startsWith _ => "StartsWith"
  | notStartsWith _ => "NotStartsWith"
  | endsWith _ => "EndsWith"
  | contains _ => "Contains"
  | notContains _ => "NotContains"
  | present => "Exists"

def operand? : TermPredicate α → Option α
  | startsWith a | notStartsWith a | endsWith a | contains a | notContains a => some a
  | present => none

def map (f : α → β) : TermPredicate α → TermPredicate β
  | startsWith a => startsWith (f a)
  | notStartsWith a => notStartsWith (f a)
  | endsWith a => endsWith (f a)
  | contains a => contains (f a)
  | notContains a => notContains (f a)
  | present => present

def holds (term : Bytes) : TermPredicate Bytes → Bool
  | startsWith bytes => bytes.isPrefixOf term
  | notStartsWith bytes => !bytes.isPrefixOf term
  | endsWith bytes => bytes.isSuffixOf term
  | contains bytes => isInfixOf bytes term
  | notContains bytes => !isInfixOf bytes term
  | present => true

/-- Where to start looking for qualifying terms, when that is not at the first term. -/
def seekTarget? : TermPredicate Bytes → Option Bytes
  | startsWith bytes => some bytes
  | _ => none

/-- Whether no term after `term`, which does not qualify, can qualify: terms with one beginning
stand together, those of every other predicate may be anywhere. -/
def endsScan (term : Bytes) : TermPredicate Bytes → Bool
  | startsWith bytes => !bytes.isPrefixOf term
  | _ => false

def display (p : TermPredicate Bytes) : String :=
  match p.operand? with
  | some bytes => p.name ++ "(" ++ lossyText bytes ++ ")"
  | none => p.name

end TermPredicate

end Concordance
