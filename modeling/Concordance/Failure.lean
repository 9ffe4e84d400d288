import Concordance.Decimal.Layout

/-!
# Failures

Everything that can go wrong, by cause. `Failure.kind` sorts the causes by the layer that reports
them and `Failure.message` words them.
-/

namespace Concordance

inductive FailureKind where
  | io
  | index
  | field
  | query
  | storage
  | json
  | other
  deriving DecidableEq

def FailureKind.heading : FailureKind → String
  | .io => "I/O error: "
  | .index => "Index error: "
  | .field => "Field error: "
  | .query => "Query error: "
  | .storage => "Storage error: "
  | .json => "JSON error: "
  | .other => "Error: "

inductive Failure where
  | unreadable
  | malformedJson
  | emptyIdField
  | notPositive (setting : String)
  | scoreSlots (slots ids : Nat)
  | notAscending
  | postingsTooLong
  | unknownField (field : String)
  | unknownSortField (field : String)
  | tooManyTerms (operation field : String) (limit : Nat)
  | noChildren
  | orderedChild (parent child : String)
  | orderedTwice
  | boostFactor (factor : Float32)
  | zeroTake
  | takeNotPositive (take : Int64)
  | varintOverflow
  | varintUnfinished
  | postingOffset
  | postingRange (start stop : UInt64)
  | skipRange (start stop : Nat)
  /-- A failure of a caller or of a reader, in its own words. -/
  | reported (kind : FailureKind) (text : String)
  deriving DecidableEq

namespace Failure

def kind : Failure → FailureKind
  | unreadable => .io
  | malformedJson => .json
  | emptyIdField | notPositive _ | scoreSlots .. => .other
  | notAscending | postingsTooLong => .index
  | unknownField _ => .field
  | unknownSortField _ | tooManyTerms .. | noChildren | orderedChild .. | orderedTwice
  | boostFactor _ | zeroTake | takeNotPositive _ => .query
  | varintOverflow | varintUnfinished | postingOffset | postingRange .. | skipRange .. => .storage
  | reported kind _ => kind

def invalidConfiguration (text : String) : Failure :=
  reported .other s!"Invalid configuration: {text}"

def invalidArgument (text : String) : Failure := reported .other s!"Invalid argument: {text}"

def detail : Failure → String
  | unreadable => "unreadable file"
  | malformedJson => "malformed text"
  | emptyIdField => "Invalid configuration: id_field must not be empty"
  | notPositive setting => s!"Invalid configuration: {setting} must be greater than zero"
  | scoreSlots slots ids => s!"Invalid argument: score buffer holds {slots} slots for {ids} ids"
  | notAscending => "posting list must be strictly ascending"
  | postingsTooLong => "posting list exceeds 4 GiB"
  | unknownField field => s!"unknown field '{field}'"
  | unknownSortField field => s!"unknown sort field '{field}'"
  | tooManyTerms operation field limit =>
      s!"{operation} on field '{field}' expands to more than {limit} terms"
  | noChildren => "AndMatch requires at least one child"
  | orderedChild parent child =>
      s!"{parent} cannot wrap {child}: ordering must be the root of a match tree"
  | orderedTwice => "OrderByMatch cannot wrap another ordering stage"
  | boostFactor factor =>
      let text := Single.text factor
      s!"boost must be a non-negative number, got {text}"
  | zeroTake => "take must be greater than zero"
  | takeNotPositive take => s!"take must be greater than zero, got {take}"
  | varintOverflow => "VarInt overflow"
  | varintUnfinished => "Incomplete VarInt"
  | postingOffset => "posting offset out of bounds"
  | postingRange start stop => s!"posting range {start}..{stop} out of bounds"
  | skipRange start stop => s!"skip range {start}..{stop} out of bounds"
  | reported _ text => text

def message (failure : Failure) : String := failure.kind.heading ++ failure.detail

/-- Whether the failure is a mistake in a query, found while its match tree is built. -/
def isConfiguration (failure : Failure) : Bool :=
  failure.kind == .field || failure.kind == .query

end Failure

end Concordance
