import Concordance.Document
import Concordance.Query.Basic

/-!
# The meaning of queries

Which documents a query is about, told from one document alone, without an index, posting lists or
match trees. Scores and the order of hits play no part in it.
-/

namespace Concordance

/-- The terms a document has in a field. A document has its own id in the id field. -/
def Document.terms (doc : Document) (idField field : String) : List Bytes :=
  (if field = idField then [utf8 doc.id] else []) ++
    doc.fields.filterMap fun (name, value) => if name = field then some value.termBytes else none

namespace Query

mutual

/-- Whether a query is about a document. An ordering is about the same documents as what it
orders, whatever its bound. -/
def selects (idField : String) (doc : Document) : Query → Bool
  | term field value => utf8 value ∈ doc.terms idField field
  | multiTerm field predicate _ => (doc.terms idField field).any (predicate.map utf8).holds
  | oneOf field values _ => (doc.terms idField field).any (· ∈ values.map utf8)
  | all => true
  | and children => selectsAll idField doc children
  | or children => selectsAny idField doc children
  | andNot base exclusion => selects idField doc base && !selects idField doc exclusion
  | boost child _ | boostBy child _ => selects idField doc child
  | orderByScore child _ _ | orderByField child _ _ _ => selects idField doc child

def selectsAll (idField : String) (doc : Document) : List Query → Bool
  | [] => true
  | q :: rest => selects idField doc q && selectsAll idField doc rest

def selectsAny (idField : String) (doc : Document) : List Query → Bool
  | [] => false
  | q :: rest => selects idField doc q || selectsAny idField doc rest

end

end Query

end Concordance
