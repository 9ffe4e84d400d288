import Concordance.Document
import Concordance.Reader

/-!
# Index snapshots

An index that no longer changes: the stored documents and, for each field, its dictionary and its
posting lists.
-/

namespace Concordance

structure FieldIndex where
  dictionary : Dictionary := {}
  store : PostingStore := {}

structure Index where
  fields : List (String × FieldIndex) := []
  documents : Array Document := #[]

namespace FieldIndex

variable (field : FieldIndex)

def terms : TermList where
  size := field.dictionary.size
  entry i := .ok (field.dictionary.entry i)
  lowerBound := field.dictionary.lowerBound

/-- Opens the posting list at a place, which has to lie inside the store. -/
def postings (info : TermInfo) : Except Failure PostingCursor :=
  let start := info.postingOffset
  let stop := start + info.postingLength
  let skipStart := info.skipOffset.toNat
  let skipStop := skipStart + info.skipCount.toNat
  if ¬(start ≤ stop ∧ stop.toNat ≤ field.store.data.size) then .error (.postingRange start stop)
  else if field.store.skips.size < skipStop then .error (.skipRange skipStart skipStop)
  else .ok {
    data := field.store.data.extract start.toNat stop.toNat
    skips := field.store.skips.extract skipStart skipStop }

end FieldIndex

namespace Index

variable (index : Index)

def docCount : UInt64 := UInt64.ofNat index.documents.size

def field? (name : String) : Option FieldIndex := index.fields.lookup name

def field (name : String) : Except Failure FieldIndex :=
  match index.field? name with
  | some field => .ok field
  | none => .error (.unknownField name)

def document? (d : DocId) : Option Document := index.documents[d.toNat]?

/-- The index as a reader; its terms are the caller's bytes. -/
def reader : IndexReader where
  docCount := index.docCount
  hasField name := (index.field? name).isSome
  terms name := (index.field name).map (·.terms)
  lookup name term := (index.field name).map (·.dictionary.get? term)
  postings name info := (index.field name).bind (·.postings info)
  externalId d := .ok ((index.document? d).map (·.id))
  readField d name := .ok ((index.document? d).bind (·.get? name))

end Index

end Concordance
