import Concordance.Index.Config
import Concordance.Index.Snapshot

/-!
# Building an index

A writer collects documents; `commit` turns what they contribute into an index. A document
contributes its own id to the id field and the term of each of its values to the value's field.
-/

namespace Concordance

structure Contribution where
  field : String
  term : Bytes
  doc : DocId

def Document.contributions (idField : String) (d : DocId) (doc : Document) : List Contribution :=
  ⟨idField, utf8 doc.id, d⟩ :: doc.fields.map fun (name, value) => ⟨name, value.termBytes, d⟩

structure TermPostings where
  term : Bytes
  data : Bytes
  skips : List SkipEntry
  docFrequency : UInt64

namespace TermPostings

/-- A term with the list of its ascending ids. -/
def ofDocs (blockSize : Nat) (term : Bytes) (docs : List DocId) : Except Failure TermPostings :=
  (Posting.encode blockSize docs).map fun (data, skips) =>
    { term, data, skips, docFrequency := UInt64.ofNat docs.length }

def store (lists : List TermPostings) : PostingStore :=
  { data := (lists.flatMap (·.data)).toArray, skips := (lists.flatMap (·.skips)).toArray }

/-- The terms with their places in the store, the first list being at the given offsets. -/
def places (offset skipOffset : Nat) : List TermPostings → List TermEntry
  | [] => []
  | list :: rest =>
      let info : TermInfo := {
        postingOffset := UInt64.ofNat offset
        postingLength := UInt64.ofNat list.data.length
        skipOffset := UInt32.ofNat skipOffset
        skipCount := UInt32.ofNat list.skips.length
        docFrequency := list.docFrequency }
      (list.term, info) :: places (offset + list.data.length) (skipOffset + list.skips.length) rest

end TermPostings

structure IndexWriter where
  config : IndexConfig
  documents : Array Document := #[]

namespace IndexWriter

def ofConfig (config : IndexConfig) : Except Failure IndexWriter :=
  config.validate.map fun _ => { config }

def docCount (w : IndexWriter) : UInt64 := UInt64.ofNat w.documents.size

/-- Adds a document; its id is the number of documents before it. -/
def add (w : IndexWriter) (doc : Document) : DocId × IndexWriter :=
  (w.docCount, { w with documents := w.documents.push doc })

def contributions (w : IndexWriter) : List Contribution :=
  w.documents.toList.zipIdx.flatMap fun (doc, i) =>
    doc.contributions w.config.idField (UInt64.ofNat i)

/-- Joins neighbours with the same term; of equal neighbouring ids one stays. -/
def groupTerms : List (Bytes × DocId) → List (Bytes × List DocId)
  | [] => []
  | (term, d) :: rest =>
      match groupTerms rest with
      | (next, docs) :: groups =>
          if term = next then (term, if docs.head? = some d then docs else d :: docs) :: groups
          else (term, [d]) :: (next, docs) :: groups
      | [] => [(term, [d])]

/-- The terms of a field in ascending order with their ascending ids. -/
def fieldTerms (contributions : List Contribution) (field : String) : List (Bytes × List DocId) :=
  let own := contributions.filterMap fun c => if c.field = field then some (c.term, c.doc) else none
  groupTerms (own.mergeSort fun a b => a.1 ≤ b.1)

def fieldIndex (blockSize : Nat) (terms : List (Bytes × List DocId)) :
    Except Failure FieldIndex := do
  let lists ← terms.mapM fun (term, docs) => TermPostings.ofDocs blockSize term docs
  pure { dictionary := .ofList (TermPostings.places 0 0 lists), store := TermPostings.store lists }

def commit (w : IndexWriter) : Except Failure Index := do
  let contributions := w.contributions
  let names := (contributions.map (·.field)).eraseDups
  let fields ← names.mapM fun name => do
    let field ← fieldIndex w.config.postingBlockSize (fieldTerms contributions name)
    pure (name, field)
  pure { fields, documents := w.documents }

end IndexWriter

end Concordance
