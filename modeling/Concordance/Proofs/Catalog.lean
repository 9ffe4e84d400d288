import Concordance.Proofs.Posting
import Concordance.Reader

/-!
# Catalogs

What an index holds, apart from how it is stored: for each field its terms in order, each with the
ids of the documents that have it. `IndexReader.Holds` says that a reader answers by a catalog; the
reader may keep its terms in a form of its own.
-/

namespace Concordance

structure TermDocs where
  term : Bytes
  docs : List DocId
  ascending : Ascending docs

structure TermTable where
  entries : List TermDocs
  sorted : entries.Pairwise fun a b => a.term < b.term

structure Catalog where
  docCount : UInt64
  table : String → Option TermTable
  bounded {field : String} {t : TermTable} :
    table field = some t → ∀ e ∈ t.entries, ∀ d ∈ e.docs, d < docCount

namespace TermTable

def find? (t : TermTable) (term : Bytes) : Option TermDocs := t.entries.find? (·.term == term)

theorem find?_eq_some {t : TermTable} {term : Bytes} {e : TermDocs} :
    t.find? term = some e ↔ e ∈ t.entries ∧ e.term = term := by
  constructor
  · intro h
    exact ⟨List.mem_of_find?_eq_some h, by simpa using List.find?_some h⟩
  · rintro ⟨he, rfl⟩
    obtain ⟨before, after, hsplit⟩ := List.append_of_mem he
    refine List.find?_eq_some_iff_append.mpr ⟨by simp, before, after, hsplit, fun a ha => ?_⟩
    have hsorted := t.sorted
    rw [hsplit] at hsorted
    have hlt : a.term < e.term := (List.pairwise_append.mp hsorted).2.2 a ha e List.mem_cons_self
    have hne : a.term ≠ e.term := fun heq => List.lt_irrefl _ (heq ▸ hlt)
    simp [hne]

end TermTable

namespace Catalog

/-- The terms of a field; a field the index does not have is without terms. -/
def terms (c : Catalog) (field : String) : List TermDocs :=
  match c.table field with
  | some t => t.entries
  | none => []

def find? (c : Catalog) (field : String) (term : Bytes) : Option TermDocs :=
  (c.table field).bind (·.find? term)

def hasField (c : Catalog) (field : String) : Bool := (c.table field).isSome

end Catalog

namespace IndexReader

variable (reader : IndexReader)

/-- A place at which the posting list of some ids is opened. -/
def Opens (field : String) (info : TermInfo) (docs : List DocId) : Prop :=
  ∃ cursor blocks, reader.postings field info = .ok cursor ∧ blocks.flatten = docs ∧
    cursor.Reads blocks docs

/-- The term list of a field goes through the terms of a table. -/
structure Lists (field : String) (list : TermList) (t : TermTable) : Prop where
  size : list.size = t.entries.length
  entry (i : Fin list.size) {e : TermDocs} : t.entries[i.val]? = some e →
    ∃ info, list.entry i = .ok (reader.encodeTerm e.term, info) ∧
      reader.lookup field (reader.encodeTerm e.term) = .ok (some info)
  lowerBound (term : Bytes) :
    list.lowerBound (reader.encodeTerm term) = (t.entries.takeWhile (·.term < term)).length

/-- A reader that answers by a catalog. -/
structure Holds (c : Catalog) : Prop where
  docCount : reader.docCount = c.docCount
  decode (term : Bytes) : reader.decodeTerm (reader.encodeTerm term) = term
  hasField (field : String) : reader.hasField field = c.hasField field
  unknown {field : String} : c.table field = none →
    reader.terms field = .error (.unknownField field) ∧
      ∀ term, reader.lookup field term = .error (.unknownField field)
  terms {field : String} {t : TermTable} : c.table field = some t →
    ∃ list, reader.terms field = .ok list ∧ reader.Lists field list t
  absent {field : String} {t : TermTable} {term : Bytes} : c.table field = some t →
    t.find? term = none → reader.lookup field (reader.encodeTerm term) = .ok none
  present {field : String} {t : TermTable} {term : Bytes} {e : TermDocs} :
    c.table field = some t → t.find? term = some e →
    ∃ info, reader.lookup field (reader.encodeTerm term) = .ok (some info) ∧
      reader.Opens field info e.docs

variable {reader}

theorem Holds.opens {c : Catalog} (hr : reader.Holds c) {field : String} {t : TermTable}
    {e : TermDocs} {info : TermInfo} (ht : c.table field = some t) (he : e ∈ t.entries)
    (hlookup : reader.lookup field (reader.encodeTerm e.term) = .ok (some info)) :
    reader.Opens field info e.docs := by
  obtain ⟨info', hinfo, hopens⟩ := hr.present ht (TermTable.find?_eq_some.mpr ⟨he, rfl⟩)
  rw [hlookup] at hinfo
  obtain rfl := Option.some.inj (Except.ok.inj hinfo)
  exact hopens

end IndexReader

end Concordance
