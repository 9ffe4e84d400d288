import Concordance.Proofs.Build
import Concordance.Proofs.Enumeration
import Concordance.Proofs.RecodedSearch

/-!
# Document frequencies

How many documents have a term can be asked of a reader, of the match of the term, and of the match
that a listed term gives. Over a reader with terms in a form of its own the matches take the caller's
term, and the reader the form it keeps: `Recodes.docFreq_paths`. Given the caller's term, the reader
does not find what the matches count: `Recodes.docFreq_marked`.
-/

namespace Concordance

/-- How many documents have a term. -/
def IndexWriter.docFreq (w : IndexWriter) (field : String) (term : Bytes) : UInt64 :=
  UInt64.ofNat (w.holders field term).length

/-- What is found in a list does not depend on the place of the provider. -/
theorem ListedTerms.firstOf_rest (p : ListedTerms) (rest terms : List Bytes) :
    firstOf { p with rest } terms = p.firstOf terms := by
  induction terms with
  | nil => rfl
  | cons term terms ih =>
    unfold firstOf
    rw [ih]
    rfl

namespace IndexReader

/-- What looking up a term leads to: a place that opens the list of the documents that have the
term, both with their number, and nothing for a term without documents. -/
structure Counts (reader : IndexReader) (field : String) (term : Bytes) (count : UInt64) : Prop where
  absent : count = 0 → reader.lookup field (reader.encodeTerm term) = .ok none
  present : count ≠ 0 → ∃ info cursor,
    reader.lookup field (reader.encodeTerm term) = .ok (some info) ∧
      reader.postings field info = .ok cursor ∧ info.docFrequency = count ∧ cursor.docFreq = count

namespace Counts

variable {reader : IndexReader} {field : String} {term : Bytes} {count : UInt64}

theorem termDocFreq (h : reader.Counts field term count) :
    reader.termDocFreq field (reader.encodeTerm term) = .ok count := by
  rw [IndexReader.termDocFreq]
  by_cases hcount : count = 0
  · rw [h.absent hcount, hcount]
    rfl
  · obtain ⟨info, cursor, hlookup, -, hfrequency, -⟩ := h.present hcount
    rw [hlookup, ← hfrequency]
    rfl

theorem ofTerm (h : reader.Counts field term count) :
    ∃ m, TermMatch.ofTerm reader field term = .ok m ∧ m.docFreq = count ∧ Matcher.cost m = count := by
  unfold TermMatch.ofTerm
  by_cases hcount : count = 0
  · rw [h.absent hcount]
    exact ⟨_, rfl, hcount.symm, hcount.symm⟩
  · obtain ⟨info, cursor, hlookup, hopen, -, hlength⟩ := h.present hcount
    refine ⟨⟨field, term, some cursor⟩, ?_, hlength, hlength⟩
    simp only [hlookup, hopen, bind, Except.bind, pure, Except.pure]

/-- A listed term without documents is skipped, and any other one gives its match. -/
theorem next (h : reader.Counts field term count) {p : ListedTerms} {rest : List Bytes}
    (hreader : p.reader = reader) (hfield : p.field = field) (hrest : p.rest = term :: rest) :
    (count = 0 → p.next = { p with rest }.next) ∧
      (count ≠ 0 → ∃ m, p.next = (.ok (some m), { p with rest }) ∧ m.term = term ∧
        m.docFreq = count) := by
  subst hreader hfield
  constructor
  · intro hcount
    have hopen : p.open? term = .ok none := by
      simp only [ListedTerms.open?, h.absent hcount, bind, Except.bind, pure, Except.pure]
    rw [ListedTerms.next, hrest, ListedTerms.firstOf, hopen]
    rw [ListedTerms.next, ListedTerms.firstOf_rest p rest rest]
  · intro hcount
    obtain ⟨info, cursor, hlookup, hpostings, -, hlength⟩ := h.present hcount
    have hopen : p.open? term = .ok (some cursor) := by
      simp only [ListedTerms.open?, hlookup, hpostings, bind, Except.bind, pure, Except.pure]
    refine ⟨⟨p.field, term, some cursor⟩, ?_, rfl, hlength⟩
    rw [ListedTerms.next, hrest, ListedTerms.firstOf, hopen]

/-- The one match that a list of one term gives, if any. -/
theorem listed (h : reader.Counts field term count) (hfield : reader.hasField field = true) :
    ∃ p m?, ListedTerms.ofField reader field [term] = .ok p ∧
      (TermProvider.next p).1 = .ok m? ∧ (m?.map (·.docFreq)).getD 0 = count := by
  obtain ⟨hskips, hgives⟩ := h.next (p := ⟨reader, field, [term], [term]⟩) rfl rfl rfl
  by_cases hcount : count = 0
  · exact ⟨_, none, if_pos hfield, congrArg Prod.fst (hskips hcount), hcount.symm⟩
  · obtain ⟨m, hnext, -, hm⟩ := hgives hcount
    exact ⟨_, some m, if_pos hfield, congrArg Prod.fst hnext, hm⟩

end Counts

end IndexReader

/-! ### Committed indexes -/

namespace IndexWriter

variable {w : IndexWriter} {index : Index} {reader : IndexReader} {field : String} {term : Bytes}

theorem docFreq_toNat (hs : w.documents.size < UInt32.size) :
    (w.docFreq field term).toNat = (w.holders field term).length :=
  UInt64.toNat_ofNat_of_lt' (length_holders_lt hs term)

theorem docFreq_eq_zero_iff (hs : w.documents.size < UInt32.size) :
    w.docFreq field term = 0 ↔ term ∉ w.contributed field := by
  rw [contributed_iff_pair hs, ← UInt64.toNat_inj, docFreq_toNat hs, UInt64.toNat_zero,
    List.length_eq_zero_iff, List.eq_nil_iff_forall_not_mem, not_exists]
  simp only [mem_pairs hs]

/-- A reader that keeps the terms of a committed index in a form of its own counts documents. -/
theorem Committed.counts (h : w.Committed index) (hr : reader.Recodes index)
    (hfield : reader.hasField field = true) (term : Bytes) :
    reader.Counts field term (w.docFreq field term) := by
  rw [hr.hasField, h.reader_holds.hasField] at hfield
  obtain ⟨first, hfirst⟩ := hasField_iff_contributed.mp hfield
  have htable := table_of_contributed hfirst
  constructor
  · intro hcount
    have hnone : (w.table field).find? term = none := by
      rw [← Option.map_eq_none_iff, find?_table, if_neg ((docFreq_eq_zero_iff h.size_lt).mp hcount)]
    rw [hr.lookup]
    exact h.reader_holds.absent htable hnone
  · intro hcount
    have hterm : term ∈ w.contributed field :=
      not_not.mp (mt (docFreq_eq_zero_iff h.size_lt).mpr hcount)
    have hfind : (w.table field).find? term =
        some ⟨term, w.holders field term, ascending_holders term⟩ :=
      TermTable.find?_eq_some.mpr ⟨List.mem_map.mpr ⟨term, hterm, rfl⟩, rfl⟩
    obtain ⟨info, hlookup, -⟩ := h.reader_holds.present htable hfind
    obtain ⟨cursor, hopen, hdelivers⟩ := h.opens hlookup
    refine ⟨info, cursor, (hr.lookup field term).trans hlookup, ?_, (h.found hlookup).2, ?_⟩
    · rw [hr.postings, hopen]
    · rw [← UInt64.toNat_inj, docFreq_toNat h.size_lt]
      exact (hdelivers []).2

theorem hasField_tagged (h : tagged.Committed index) : index.reader.hasField "tag" = true := by
  rw [h.reader_holds.hasField]
  decide +kernel

end IndexWriter

namespace IndexReader.Recodes

variable {w : IndexWriter} {index : Index} {reader : IndexReader} {field : String}

/-- The match of a term, and the match that a list gives for it, count the documents that have the
term, and so does the reader when it is given the term in its own form. For a term that has the same
form there, all counts are those for the caller's term. -/
theorem docFreq_paths (hr : reader.Recodes index) (h : w.Committed index)
    (hfield : reader.hasField field = true) (term : Bytes) :
    ∃ count : UInt64, count.toNat = (w.holders field term).length ∧
      (∃ m, TermMatch.ofTerm reader field term = .ok m ∧ m.docFreq = count ∧
        Matcher.cost m = count) ∧
      (∀ (p : ListedTerms) (rest : List Bytes),
        p.reader = reader → p.field = field → p.rest = term :: rest →
        (count = 0 → TermProvider.next p = TermProvider.next { p with rest }) ∧
          (count ≠ 0 → ∃ m, TermProvider.next p = (.ok (some m), { p with rest }) ∧
            m.term = term ∧ m.docFreq = count)) ∧
      (∃ p m?, ListedTerms.ofField reader field [term] = .ok p ∧
        (TermProvider.next p).1 = .ok m? ∧ (m?.map (·.docFreq)).getD 0 = count) ∧
      reader.termDocFreq field (reader.encodeTerm term) = .ok count ∧
      (reader.encodeTerm term = term → reader.termDocFreq field term = .ok count) := by
  have hcounts := h.counts hr hfield term
  refine ⟨w.docFreq field term, IndexWriter.docFreq_toNat h.size_lt, hcounts.ofTerm,
    fun p rest => hcounts.next, hcounts.listed hfield, hcounts.termDocFreq, fun hsame => ?_⟩
  rw [← hcounts.termDocFreq, hsame]

/-- A term of one document over a reader that has a mark in front of its terms. -/
theorem docFreq_paths_marked : ∃ index, IndexWriter.tagged.Committed index ∧
    index.markedReader.Recodes index ∧ index.markedReader.hasField "tag" = true ∧
    ∃ count : UInt64, count.toNat = 1 ∧
      (∃ m, TermMatch.ofTerm index.markedReader "tag" (utf8 "x") = .ok m ∧ m.docFreq = count) ∧
      index.markedReader.termDocFreq "tag" (35 :: utf8 "x") = .ok count := by
  obtain ⟨index, h⟩ := IndexWriter.exists_tagged
  have hr := IndexWriter.markedReader_recodes h.commit
  have hfield := (hr.hasField "tag").trans (IndexWriter.hasField_tagged h)
  obtain ⟨count, hcount, ⟨m, hm, hdocs, -⟩, -, -, hreader, -⟩ := docFreq_paths hr h hfield (utf8 "x")
  have hone : (IndexWriter.tagged.holders "tag" (utf8 "x")).length = 1 := by
    cbv
  exact ⟨index, h, hr, hfield, count, hcount.trans hone, ⟨m, hm, hdocs⟩, hreader⟩

/-- Given the caller's term, a reader that has a mark in front of its terms finds no documents,
where the match of the term and the match that a list gives for it have one. -/
theorem docFreq_marked : ∃ index, IndexWriter.tagged.Committed index ∧
    index.markedReader.Recodes index ∧ index.markedReader.hasField "tag" = true ∧
    index.markedReader.termDocFreq "tag" (utf8 "x") = .ok 0 ∧
    (∃ m, TermMatch.ofTerm index.markedReader "tag" (utf8 "x") = .ok m ∧ m.docFreq = 1 ∧
      Matcher.cost m = 1) ∧
    ∃ p m?, ListedTerms.ofField index.markedReader "tag" [utf8 "x"] = .ok p ∧
      (TermProvider.next p).1 = .ok m? ∧ (m?.map (·.docFreq)).getD 0 = 1 := by
  obtain ⟨index, h⟩ := IndexWriter.exists_tagged
  have hr := IndexWriter.markedReader_recodes h.commit
  have hfield := (hr.hasField "tag").trans (IndexWriter.hasField_tagged h)
  have hcounts := h.counts hr hfield (utf8 "x")
  have hone : IndexWriter.tagged.docFreq "tag" (utf8 "x") = 1 := by
    cbv
  rw [hone] at hcounts
  exact ⟨index, h, hr, hfield, rfl, hcounts.ofTerm, hcounts.listed hfield⟩

end IndexReader.Recodes

end Concordance
