import Mathlib
import Concordance.Proofs.Commit
import Concordance.Proofs.DictionaryCalls
import Concordance.Proofs.PostingCalls
import Concordance.Proofs.Provider

/-!
# Building an index

What the reader of a committed index answers about each field is told from the documents that were
added: `IndexWriter.commit_describes`.
-/

namespace Concordance

/-! ### Enumerating terms -/

/-- A cursor enumerates the terms of a table, each with the place that looking it up gives. -/
theorem IndexReader.Lists.all {reader : IndexReader} {field : String} {list : TermList}
    {t : TermTable} (hl : reader.Lists field list t) (position : Nat) {rest : List TermDocs}
    (hrest : t.entries.drop position = rest) :
    ∃ entries, (TermCursor.all ⟨list, position⟩).1 = .ok entries ∧
      List.Forall₂ (fun e entry => entry.1 = reader.encodeTerm e.term ∧
        reader.lookup field (reader.encodeTerm e.term) = .ok (some entry.2)) rest entries := by
  induction rest generalizing position with
  | nil =>
    have hge : ¬position < list.size := by
      rw [hl.size]
      exact Nat.not_lt.mpr (List.drop_eq_nil_iff.mp hrest)
    have hnext : TermCursor.next ⟨list, position⟩ = (.ok none, ⟨list, position⟩) := by
      rw [TermCursor.next, dif_neg hge]
    exact ⟨[], TermCursor.all_of_none hnext, .nil⟩
  | cons e rest ih =>
    obtain ⟨info, hnext, hlookup, hmore⟩ := hl.next hrest
    obtain ⟨entries, hall, hentries⟩ := ih _ hmore
    exact ⟨_ :: entries, TermCursor.all_of_some hnext hall, .cons ⟨rfl, hlookup⟩ hentries⟩

/-! ### Fields of an index -/

/-- The terms of a field of an index, as documents with the ids 0, 1, 2, … contribute them. -/
structure Index.Describes (index : Index) (idField : String) (docs : List Document) (field : String)
    (entries : List TermEntry) : Prop where
  /-- A cursor of the field enumerates the entries. -/
  terms : ∃ list, index.reader.terms field = .ok list ∧
    (TermCursor.all { terms := list }).1 = .ok entries
  ascending : entries.Pairwise fun a b => a.1 < b.1
  contributed (term : Bytes) :
    (∃ info, (term, info) ∈ entries) ↔ ∃ doc ∈ docs, term ∈ doc.terms idField field
  lookup (term : Bytes) (info : TermInfo) :
    index.reader.lookup field term = .ok (some info) ↔ (term, info) ∈ entries
  /-- The place of a term opens the list of the documents that have it, and counts them. -/
  postings {term : Bytes} {info : TermInfo} : (term, info) ∈ entries →
    ∃ ids cursor, Ascending ids ∧
      (∀ d, d ∈ ids ↔ ∃ doc, docs[d.toNat]? = some doc ∧ term ∈ doc.terms idField field) ∧
      index.reader.postings field info = .ok cursor ∧ cursor.Delivers ids ∧
      info.docFrequency.toNat = ids.length ∧
      index.reader.termDocFreq field term = .ok info.docFrequency

namespace IndexWriter

variable {w : IndexWriter} {index : Index} {field : String} {term : Bytes} {info : TermInfo}

theorem table_of_contributed (h : term ∈ w.contributed field) :
    w.catalog.table field = some (w.table field) :=
  if_neg (mt List.isEmpty_iff.mp (List.ne_nil_of_mem h))

theorem hasField_iff_contributed :
    w.catalog.hasField field = true ↔ ∃ term, term ∈ w.contributed field := by
  constructor
  · intro h
    by_contra hnone
    have hempty : (w.contributed field).isEmpty := by
      rw [List.isEmpty_iff, List.eq_nil_iff_forall_not_mem]
      exact not_exists.mp hnone
    have htable : w.catalog.table field = none := if_pos hempty
    rw [Catalog.hasField, htable] at h
    cases h
  · rintro ⟨term, hterm⟩
    rw [Catalog.hasField, table_of_contributed hterm]
    rfl

theorem hasField_catalog : w.catalog.hasField field = true ↔
    ∃ doc ∈ w.documents.toList, w.termsOf field doc ≠ [] := by
  rw [hasField_iff_contributed]
  constructor
  · rintro ⟨term, hterm⟩
    obtain ⟨doc, hdoc, hmem⟩ := mem_contributed.mp hterm
    exact ⟨doc, hdoc, List.ne_nil_of_mem hmem⟩
  · rintro ⟨doc, hdoc, hne⟩
    obtain ⟨term, hterm⟩ := List.exists_mem_of_ne_nil _ hne
    exact ⟨term, mem_contributed.mpr ⟨doc, hdoc, hterm⟩⟩

theorem length_holders_lt (hs : w.documents.size < UInt32.size) (term : Bytes) :
    (w.holders field term).length < UInt64.size := by
  have hle : (w.holders field term).length ≤ w.documents.size := by
    rw [← docCount_toNat hs, ← AllMatch.length_idsFrom 0 w.docCount.toNat]
    exact List.length_filter_le _ _
  exact Nat.lt_of_le_of_lt hle (Nat.lt_trans hs (by decide))

theorem mem_holders_iff_getElem? (hs : w.documents.size < UInt32.size) {d : DocId} :
    d ∈ w.holders field term ↔
      ∃ doc, w.documents.toList[d.toNat]? = some doc ∧ term ∈ w.termsOf field doc := by
  rw [mem_holders, ← Array.getElem?_toList]
  refine ⟨fun hd => hd.2, ?_⟩
  rintro ⟨doc, hdoc, hterm⟩
  obtain ⟨hlt, -⟩ := List.getElem?_eq_some_iff.mp hdoc
  refine ⟨?_, doc, hdoc, hterm⟩
  rw [UInt64.lt_iff_toNat_lt, docCount_toNat hs]
  exact hlt

/-- A term that is found is contributed, and its place counts the documents that have it. -/
theorem Committed.found (h : w.Committed index)
    (hlookup : index.reader.lookup field term = .ok (some info)) :
    term ∈ w.contributed field ∧
      info.docFrequency = UInt64.ofNat (w.holders field term).length := by
  have hmade := h.made field
  have hfound : (index.field field).map (·.dictionary.get? term) = .ok (some info) := hlookup
  unfold Index.field at hfound
  cases hf : index.field? field with
  | none =>
    rw [hf] at hfound
    cases hfound
  | some stored =>
    rw [hf] at hmade hfound
    obtain ⟨e, he, hcount⟩ := fieldIndex_counts hmade.2 (Except.ok.inj hfound)
    obtain ⟨hmem, rfl⟩ := TermTable.find?_eq_some.mp he
    obtain ⟨hterm, hdocs⟩ := mem_table hmem
    rw [hcount, hdocs]
    exact ⟨hterm, rfl⟩

/-- The place of a term that is found opens the list of the documents that have it. -/
theorem Committed.opens (h : w.Committed index)
    (hlookup : index.reader.lookup field term = .ok (some info)) :
    ∃ cursor, index.reader.postings field info = .ok cursor ∧
      cursor.Delivers (w.holders field term) := by
  obtain ⟨hterm, -⟩ := h.found hlookup
  let e : TermDocs := ⟨term, w.holders field term, ascending_holders term⟩
  have he : e ∈ (w.table field).entries := List.mem_map.mpr ⟨term, hterm, rfl⟩
  obtain ⟨cursor, blocks, hopen, hblocks, hreads⟩ :=
    h.reader_holds.opens (table_of_contributed hterm) he hlookup
  have hdocs : blocks.flatten = w.holders field term := hblocks
  have hr : cursor.Reads blocks (w.holders field term) := hreads
  have hlength : (w.holders field term).length < UInt64.size := length_holders_lt h.size_lt term
  refine ⟨cursor, hopen, ?_⟩
  rw [← hdocs] at hr hlength ⊢
  exact PostingCursor.delivers_of_reads hr (hdocs ▸ ascending_holders term) hlength

theorem Committed.describes (h : w.Committed index) (hfield : w.catalog.hasField field = true) :
    ∃ entries, index.Describes w.config.idField w.documents.toList field entries := by
  obtain ⟨first, hfirst⟩ := hasField_iff_contributed.mp hfield
  obtain ⟨list, hlist, hl⟩ := h.reader_holds.terms (table_of_contributed hfirst)
  obtain ⟨entries, hall, hentries⟩ := hl.all 0 rfl
  have hterms : entries.map (·.1) = (w.table field).entries.map (·.term) :=
    map_eq_of_forall₂ hentries fun _ _ he => he.1
  have hlookup : ∀ {term info}, (term, info) ∈ entries →
      index.reader.lookup field term = .ok (some info) := by
    intro term info hentry
    obtain ⟨e, -, hterm, hinfo⟩ := forall₂_mem_right hentries hentry
    exact (congrArg (index.reader.lookup field) hterm).trans hinfo
  have hmem : ∀ {term}, (∃ info, (term, info) ∈ entries) ↔ term ∈ w.contributed field := by
    intro term
    have hiff : (∃ info, (term, info) ∈ entries) ↔ term ∈ entries.map (·.1) := by simp
    rw [hiff, hterms, table, List.map_map]
    simp
  refine ⟨entries, ⟨list, hlist, hall⟩, FieldIndex.sorted_of_terms hterms,
    fun term => hmem.trans mem_contributed, fun term info => ⟨fun hfound => ?_, hlookup⟩,
    fun {term info} hentry => ?_⟩
  · obtain ⟨info', hentry⟩ := hmem.mpr (h.found hfound).1
    have hinfo := (hlookup hentry).symm.trans hfound
    rw [← Option.some.inj (Except.ok.inj hinfo)]
    exact hentry
  · have hfound := hlookup hentry
    obtain ⟨-, hcount⟩ := h.found hfound
    obtain ⟨cursor, hopen, hdelivers⟩ := h.opens hfound
    refine ⟨w.holders field term, cursor, ascending_holders term,
      fun d => mem_holders_iff_getElem? h.size_lt, hopen, hdelivers, ?_, ?_⟩
    · rw [hcount]
      exact UInt64.toNat_ofNat_of_lt' (length_holders_lt h.size_lt term)
    · rw [IndexReader.termDocFreq, hfound]
      rfl

/-! ### Adding documents -/

/-- Adds documents one after the other: their ids, and the writer after them. -/
def addAll (w : IndexWriter) : List Document → List DocId × IndexWriter
  | [] => ([], w)
  | doc :: docs =>
      let later := (w.add doc).2.addAll docs
      ((w.add doc).1 :: later.1, later.2)

theorem addAll_eq (w : IndexWriter) (docs : List Document) :
    w.addAll docs = ((List.range' w.documents.size docs.length).map UInt64.ofNat,
      { w with documents := w.documents ++ docs.toArray }) := by
  induction docs generalizing w with
  | nil => simp [addAll]
  | cons doc docs ih =>
    rw [addAll, ih, List.length_cons, List.range'_succ]
    simp [add, docCount]

/-- Documents get the ids 0, 1, 2, …, and a committed index has exactly the fields, terms and
postings that they contribute. -/
theorem commit_describes {config : IndexConfig} {docs : List Document}
    (hw : ofConfig config = .ok w)
    (hfew : ∀ field, (w.addAll docs).2.postingCount field < UInt32.size)
    (hcommit : (w.addAll docs).2.commit = .ok index) :
    (w.addAll docs).1.map UInt64.toNat = List.range docs.length ∧
      ∀ field,
        (index.reader.hasField field = true ↔
          ∃ doc ∈ docs, doc.terms config.idField field ≠ []) ∧
        (index.reader.hasField field = false →
          ∀ term, index.reader.lookup field term = .error (.unknownField field)) ∧
        (index.reader.hasField field = true →
          ∃ entries, index.Describes config.idField docs field entries) := by
  have hvalid : config.validate = .ok () := by
    cases hv : config.validate with
    | error e =>
      rw [ofConfig, hv] at hw
      cases hw
    | ok u => rfl
  obtain rfl : { config } = w := by
    rw [ofConfig, hvalid] at hw
    exact Except.ok.inj hw
  rw [addAll_eq] at hfew hcommit ⊢
  have h : IndexWriter.Committed { config, documents := #[] ++ docs.toArray } index :=
    ⟨hvalid, hfew, hcommit⟩
  rw [Array.empty_append] at h
  refine ⟨?_, fun field => ⟨?_, fun hnone term => ?_, fun hsome => ?_⟩⟩
  · have hlength : docs.length < UInt64.size := Nat.lt_trans h.size_lt (by decide)
    rw [List.map_map]
    show (List.range' 0 docs.length).map (UInt64.toNat ∘ UInt64.ofNat) = _
    rw [← List.range_eq_range']
    conv => rhs; rw [← List.map_id (List.range docs.length)]
    apply List.map_congr_left
    intro i hi
    exact UInt64.toNat_ofNat_of_lt' (Nat.lt_trans (List.mem_range.mp hi) hlength)
  · rw [h.reader_holds.hasField]
    exact hasField_catalog
  · rw [h.reader_holds.hasField, Catalog.hasField, Option.isSome_eq_false_iff,
      Option.isNone_iff_eq_none] at hnone
    exact (h.reader_holds.unknown hnone).2 term
  · rw [h.reader_holds.hasField] at hsome
    exact h.describes hsome

/-- Two documents that both have the term `a` in the id field, one of them as its own id, and the
term `x` twice in another field. -/
theorem commit_describes_shared :
    let config : IndexConfig := { postingBlockSize := 1 }
    let docs : List Document := [{ id := "a", fields := [("tag", .text "x"), ("tag", .text "x")] },
      { id := "b", fields := [("id", .text "a"), ("tag", .text "x")] }]
    ∃ w index, ofConfig config = .ok w ∧
      (∀ field, (w.addAll docs).2.postingCount field < UInt32.size) ∧
      (w.addAll docs).2.commit = .ok index ∧
      (w.addAll docs).1.map UInt64.toNat = [0, 1] ∧
      index.reader.hasField "tag" = true ∧ index.reader.hasField "name" = false ∧
      ∃ entries info cursor, index.Describes "id" docs "id" entries ∧
        (utf8 "a", info) ∈ entries ∧ index.reader.postings "id" info = .ok cursor ∧
        (cursor.run [.fill 1, .contains 7, .fill 5]).1 =
          [.ok (.served [0]), .ok (.found false), .ok (.served [1])] := by
  intro config docs
  let w : IndexWriter := { config }
  have hcount : (w.addAll docs).2.contributions.length < UInt32.size := by
    cbv
  have hfew : ∀ field, (w.addAll docs).2.postingCount field < UInt32.size := fun _ =>
    Nat.lt_of_le_of_lt postingCount_le hcount
  cases hcommit : (w.addAll docs).2.commit with
  | error e =>
    have hok : (w.addAll docs).2.commit.isOk = true := by
      cbv
    rw [hcommit] at hok
    cases hok
  | ok index =>
    have hw : ofConfig config = .ok w := by
      cbv
    obtain ⟨hids, hfields⟩ := commit_describes hw hfew hcommit
    obtain ⟨htag, -, -⟩ := hfields "tag"
    obtain ⟨hname, -, -⟩ := hfields "name"
    obtain ⟨hid, -, hdescribes⟩ := hfields "id"
    obtain ⟨entries, h⟩ := hdescribes (hid.mpr (by decide))
    obtain ⟨info, hentry⟩ := (h.contributed (utf8 "a")).mpr (by decide)
    obtain ⟨ids, cursor, ha, hmem, hopen, hdelivers, -⟩ := h.postings hentry
    have hboth : ids = [0, 1] := by
      refine ha.eq_of_mem_iff (by decide) fun d => ?_
      rw [hmem, List.mem_cons, List.mem_singleton]
      constructor
      · rintro ⟨doc, hdoc, -⟩
        have hlt : d.toNat < 2 := (List.getElem?_eq_some_iff.mp hdoc).1
        rw [← UInt64.toNat_inj, ← UInt64.toNat_inj, UInt64.toNat_zero, UInt64.toNat_one]
        omega
      · rintro (rfl | rfl)
        · exact ⟨_, rfl, by decide⟩
        · exact ⟨_, rfl, by decide⟩
    refine ⟨w, index, hw, hfew, hcommit, hids, htag.mpr (by decide), ?_,
      entries, info, cursor, h, hentry, hopen, ?_⟩
    · rw [Bool.eq_false_iff, Ne, hname]
      decide
    · rw [(hdelivers _).1, hboth]
      rfl

end IndexWriter

end Concordance
