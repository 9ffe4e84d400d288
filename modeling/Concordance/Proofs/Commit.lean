import Concordance.Proofs.Storage
import Concordance.Proofs.Writer
import Mathlib.Data.List.Perm.Subperm

/-!
# Committed indexes

The reader of a committed index answers by what the documents contribute: `IndexWriter.reader_holds`.
-/

namespace Concordance

/-! ### One field -/

namespace IndexWriter

theorem ofDocs_ok {size : Nat} {term : Bytes} {docs : List DocId} {list : TermPostings}
    (h : TermPostings.ofDocs size term docs = .ok list) :
    list.term = term ∧ Posting.encode size docs = .ok (list.data, list.skips) := by
  unfold TermPostings.ofDocs at h
  obtain ⟨_, hencode, rfl⟩ := map_eq_ok h
  exact ⟨rfl, hencode⟩

def Encodes (size : Nat) (e : TermDocs) (list : TermPostings) : Prop :=
  list.term = e.term ∧ Posting.encode size e.docs = .ok (list.data, list.skips)

theorem length_lists {size : Nat} {entries : List TermDocs} {lists : List TermPostings}
    (h : List.Forall₂ (Encodes size) entries lists) :
    (lists.flatMap (·.data)).length ≤ 10 * (entries.flatMap (·.docs)).length ∧
      (lists.flatMap (·.skips)).length ≤ (entries.flatMap (·.docs)).length := by
  induction h with
  | nil => exact ⟨Nat.le_refl _, Nat.le_refl _⟩
  | @cons e list entries lists he _ ih =>
    obtain ⟨-, -, hencoded⟩ := Posting.encode_ok he.2
    have hdata := Posting.length_data_encodeBlocks hencoded
    have hskips := Posting.length_encodeBlocks hencoded
    have hchunks := length_chunks_le size e.docs
    rw [flatten_chunks] at hdata
    simp only [List.flatMap_cons, List.length_append]
    omega

theorem fieldIndex_stores {size : Nat} {t : TermTable} {field : FieldIndex}
    (h : fieldIndex size (t.entries.map fun e => (e.term, e.docs)) = .ok field)
    (hcount : (t.entries.flatMap (·.docs)).length < UInt32.size) : field.Stores t := by
  obtain ⟨lists, hm, h⟩ := bind_eq_ok h
  obtain rfl := Except.ok.inj h
  have hlists : List.Forall₂ (Encodes size) t.entries lists :=
    (List.forall₂_map_left_iff.mp (mapM_ok hm)).imp fun _ _ hd => ofDocs_ok hd
  obtain ⟨hdata, hskips⟩ := length_lists hlists
  have hsize : UInt32.size = 4294967296 ∧ UInt64.size = 18446744073709551616 := ⟨rfl, rfl⟩
  have hopen := fun dictionary => TermPostings.places_open dictionary lists [] []
    (by rw [List.nil_append]; omega)
    (by rw [List.nil_append]; omega)
  have hplaces : ∀ dictionary, List.Forall₂
      (FieldIndex.Places ⟨dictionary, TermPostings.store lists⟩) t.entries
      (TermPostings.places 0 0 lists) := by
    intro dictionary
    apply forall₂_trans hlists (hopen dictionary)
    intro e he list entry hencodes hcut
    obtain ⟨hterm, hencoded⟩ := hencodes
    have hdocs : e.docs.length < UInt32.size := by
      refine Nat.lt_of_le_of_lt ?_ hcount
      rw [List.flatMap_def]
      exact (List.sublist_flatten_of_mem (List.mem_map_of_mem he)).length_le
    have hlayout := Posting.encode_layout hencoded hdocs
    have hreads : PostingCursor.Reads (chunks size e.docs)
        { data := list.data.toArray, skips := list.skips.toArray } (chunks size e.docs).flatten :=
      PostingCursor.reads_start hlayout
    rw [flatten_chunks] at hreads
    exact ⟨hcut.1.trans hterm, _, _, hcut.2, flatten_chunks _ _, hreads⟩
  have hsorted := FieldIndex.sorted_of_terms (FieldIndex.terms_places (hplaces {}))
  rw [Dictionary.ofList_of_sorted hsorted]
  exact FieldIndex.stores_of_places (hplaces _)

theorem docFrequency_ofDocs {size : Nat} {term : Bytes} {docs : List DocId} {list : TermPostings}
    (h : TermPostings.ofDocs size term docs = .ok list) :
    list.docFrequency = UInt64.ofNat docs.length := by
  unfold TermPostings.ofDocs at h
  obtain ⟨_, -, rfl⟩ := map_eq_ok h
  rfl

/-- What a dictionary finds for a term is the place of a term of the table, with the number of its
documents. -/
theorem fieldIndex_counts {size : Nat} {t : TermTable} {field : FieldIndex}
    (h : fieldIndex size (t.entries.map fun e => (e.term, e.docs)) = .ok field) {term : Bytes}
    {info : TermInfo} (hget : field.dictionary.get? term = some info) :
    ∃ e, t.find? term = some e ∧ info.docFrequency = UInt64.ofNat e.docs.length := by
  obtain ⟨lists, hm, h⟩ := bind_eq_ok h
  obtain rfl := Except.ok.inj h
  have hcounts : List.Forall₂ (fun (e : TermDocs) (entry : TermEntry) =>
      entry.1 = e.term ∧ entry.2.docFrequency = UInt64.ofNat e.docs.length)
      t.entries (TermPostings.places 0 0 lists) := by
    apply forall₂_trans (List.forall₂_map_left_iff.mp (mapM_ok hm))
      (TermPostings.places_counts lists 0 0)
    intro e _ list entry hlist hentry
    exact ⟨hentry.1.trans (ofDocs_ok hlist).1, hentry.2.trans (docFrequency_ofDocs hlist)⟩
  have hsorted := FieldIndex.sorted_of_terms (map_eq_of_forall₂ hcounts fun _ _ he => he.1)
  rw [Dictionary.ofList_of_sorted hsorted, Dictionary.get?_of_sorted hsorted] at hget
  obtain ⟨entry, hentry, rfl⟩ := Option.map_eq_some_iff.mp hget
  obtain ⟨e, he, hterm, hcount⟩ :=
    forall₂_mem_right hcounts (List.mem_of_find?_eq_some hentry)
  have hfound : entry.1 = term := by simpa using List.find?_some hentry
  exact ⟨e, TermTable.find?_eq_some.mpr ⟨he, hterm.symm.trans hfound⟩, hcount⟩

/-! ### Postings of a field -/

theorem length_le_length_flatMap {f : α → List β} {xs : List α} (h : ∀ x ∈ xs, f x ≠ []) :
    xs.length ≤ (xs.flatMap f).length := by
  induction xs with
  | nil => exact Nat.le_refl _
  | cons x xs ih =>
    have hx := List.length_pos_iff.mpr (h x List.mem_cons_self)
    have hxs := ih fun y hy => h y (List.mem_cons_of_mem _ hy)
    rw [List.flatMap_cons, List.length_append, List.length_cons]
    omega

variable {w : IndexWriter} {field : String}

/-- Each document contributes its own id, so that there are no more documents than postings. -/
theorem size_le_postingCount : w.documents.size ≤ w.postingCount w.config.idField := by
  rw [← Array.length_toList]
  apply length_le_length_flatMap
  intro doc _ hnone
  have hid : utf8 doc.id ∈ w.termsOf w.config.idField doc := by
    rw [termsOf, Document.terms, if_pos rfl]
    exact List.mem_append_left _ List.mem_cons_self
  rw [← List.mem_dedup, hnone] at hid
  exact List.not_mem_nil hid

def held (w : IndexWriter) (field : String) : List (Bytes × DocId) :=
  (w.contributed field).flatMap fun t => (w.holders field t).map fun d => (t, d)

theorem length_held : (w.held field).length = ((w.table field).entries.flatMap (·.docs)).length := by
  rw [held, table, List.flatMap_map, List.length_flatMap, List.length_flatMap]
  simp only [List.length_map]

theorem mem_held {pair : Bytes × DocId} :
    pair ∈ w.held field ↔ pair.1 ∈ w.contributed field ∧ pair.2 ∈ w.holders field pair.1 := by
  rw [held, List.mem_flatMap]
  constructor
  · rintro ⟨t, ht, hpair⟩
    obtain ⟨d, hd, rfl⟩ := List.mem_map.mp hpair
    exact ⟨ht, hd⟩
  · rintro ⟨ht, hd⟩
    exact ⟨pair.1, ht, List.mem_map.mpr ⟨pair.2, hd, rfl⟩⟩

theorem nodup_held : (w.held field).Nodup := by
  refine List.nodup_flatMap.mpr ⟨fun t _ => ?_, ?_⟩
  · have hids : (w.holders field t).Nodup := (ascending_holders t).imp UInt64.ne_of_lt
    exact hids.map fun _ _ heq => (Prod.mk.inj heq).2
  · apply (Bytes.nodup_of_sorted sorted_contributed).imp
    intro t t' hne pair ha hb
    obtain ⟨_, -, rfl⟩ := List.mem_map.mp ha
    obtain ⟨_, -, heq⟩ := List.mem_map.mp hb
    exact hne (Prod.mk.inj heq).1.symm

def posted (w : IndexWriter) (field : String) : List (Bytes × DocId) :=
  w.documents.toList.zipIdx.flatMap fun entry =>
    (w.termsOf field entry.1).dedup.map fun t => (t, UInt64.ofNat entry.2)

theorem posted_sublist_pairs (w : IndexWriter) (field : String) :
    (w.posted field).Sublist (w.pairs field) := by
  unfold posted pairs
  induction w.documents.toList.zipIdx with
  | nil => exact .slnil
  | cons entry rest ih =>
    rw [List.flatMap_cons, List.flatMap_cons]
    exact ((List.dedup_sublist _).map _).append ih

theorem length_posted : (w.posted field).length = w.postingCount field := by
  have hdocs : w.documents.toList = w.documents.toList.zipIdx.map Prod.fst :=
    (List.zipIdx_map_fst 0 _).symm
  rw [postingCount, hdocs, List.flatMap_map, posted, List.length_flatMap, List.length_flatMap]
  simp only [List.length_map]

theorem length_table_le :
    ((w.table field).entries.flatMap (·.docs)).length ≤ w.postingCount field := by
  rw [← length_held, ← length_posted]
  refine (List.subperm_of_subset nodup_held fun pair hpair => ?_).length_le
  obtain ⟨-, hd⟩ := mem_held.mp hpair
  obtain ⟨-, doc, hdoc, hterm⟩ := mem_holders.mp hd
  refine List.mem_flatMap.mpr ⟨(doc, pair.2.toNat), ?_, List.mem_map.mpr ⟨pair.1, ?_, ?_⟩⟩
  · rw [List.mk_mem_zipIdx_iff_getElem?, Array.getElem?_toList]
    exact hdoc
  · exact List.mem_dedup.mpr hterm
  · rw [UInt64.ofNat_toNat]

/-- No field has more postings than the documents contribute to all fields. -/
theorem postingCount_le : w.postingCount field ≤ w.contributions.length := by
  calc w.postingCount field
      ≤ (w.pairs field).length := by
        rw [← length_posted]
        exact (posted_sublist_pairs w field).length_le
    _ ≤ w.contributions.length := by
        rw [← contributions_of_field]
        exact List.length_filterMap_le _ _

/-! ### The fields of an index -/

theorem lookup_of_forall₂ {P : String → FieldIndex → Prop} {names : List String}
    {fields : List (String × FieldIndex)}
    (h : List.Forall₂ (fun name entry => entry.1 = name ∧ P name entry.2) names fields)
    (name : String) :
    match fields.lookup name with
    | some field => name ∈ names ∧ P name field
    | none => name ∉ names := by
  induction h with
  | nil => exact List.not_mem_nil
  | @cons first entry names fields hfirst _ ih =>
    obtain ⟨key, field⟩ := entry
    obtain ⟨rfl, hp⟩ := hfirst
    rw [List.lookup_cons]
    cases hn : name == key with
    | true =>
      obtain rfl := eq_of_beq hn
      exact ⟨List.mem_cons_self, hp⟩
    | false =>
      have hne : name ≠ key := fun heq => by simp [heq] at hn
      cases hl : fields.lookup name with
      | some field =>
        rw [hl] at ih
        exact ⟨List.mem_cons_of_mem _ ih.1, ih.2⟩
      | none =>
        rw [hl] at ih
        exact List.not_mem_cons_of_ne_of_not_mem hne ih

theorem mem_names (hs : w.documents.size < UInt32.size) :
    field ∈ (w.contributions.map (·.field)).eraseDups ↔ w.contributed field ≠ [] := by
  have hpairs : field ∈ w.contributions.map (·.field) ↔ w.pairs field ≠ [] := by
    rw [← contributions_of_field, Ne, List.filterMap_eq_nil_iff, List.mem_map]
    simp only [not_forall]
    apply exists_congr
    intro c
    by_cases hc : c.field = field <;> simp [hc]
  rw [List.mem_eraseDups, hpairs]
  constructor
  · intro h
    obtain ⟨pair, hpair⟩ := List.exists_mem_of_ne_nil _ h
    exact List.ne_nil_of_mem ((contributed_iff_pair hs).mpr ⟨pair.2, hpair⟩)
  · intro h
    obtain ⟨t, ht⟩ := List.exists_mem_of_ne_nil _ h
    obtain ⟨d, hd⟩ := (contributed_iff_pair hs).mp ht
    exact List.ne_nil_of_mem hd

/-- A commit that succeeds, of documents with fewer than `2 ^ 32` postings in each field. -/
structure Committed (w : IndexWriter) (index : Index) : Prop where
  valid : w.config.validate = .ok ()
  few (field : String) : w.postingCount field < UInt32.size
  commit : w.commit = .ok index

theorem Committed.size_lt {index : Index} (h : w.Committed index) :
    w.documents.size < UInt32.size :=
  Nat.lt_of_le_of_lt size_le_postingCount (h.few _)

theorem commit_ok {index : Index} (h : w.commit = .ok index) :
    index.documents = w.documents ∧
      List.Forall₂ (fun name entry => entry.1 = name ∧
          fieldIndex w.config.postingBlockSize (fieldTerms w.contributions name) = .ok entry.2)
        (w.contributions.map (·.field)).eraseDups index.fields := by
  obtain ⟨fields, hm, h⟩ := bind_eq_ok h
  obtain rfl : ({ fields, documents := w.documents } : Index) = index := Except.ok.inj h
  refine ⟨rfl, (mapM_ok hm).imp fun name entry hentry => ?_⟩
  obtain ⟨field, hfield, hentry⟩ := bind_eq_ok hentry
  obtain rfl : (name, field) = entry := Except.ok.inj hentry
  exact ⟨rfl, hfield⟩

/-- The fields of a committed index are those with terms, each made from the table of the field. -/
theorem Committed.made {index : Index} (h : w.Committed index) (field : String) :
    match index.field? field with
    | some stored => w.contributed field ≠ [] ∧
        fieldIndex w.config.postingBlockSize
          ((w.table field).entries.map fun e => (e.term, e.docs)) = .ok stored
    | none => w.contributed field = [] := by
  have hlookup := lookup_of_forall₂
    (P := fun name stored =>
      fieldIndex w.config.postingBlockSize (fieldTerms w.contributions name) = .ok stored)
    (commit_ok h.commit).2 field
  rw [mem_names h.size_lt, fieldTerms_eq h.size_lt, not_not] at hlookup
  exact hlookup

/-- Each field of a committed index stores the table of the field. -/
theorem Committed.field? {index : Index} (h : w.Committed index) (field : String) :
    match index.field? field with
    | some stored => w.catalog.table field = some (w.table field) ∧ stored.Stores (w.table field)
    | none => w.catalog.table field = none := by
  have hmade := h.made field
  cases hl : index.field? field with
  | some stored =>
    rw [hl] at hmade
    obtain ⟨hne, hstored⟩ := hmade
    refine ⟨if_neg ?_, fieldIndex_stores hstored (Nat.lt_of_le_of_lt length_table_le (h.few field))⟩
    rw [List.isEmpty_iff]
    exact hne
  | none =>
    rw [hl] at hmade
    refine if_pos ?_
    rw [List.isEmpty_iff]
    exact hmade

/-! ### The reader -/

theorem lists_of_stores {index : Index} {field : String} {stored : FieldIndex} {t : TermTable}
    (hfield : index.field field = .ok stored) (h : stored.Stores t) :
    index.reader.Lists field stored.terms t where
  size := h.size
  entry i {e} he := by
    obtain ⟨info, hentry, hget⟩ := h.entry he
    have hat : stored.dictionary.entry i = (e.term, info) := by
      rw [Dictionary.entryAt?, Array.getElem?_eq_getElem (by exact i.isLt)] at hentry
      exact Option.some.inj hentry
    refine ⟨info, congrArg Except.ok hat, ?_⟩
    show (index.field field).map (·.dictionary.get? e.term) = _
    rw [hfield, ← hget]
    rfl
  lowerBound := h.lowerBound

theorem Committed.field_of_some {index : Index} (h : w.Committed index) {field : String}
    {t : TermTable} (ht : w.catalog.table field = some t) :
    ∃ stored, index.field field = .ok stored ∧ stored.Stores t := by
  have hf := h.field? field
  unfold Index.field
  cases hs : index.field? field with
  | none => simp [hs, ht] at hf
  | some stored =>
    rw [hs] at hf
    obtain rfl := Option.some.inj (hf.1.symm.trans ht)
    exact ⟨stored, rfl, hf.2⟩

theorem Committed.field_of_none {index : Index} (h : w.Committed index) {field : String}
    (ht : w.catalog.table field = none) : index.field field = .error (.unknownField field) := by
  have hf := h.field? field
  unfold Index.field
  cases hs : index.field? field with
  | none => rfl
  | some stored => simp [hs, ht] at hf

theorem Committed.isSome_field? {index : Index} (h : w.Committed index) (field : String) :
    (index.field? field).isSome = (w.catalog.table field).isSome := by
  have hf := h.field? field
  cases hs : index.field? field with
  | none =>
    rw [hs] at hf
    exact (congrArg Option.isSome hf).symm
  | some stored =>
    rw [hs] at hf
    exact (congrArg Option.isSome hf.1).symm

/-- The reader of a committed index answers by what its documents contribute. -/
theorem Committed.reader_holds {index : Index} (h : w.Committed index) :
    index.reader.Holds w.catalog := by
  refine {
    docCount := ?_
    decode := fun _ => rfl
    hasField := h.isSome_field?
    unknown := fun {field} ht => ?_
    terms := fun {field t} ht => ?_
    absent := fun {field t term} ht hnone => ?_
    present := fun {field t term e} ht he => ?_ }
  · show UInt64.ofNat index.documents.size = UInt64.ofNat w.documents.size
    rw [(commit_ok h.commit).1]
  · have hnone := h.field_of_none ht
    exact ⟨congrArg (Except.map _) hnone, fun term => congrArg (Except.map _) hnone⟩
  · obtain ⟨stored, hfield, hs⟩ := h.field_of_some ht
    exact ⟨stored.terms, congrArg (Except.map _) hfield, lists_of_stores hfield hs⟩
  · obtain ⟨stored, hfield, hs⟩ := h.field_of_some ht
    show (index.field field).map (·.dictionary.get? term) = _
    rw [hfield, ← hs.absent hnone]
    rfl
  · obtain ⟨stored, hfield, hs⟩ := h.field_of_some ht
    obtain ⟨info, cursor, blocks, hget, hopen, hdocs, hreads⟩ := hs.present he
    refine ⟨info, ?_, cursor, blocks, ?_, hdocs, hreads⟩
    · show (index.field field).map (·.dictionary.get? term) = _
      rw [hfield, ← hget]
      rfl
    · show (index.field field).bind (·.postings info) = _
      rw [hfield, ← hopen]
      rfl

end IndexWriter

end Concordance
