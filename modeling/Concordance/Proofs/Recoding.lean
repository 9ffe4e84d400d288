import Concordance.Proofs.Commit
import Concordance.Proofs.MultiTerm

/-!
# Readers with terms in a form of their own

A reader that keeps the terms of an index in a coded form, in the same order, is asked for codes and
answers with codes. Providers decode the terms they meet and encode those they look for, so they
enumerate the same matches over such a reader as over the index: `PredicateTerms.mirrors` and
`ListedTerms.mirrors`.
-/

namespace Concordance

/-! ### Coded terms -/

namespace TermList

variable {code : Bytes → Bytes} {list coded : TermList} {term : Bytes}

/-- The position of the first term that is not below the given one. -/
structure FirstAt (list : TermList) (term : Bytes) (position : Nat) : Prop where
  le_size : position ≤ list.size
  below (i : Fin list.size) : i.val < position → ∃ e, list.entry i = .ok e ∧ e.1 < term
  reached (h : position < list.size) : ∃ e, list.entry ⟨position, h⟩ = .ok e ∧ term ≤ e.1

theorem FirstAt.le {p q : Nat} (hp : list.FirstAt term p) (hq : list.FirstAt term q) : q ≤ p := by
  by_contra hnot
  have hlt := Nat.lt_of_not_le hnot
  have hsize : p < list.size := Nat.lt_of_lt_of_le hlt hq.le_size
  obtain ⟨e, he, hle⟩ := hp.reached hsize
  obtain ⟨e', he', hbelow⟩ := hq.below ⟨p, hsize⟩ hlt
  rw [he] at he'
  exact hle (Except.ok.inj he' ▸ hbelow)

theorem FirstAt.unique {p q : Nat} (hp : list.FirstAt term p) (hq : list.FirstAt term q) : p = q :=
  Nat.le_antisymm (hq.le hp) (hp.le hq)

/-- The terms of a list in a coded form. -/
structure Coded (code : Bytes → Bytes) (list coded : TermList) : Prop where
  size : coded.size = list.size
  entry (i : Fin coded.size) (j : Fin list.size) : i.val = j.val →
    coded.entry i = (list.entry j).map fun e => (code e.1, e.2)

theorem Coded.firstAt (h : Coded code list coded) (hmono : ∀ {a b}, a < b → code a < code b)
    {position : Nat} (hp : list.FirstAt term position) : coded.FirstAt (code term) position where
  le_size := h.size ▸ hp.le_size
  below i hi := by
    have hlt : i.val < list.size := h.size ▸ i.isLt
    obtain ⟨e, he, hbelow⟩ := hp.below ⟨i, hlt⟩ hi
    refine ⟨(code e.1, e.2), ?_, hmono hbelow⟩
    rw [h.entry i ⟨i, hlt⟩ rfl, he]
    rfl
  reached hi := by
    have hlt : position < list.size := h.size ▸ hi
    obtain ⟨e, he, hle⟩ := hp.reached hlt
    refine ⟨(code e.1, e.2), ?_, ?_⟩
    · rw [h.entry _ ⟨position, hlt⟩ rfl, he]
      rfl
    · rcases Bytes.lt_or_eq_of_le hle with hlt | heq
      · exact List.le_of_lt (hmono hlt)
      · exact heq ▸ List.le_refl _

end TermList

namespace TermCursor

/-- A cursor at the same place of another list. -/
def onList (c : TermCursor) (list : TermList) : TermCursor := { c with terms := list }

theorem next_onList {code : Bytes → Bytes} {c c' : TermCursor} {coded : TermList}
    {found : Except Failure (Option TermEntry)} (h : TermList.Coded code c.terms coded)
    (hn : c.next = (found, c')) :
    (c.onList coded).next = (found.map (Option.map fun e => (code e.1, e.2)), c'.onList coded) ∧
      c'.terms = c.terms := by
  unfold next at hn
  unfold next onList
  by_cases hlt : c.position < c.terms.size
  · have hlt' : c.position < coded.size := h.size ▸ hlt
    rw [dif_pos hlt] at hn
    rw [dif_pos hlt', h.entry _ ⟨c.position, hlt⟩ rfl]
    obtain ⟨rfl, rfl⟩ := Prod.mk.inj hn
    refine ⟨?_, rfl⟩
    cases c.terms.entry ⟨c.position, hlt⟩ <;> rfl
  · have hlt' : ¬c.position < coded.size := h.size ▸ hlt
    rw [dif_neg hlt] at hn
    rw [dif_neg hlt']
    obtain ⟨rfl, rfl⟩ := Prod.mk.inj hn
    exact ⟨rfl, rfl⟩

end TermCursor

/-- A reader that keeps the terms of an index in a coded form and has everything else from it. -/
structure IndexReader.Recodes (reader : IndexReader) (index : Index) : Prop where
  docCount : reader.docCount = index.docCount
  hasField (field : String) : reader.hasField field = index.reader.hasField field
  decode (term : Bytes) : reader.decodeTerm (reader.encodeTerm term) = term
  increasing {a b : Bytes} : a < b → reader.encodeTerm a < reader.encodeTerm b
  unknown {field : String} {e : Failure} : index.reader.terms field = .error e →
    reader.terms field = .error e
  terms {field : String} {list : TermList} : index.reader.terms field = .ok list →
    ∃ coded, reader.terms field = .ok coded ∧ TermList.Coded reader.encodeTerm list coded ∧
      ∀ term, coded.FirstAt (reader.encodeTerm term) (coded.lowerBound (reader.encodeTerm term))
  lookup (field : String) (term : Bytes) :
    reader.lookup field (reader.encodeTerm term) = index.reader.lookup field term
  postings (field : String) (info : TermInfo) :
    reader.postings field info = index.reader.postings field info
  readField (d : DocId) (field : String) : reader.readField d field = index.reader.readField d field

/-! ### Seeking in a committed index -/

theorem Dictionary.entry_lt_iff {dictionary : Dictionary} (h : Sorted dictionary.entries.toList)
    (term : Bytes) (i : Fin dictionary.size) :
    (dictionary.entry i).1 < term ↔ i.val < dictionary.lowerBound term := by
  have hget : dictionary.entries.toList[i.val]? = some (dictionary.entry i) := by
    rw [Array.getElem?_toList]
    exact Array.getElem?_eq_getElem i.isLt
  have hany := any_getElem?_eq (below_of_sorted h term) i.val
  rw [hget, Option.any_some, ← lowerBound_eq h] at hany
  exact decide_eq_decide.mp hany

theorem Dictionary.lowerBound_le_size {dictionary : Dictionary}
    (h : Sorted dictionary.entries.toList) (term : Bytes) :
    dictionary.lowerBound term ≤ dictionary.size := by
  rw [lowerBound_eq h, size, ← Array.length_toList]
  exact (List.takeWhile_sublist _).length_le

theorem FieldIndex.firstAt_lowerBound {stored : FieldIndex}
    (h : Dictionary.Sorted stored.dictionary.entries.toList) (term : Bytes) :
    stored.terms.FirstAt term (stored.terms.lowerBound term) where
  le_size := Dictionary.lowerBound_le_size h term
  below i hi := ⟨_, rfl, (Dictionary.entry_lt_iff h term i).mpr hi⟩
  reached hi := ⟨_, rfl, fun hlt =>
    Nat.lt_irrefl _ ((Dictionary.entry_lt_iff h term ⟨_, hi⟩).mp hlt)⟩

theorem IndexWriter.sorted_of_commit {w : IndexWriter} {index : Index} (hw : w.commit = .ok index)
    {field : String} {stored : FieldIndex} (hfield : index.field field = .ok stored) :
    Dictionary.Sorted stored.dictionary.entries.toList := by
  have hmade := lookup_of_forall₂
    (P := fun name stored =>
      fieldIndex w.config.postingBlockSize (fieldTerms w.contributions name) = .ok stored)
    (commit_ok hw).2 field
  unfold Index.field Index.field? at hfield
  cases hlookup : index.fields.lookup field with
  | none =>
    rw [hlookup] at hfield
    cases hfield
  | some found =>
    rw [hlookup] at hfield hmade
    obtain rfl : found = stored := Except.ok.inj hfield
    obtain ⟨lists, -, hmade⟩ := bind_eq_ok hmade.2
    rw [← Except.ok.inj hmade]
    exact Dictionary.sorted_ofList _

/-- A committed index seeks to the first term of a field that is not below the given one. -/
theorem IndexWriter.firstAt_of_commit {w : IndexWriter} {index : Index} (hw : w.commit = .ok index)
    {field : String} {list : TermList} (hlist : index.reader.terms field = .ok list) (term : Bytes) :
    list.FirstAt term (list.lowerBound term) := by
  change (index.field field).map (·.terms) = .ok list at hlist
  cases hfield : index.field field with
  | error e =>
    rw [hfield] at hlist
    cases hlist
  | ok stored =>
    rw [hfield] at hlist
    rw [← Except.ok.inj hlist]
    exact FieldIndex.firstAt_lowerBound (sorted_of_commit hw hfield) term

/-- The terms of a field, and the list of their codes in which the reader seeks as the index does. -/
structure IndexReader.Codes (reader : IndexReader) (index : Index) (field : String)
    (list coded : TermList) : Prop where
  plain : index.reader.terms field = .ok list
  terms : reader.terms field = .ok coded
  codes : TermList.Coded reader.encodeTerm list coded
  seek (term : Bytes) : coded.lowerBound (reader.encodeTerm term) = list.lowerBound term

namespace IndexReader.Recodes

variable {reader : IndexReader} {index : Index} {w : IndexWriter}

/-- The reader seeks for the code of a term where a committed index seeks for the term. -/
theorem exists_codes (h : reader.Recodes index) (hw : w.commit = .ok index) {field : String}
    {list : TermList} (hlist : index.reader.terms field = .ok list) :
    ∃ coded, reader.Codes index field list coded := by
  obtain ⟨coded, hterms, hcoded, hseek⟩ := h.terms hlist
  refine ⟨coded, hlist, hterms, hcoded, fun term => ?_⟩
  have hfirst := IndexWriter.firstAt_of_commit hw hlist term
  exact (hseek term).unique (hcoded.firstAt h.increasing hfirst)

/-- One term of a scan, in the reader's form and as the reader decodes it. -/
theorem scan_onList_of_some (h : reader.Recodes index) (p : TermPredicate Bytes) {c c' : TermCursor}
    {coded : TermList} {term : Bytes} {info : TermInfo}
    (hcoded : TermList.Coded reader.encodeTerm c.terms coded)
    (hn : c.next = (.ok (some (term, info)), c')) :
    reader.scan p (c.onList coded) =
      if p.holds term then (.ok (some (term, info)), c'.onList coded)
      else if p.endsScan term then (.ok none, c'.onList coded)
      else reader.scan p (c'.onList coded) := by
  have hscan := scan_of_some reader p (TermCursor.next_onList hcoded hn).1
  rw [h.decode] at hscan
  exact hscan

/-- A scan of coded terms finds what a scan of the terms finds, and stops at the same place. -/
theorem scan_onList (h : reader.Recodes index) (p : TermPredicate Bytes) {c : TermCursor}
    {coded : TermList} (hcoded : TermList.Coded reader.encodeTerm c.terms coded) :
    reader.scan p (c.onList coded) =
        ((index.reader.scan p c).1, (index.reader.scan p c).2.onList coded) ∧
      (index.reader.scan p c).2.terms = c.terms := by
  fun_induction index.reader.scan p c with
  | case1 c e c' hn =>
    obtain ⟨hnext, hterms⟩ := TermCursor.next_onList hcoded hn
    exact ⟨scan_of_error hnext, hterms⟩
  | case2 c c' hn =>
    obtain ⟨hnext, hterms⟩ := TermCursor.next_onList hcoded hn
    exact ⟨scan_of_none hnext, hterms⟩
  | case3 c term info c' hn decoded hholds =>
    refine ⟨?_, (TermCursor.next_onList hcoded hn).2⟩
    rw [h.scan_onList_of_some p hcoded hn]
    exact if_pos hholds
  | case4 c term info c' hn decoded hholds hends =>
    refine ⟨?_, (TermCursor.next_onList hcoded hn).2⟩
    rw [h.scan_onList_of_some p hcoded hn]
    exact (if_neg hholds).trans (if_pos hends)
  | case5 c term info c' hn decoded hholds hends ih =>
    have hterms := (TermCursor.next_onList hcoded hn).2
    obtain ⟨hscan, hscanned⟩ := ih (hterms.symm ▸ hcoded)
    refine ⟨?_, hscanned.trans hterms⟩
    rw [h.scan_onList_of_some p hcoded hn]
    exact ((if_neg hholds).trans (if_neg hends)).trans hscan

end IndexReader.Recodes

/-! ### Providers over both readers -/

/-- Providers that enumerate the same matches, find the same documents and are inspected alike. -/
def TermProvider.Mirrors {P : Type} [TermProvider P] (R : P → P → Prop) : Prop :=
  ∀ ⦃p q⦄, R p q →
    (TermProvider.next q).1 = (TermProvider.next p).1 ∧
      R (TermProvider.next p).2 (TermProvider.next q).2 ∧
      R (TermProvider.reset p) (TermProvider.reset q) ∧
      (∀ d, TermProvider.evaluate q d = TermProvider.evaluate p d) ∧
      TermProvider.field q = TermProvider.field p ∧
      TermProvider.inspect q = TermProvider.inspect p

theorem TermProvider.Mirrors.next {P : Type} [TermProvider P] {R : P → P → Prop} (hR : Mirrors R)
    {p p' q : P} {found : Except Failure (Option TermMatch)} (h : R p q)
    (hn : TermProvider.next p = (found, p')) :
    ∃ q', TermProvider.next q = (found, q') ∧ R p' q' := by
  obtain ⟨hnext, hrest, -⟩ := hR h
  rw [hn] at hnext hrest
  exact ⟨(TermProvider.next q).2, Prod.ext hnext rfl, hrest⟩

namespace PredicateTerms

section Recoded

variable {reader : IndexReader} {index : Index} {field : String} {list coded : TermList}

/-- A provider over the index, and the provider over the reader at the same place. -/
structure Recoded (reader : IndexReader) (index : Index) (field : String) (list coded : TermList)
    (p q : PredicateTerms) : Prop where
  reader_eq : p.reader = index.reader
  field_eq : p.field = field
  terms_eq : p.cursor.terms = list
  eq : q = { p with reader, cursor := p.cursor.onList coded }

variable {p q : PredicateTerms} {c : TermCursor}

theorem Recoded.start (h : Recoded reader index field list coded p q)
    (hcodes : reader.Codes index field list coded) (hc : c.terms = list) :
    q.start (c.onList coded) = (p.start c).onList coded ∧ (p.start c).terms = list := by
  obtain ⟨hreader, -, -, rfl⟩ := h
  unfold PredicateTerms.start
  dsimp only
  cases p.predicate.seekTarget? with
  | none => exact ⟨rfl, hc⟩
  | some target =>
    refine ⟨?_, hc⟩
    rw [hreader]
    show TermCursor.mk coded (coded.lowerBound (reader.encodeTerm target)) =
      TermCursor.mk coded (c.terms.lowerBound target)
    rw [hcodes.seek, hc]

theorem Recoded.nextFrom (hr : reader.Recodes index)
    (h : Recoded reader index field list coded p q)
    (hcodes : reader.Codes index field list coded) (hc : c.terms = list) :
    (q.nextFrom (c.onList coded)).1 = (p.nextFrom c).1 ∧
      Recoded reader index field list coded (p.nextFrom c).2 (q.nextFrom (c.onList coded)).2 := by
  obtain ⟨r, f, predicate, cursor, state⟩ := p
  obtain ⟨hreader, rfl, -, rfl⟩ := h
  obtain rfl : r = index.reader := hreader
  obtain ⟨hscan, hterms⟩ := hr.scan_onList predicate (hc.symm ▸ hcodes.codes)
  unfold PredicateTerms.nextFrom
  dsimp only
  rw [hscan]
  generalize index.reader.scan predicate c = scanned at hterms
  obtain ⟨_ | _ | ⟨term, info⟩, c'⟩ := scanned
  · exact ⟨rfl, rfl, rfl, hterms.trans hc, rfl⟩
  · exact ⟨rfl, rfl, rfl, hterms.trans hc, rfl⟩
  · exact ⟨congrArg (Except.map _) (hr.postings f info), rfl, rfl, hterms.trans hc, rfl⟩

theorem Recoded.next (hr : reader.Recodes index) (h : Recoded reader index field list coded p q)
    (hcodes : reader.Codes index field list coded) :
    (q.next).1 = (p.next).1 ∧ Recoded reader index field list coded p.next.2 q.next.2 := by
  have hstate : q.state = p.state := by rw [h.eq]
  have hcursor : q.cursor = p.cursor.onList coded := by rw [h.eq]
  unfold PredicateTerms.next
  rw [hstate]
  cases p.state with
  | exhausted => exact ⟨rfl, h⟩
  | scanning =>
    dsimp only
    rw [hcursor]
    exact h.nextFrom hr hcodes h.terms_eq
  | fresh =>
    obtain ⟨hstart, hterms⟩ := h.start hcodes h.terms_eq
    dsimp only
    rw [hcursor, hstart]
    exact h.nextFrom hr hcodes hterms

theorem Recoded.anyFrom (hr : reader.Recodes index) (h : Recoded reader index field list coded p q)
    (hcodes : reader.Codes index field list coded) (hc : c.terms = list) (d : DocId) :
    q.anyFrom d (c.onList coded) = p.anyFrom d c := by
  obtain ⟨r, f, predicate, cursor, state⟩ := p
  obtain ⟨hreader, rfl, -, rfl⟩ := h
  obtain rfl : r = index.reader := hreader
  fun_induction PredicateTerms.anyFrom ⟨index.reader, f, predicate, cursor, state⟩ d c with
  | case1 c e c' hs =>
    obtain ⟨hscan, -⟩ := hr.scan_onList predicate (hc.symm ▸ hcodes.codes)
    rw [hs] at hscan
    exact anyFrom_of_error hscan
  | case2 c c' hs =>
    obtain ⟨hscan, -⟩ := hr.scan_onList predicate (hc.symm ▸ hcodes.codes)
    rw [hs] at hscan
    exact anyFrom_of_none hscan
  | case3 c term info c' hs e hp =>
    obtain ⟨hscan, -⟩ := hr.scan_onList predicate (hc.symm ▸ hcodes.codes)
    rw [hs] at hscan
    rw [anyFrom_of_some hscan, hr.postings, hp]
    rfl
  | case4 c term info c' hs hp =>
    obtain ⟨hscan, -⟩ := hr.scan_onList predicate (hc.symm ▸ hcodes.codes)
    rw [hs] at hscan
    rw [anyFrom_of_some hscan, hr.postings, hp]
    rfl
  | case5 c term info c' hs hp ih =>
    obtain ⟨hscan, hterms⟩ := hr.scan_onList predicate (hc.symm ▸ hcodes.codes)
    rw [hs] at hscan hterms
    rw [anyFrom_of_some hscan, hr.postings, hp]
    exact ih (hterms.trans hc)

theorem Recoded.evaluate (hr : reader.Recodes index)
    (h : Recoded reader index field list coded p q)
    (hcodes : reader.Codes index field list coded) (d : DocId) : q.evaluate d = p.evaluate d := by
  have hterms : q.reader.terms q.field = .ok coded := by
    rw [h.eq]
    exact h.field_eq ▸ hcodes.terms
  obtain ⟨hstart, hc⟩ := h.start hcodes (c := { terms := list }) rfl
  unfold PredicateTerms.evaluate
  rw [hterms, h.reader_eq, h.field_eq, hcodes.plain]
  show q.anyFrom d (q.start (TermCursor.onList ⟨list, 0⟩ coded)) = _
  rw [hstart]
  exact h.anyFrom hr hcodes hc d

theorem mirrors (hr : reader.Recodes index) (hcodes : reader.Codes index field list coded) :
    TermProvider.Mirrors (Recoded reader index field list coded) := by
  intro p q h
  obtain ⟨hnext, hrest⟩ := h.next hr hcodes
  refine ⟨hnext, hrest, ?_, h.evaluate hr hcodes, ?_, ?_⟩
  · exact ⟨h.reader_eq, h.field_eq, h.terms_eq, by rw [h.eq]; rfl⟩
  · rw [h.eq]
    rfl
  · rw [h.eq]
    rfl

theorem recoded_ofField (hcodes : reader.Codes index field list coded)
    (predicate : TermPredicate Bytes) :
    ∃ p q, ofField index.reader field predicate = .ok p ∧ ofField reader field predicate = .ok q ∧
      Recoded reader index field list coded p q := by
  refine ⟨{ reader := index.reader, field, predicate, cursor := { terms := list } },
    { reader, field, predicate, cursor := { terms := coded } }, ?_, ?_, rfl, rfl, rfl, rfl⟩
  · rw [ofField, hcodes.plain]
    rfl
  · rw [ofField, hcodes.terms]
    rfl

end Recoded

end PredicateTerms

namespace ListedTerms

variable {reader : IndexReader} {index : Index} {p : ListedTerms}

/-- A provider over the index, and the provider over the reader at the same place. -/
def Recoded (reader : IndexReader) (index : Index) (p q : ListedTerms) : Prop :=
  p.reader = index.reader ∧ q = { p with reader }

theorem open?_recoded (hr : reader.Recodes index) (hp : p.reader = index.reader) (term : Bytes) :
    open? { p with reader } term = p.open? term := by
  unfold open?
  rw [hp]
  dsimp only
  rw [hr.lookup, funext (hr.postings p.field)]
  rfl

theorem firstOf_recoded (hr : reader.Recodes index) (hp : p.reader = index.reader)
    (terms : List Bytes) : firstOf { p with reader } terms = p.firstOf terms := by
  induction terms with
  | nil => rfl
  | cons term terms ih =>
    unfold firstOf
    rw [open?_recoded hr hp, ih]

theorem anyOf_recoded (hr : reader.Recodes index) (hp : p.reader = index.reader) (d : DocId)
    (terms : List Bytes) : anyOf { p with reader } d terms = p.anyOf d terms := by
  induction terms with
  | nil => rfl
  | cons term terms ih =>
    unfold anyOf
    rw [open?_recoded hr hp, ih]

theorem mirrors (hr : reader.Recodes index) : TermProvider.Mirrors (Recoded reader index) := by
  rintro p _ ⟨hp, rfl⟩
  have hnext : next { p with reader } = (p.next.1, { p.next.2 with reader }) := by
    unfold next
    dsimp only
    rw [firstOf_recoded hr hp]
  obtain ⟨hfound, hrest⟩ := Prod.mk.inj hnext
  refine ⟨hfound, ⟨hp, hrest⟩, ⟨hp, rfl⟩, ?_, rfl, rfl⟩
  exact fun d => anyOf_recoded hr hp d p.terms

end ListedTerms

/-! ### Matches over both readers -/

namespace MultiTermMatch

variable {P : Type} [TermProvider P] {R : P → P → Prop} {p q : P}

theorem expand_mirrors (hR : TermProvider.Mirrors R) (limit : Option Nat) (taken : Nat)
    (h : R p q) : expand limit taken q = expand limit taken p := by
  fun_induction expand limit taken p generalizing q with
  | case1 taken p e p' hn =>
    obtain ⟨q', hnext, -⟩ := hR.next h hn
    exact expand_of_error hnext
  | case2 taken p p' hn =>
    obtain ⟨q', hnext, -⟩ := hR.next h hn
    exact expand_of_none hnext
  | case3 taken p m p' hn most hlimit hle =>
    obtain ⟨q', hnext, hrest⟩ := hR.next h hn
    obtain ⟨-, -, -, -, hfield, hinspect⟩ := hR hrest
    rw [expand_of_some hnext, hfield, hinspect, hlimit]
    exact if_neg (by simpa using hle)
  | case4 taken p m p' hn most hlimit hlt ih =>
    obtain ⟨q', hnext, hrest⟩ := hR.next h hn
    rw [expand_of_some hnext, ih hrest, hlimit]
    exact if_pos (by simpa using hlt)
  | case5 taken p m p' hn hlimit ih =>
    obtain ⟨q', hnext, hrest⟩ := hR.next h hn
    rw [expand_of_some hnext, ih hrest, hlimit]
    rfl

theorem ofProvider_mirrors (hR : TermProvider.Mirrors R) (config : MatchConfig) (h : R p q) :
    ofProvider config q = ofProvider config p := by
  obtain ⟨-, -, -, -, hfield, hinspect⟩ := hR h
  unfold ofProvider
  rw [expand_mirrors hR _ _ h, hfield, hinspect]

end MultiTermMatch

theorem TermMatch.ofTerm_recoded {reader : IndexReader} {index : Index} (hr : reader.Recodes index)
    (field : String) (term : Bytes) : ofTerm reader field term = ofTerm index.reader field term := by
  unfold ofTerm
  rw [hr.lookup, funext (hr.postings field)]
  rfl

end Concordance
