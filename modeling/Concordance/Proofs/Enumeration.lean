import Mathlib
import Concordance.Proofs.Build
import Concordance.Proofs.Search

/-!
# Providers under calls

What a term provider answers, however its calls are mixed, is told by the terms that it enumerates
and by the part of them that is still to come. Over a committed index these are the terms of the
field that satisfy the predicate, or those that are listed: `IndexWriter.providers_serve`.
-/

namespace Concordance

/-! ### Calls -/

inductive TermCall where
  | next
  | evaluate (d : DocId)
  | reset

inductive TermAnswer (α : Type) where
  | next (found : Option α)
  | evaluated (matched : Bool)
  | rewound

namespace TermProvider

variable {P : Type} [TermProvider P]

def call (p : P) : TermCall → Except Failure (TermAnswer TermMatch) × P
  | .next => ((next p).1.map .next, (next p).2)
  | .evaluate d => ((evaluate p d).map .evaluated, p)
  | .reset => (.ok .rewound, reset p)

def run (p : P) : List TermCall → List (Except Failure (TermAnswer TermMatch)) × P
  | [] => ([], p)
  | c :: calls =>
      let later := run (call p c).2 calls
      ((call p c).1 :: later.1, later.2)

end TermProvider

/-- What a provider is taken for: the terms it enumerates, in their order, and the documents of a
term. -/
structure Enumeration where
  terms : List Bytes
  docs : Bytes → List DocId

namespace Enumeration

/-- The answer to a call when `rest` is still to be enumerated, and what is so afterwards. -/
def answer (σ : Enumeration) (rest : List Bytes) : TermCall → TermAnswer Bytes × List Bytes
  | .next => (.next rest.head?, rest.tail)
  | .evaluate d => (.evaluated (decide (∃ term ∈ σ.terms, d ∈ σ.docs term)), rest)
  | .reset => (.rewound, σ.terms)

def run (σ : Enumeration) (rest : List Bytes) :
    List TermCall → List (TermAnswer Bytes) × List Bytes
  | [] => ([], rest)
  | c :: calls =>
      let later := run σ (σ.answer rest c).2 calls
      ((σ.answer rest c).1 :: later.1, later.2)

/-- A provider's answer is that of the enumeration: where that names a term, the provider has the
match of the term, with a posting list that delivers its documents. -/
inductive Allows (σ : Enumeration) (field : String) :
    Except Failure (TermAnswer TermMatch) → TermAnswer Bytes → Prop
  | exhausted : Allows σ field (.ok (.next none)) (.next none)
  | next {term : Bytes} {cursor : PostingCursor} : cursor.Delivers (σ.docs term) →
      Allows σ field (.ok (.next (some ⟨field, term, some cursor⟩))) (.next (some term))
  | evaluated (matched : Bool) : Allows σ field (.ok (.evaluated matched)) (.evaluated matched)
  | rewound : Allows σ field (.ok .rewound) .rewound

end Enumeration

/-! ### The contract of a provider -/

namespace TermProvider

variable {P : Type} [TermProvider P] {field : String} {entries : List TermDocs}
  {R : P → List TermDocs → Prop}

/-- However its calls are mixed, a provider answers as an enumeration does. -/
def Serves (field : String) (p : P) (σ : Enumeration) : Prop :=
  ∀ calls, List.Forall₂ (σ.Allows field) (run p calls).1 (σ.run σ.terms calls).1

/-- A relation to the terms still to come that every call keeps, where some terms are enumerated
after a reset and decide which documents are found. -/
structure Upholds (field : String) (entries : List TermDocs) (R : P → List TermDocs → Prop) :
    Prop where
  enumerates : Enumerates field R
  evaluate {p : P} {rest : List TermDocs} : R p rest → ∀ d,
    TermProvider.evaluate p d = .ok (decide (∃ e ∈ entries, d ∈ e.docs))
  reset {p : P} {rest : List TermDocs} : R p rest → R (TermProvider.reset p) entries

end TermProvider

/-- The enumeration of the terms of a table, few enough documents to each of them. -/
structure Enumeration.Of (entries : List TermDocs) (σ : Enumeration) : Prop where
  terms : σ.terms = entries.map (·.term)
  docs : ∀ e ∈ entries, σ.docs e.term = e.docs
  short : ∀ e ∈ entries, e.docs.length < UInt64.size

namespace Enumeration.Of

variable {P : Type} [TermProvider P] {field : String} {entries rest : List TermDocs}
  {σ : Enumeration} {R : P → List TermDocs → Prop} {p : P}

theorem exists_docs_iff (hσ : σ.Of entries) {d : DocId} :
    (∃ term ∈ σ.terms, d ∈ σ.docs term) ↔ ∃ e ∈ entries, d ∈ e.docs := by
  simp only [hσ.terms, List.mem_map, exists_exists_and_eq_and]
  constructor
  · rintro ⟨e, he, hd⟩
    exact ⟨e, he, hσ.docs e he ▸ hd⟩
  · rintro ⟨e, he, hd⟩
    exact ⟨e, he, (hσ.docs e he).symm ▸ hd⟩

/-- The match of a term that is opened is as the enumeration has it. -/
theorem allows_opened (hσ : σ.Of entries) {e : TermDocs} (he : e ∈ entries) {m : TermMatch}
    (h : m.Opened field e) : σ.Allows field (.ok (.next (some m))) (.next (some e.term)) := by
  obtain ⟨f, term, postings⟩ := m
  obtain ⟨rfl, rfl, hpresent, hreads⟩ := h
  obtain ⟨cursor, rfl⟩ := Option.isSome_iff_exists.mp hpresent
  obtain ⟨blocks, hblocks, hr⟩ := hreads
  apply Allows.next
  rw [hσ.docs e he, ← hblocks]
  apply PostingCursor.delivers_of_reads (hblocks ▸ hr) (hblocks ▸ e.ascending)
  rw [hblocks]
  exact hσ.short e he

theorem call_allows (hσ : σ.Of entries) (hR : TermProvider.Upholds field entries R)
    (hp : R p rest) (hrest : rest ⊆ entries) (c : TermCall) :
    σ.Allows field (TermProvider.call p c).1 (σ.answer (rest.map (·.term)) c).1 ∧
      ∃ rest', R (TermProvider.call p c).2 rest' ∧ rest' ⊆ entries ∧
        (σ.answer (rest.map (·.term)) c).2 = rest'.map (·.term) := by
  cases c with
  | next =>
    have hnext := hR.enumerates hp
    unfold TermProvider.call
    cases rest with
    | nil =>
      obtain ⟨p', hn, hr⟩ := hnext
      rw [hn]
      exact ⟨.exhausted, [], hr, hrest, rfl⟩
    | cons e more =>
      obtain ⟨m, p', hn, hopened, hr⟩ := hnext
      rw [hn]
      exact ⟨hσ.allows_opened (hrest List.mem_cons_self) hopened, more, hr,
        fun _ he => hrest (List.mem_cons_of_mem _ he), rfl⟩
  | evaluate d =>
    refine ⟨?_, rest, hp, hrest, rfl⟩
    show σ.Allows field ((TermProvider.evaluate p d).map _)
      (.evaluated (decide (∃ term ∈ σ.terms, d ∈ σ.docs term)))
    rw [hR.evaluate hp, decide_eq_decide.mpr hσ.exists_docs_iff]
    exact .evaluated _
  | reset => exact ⟨.rewound, entries, hR.reset hp, List.Subset.refl _, hσ.terms⟩

theorem run_allows (hσ : σ.Of entries) (hR : TermProvider.Upholds field entries R)
    (calls : List TermCall) (hp : R p rest) (hrest : rest ⊆ entries) :
    List.Forall₂ (σ.Allows field) (TermProvider.run p calls).1
      (σ.run (rest.map (·.term)) calls).1 := by
  induction calls generalizing p rest with
  | nil => exact .nil
  | cons c calls ih =>
    obtain ⟨hanswer, rest', hp', hrest', hstate⟩ := hσ.call_allows hR hp hrest c
    have hlater := ih hp' hrest'
    rw [← hstate] at hlater
    exact .cons hanswer hlater

theorem serves (hσ : σ.Of entries) (hR : TermProvider.Upholds field entries R)
    (hp : R p entries) : TermProvider.Serves field p σ := by
  intro calls
  rw [hσ.terms]
  exact hσ.run_allows hR calls hp (List.Subset.refl _)

end Enumeration.Of

/-! ### Terms that satisfy a predicate -/

theorem isInfixOf_iff {part whole : Bytes} : isInfixOf part whole = true ↔ part <:+: whole := by
  induction whole with
  | nil => rw [isInfixOf, List.isEmpty_iff, List.infix_nil]
  | cons b rest ih =>
    rw [isInfixOf, Bool.or_eq_true, List.isPrefixOf_iff_prefix, ih, List.infix_cons_iff]

/-- What a predicate says of a term. -/
def TermPredicate.Selects (term : Bytes) : TermPredicate Bytes → Prop
  | startsWith bytes => bytes <+: term
  | notStartsWith bytes => ¬bytes <+: term
  | endsWith bytes => bytes <:+ term
  | contains bytes => bytes <:+: term
  | notContains bytes => ¬bytes <:+: term
  | present => True

theorem TermPredicate.holds_iff {term : Bytes} {predicate : TermPredicate Bytes} :
    predicate.holds term = true ↔ predicate.Selects term := by
  cases predicate with
  | startsWith bytes => exact List.isPrefixOf_iff_prefix
  | notStartsWith bytes =>
    rw [holds, Bool.not_eq_true', Bool.eq_false_iff]
    exact not_congr List.isPrefixOf_iff_prefix
  | endsWith bytes => exact List.isSuffixOf_iff_suffix
  | contains bytes => exact isInfixOf_iff
  | notContains bytes =>
    rw [holds, Bool.not_eq_true', Bool.eq_false_iff]
    exact not_congr isInfixOf_iff
  | present => exact iff_of_true rfl trivial

instance (term : Bytes) (predicate : TermPredicate Bytes) : Decidable (predicate.Selects term) :=
  decidable_of_iff _ TermPredicate.holds_iff

namespace PredicateTerms

variable {reader : IndexReader} {c : Catalog} {field : String} {predicate : TermPredicate Bytes}
  {t : TermTable} {p : PredicateTerms} {rest : List TermDocs}

/-- Whether a document has a qualifying term is found by a scan of its own. -/
theorem anyFrom_stands (hr : reader.Holds c) (ht : c.table field = some t)
    (h : Stands reader field predicate t p rest) {list : TermList}
    (hl : reader.Lists field list t) {position : Nat}
    (hc : predicate.Contiguous (t.entries.drop position)) (d : DocId) :
    p.anyFrom d ⟨list, position⟩ =
      .ok (decide (∃ e ∈ predicate.select (t.entries.drop position), d ∈ e.docs)) := by
  generalize hsel : predicate.select (t.entries.drop position) = selected
  induction selected generalizing position with
  | nil =>
    have hscan := hl.scan hr.decode hc
    rw [hsel] at hscan
    obtain ⟨c', hs, -⟩ := hscan
    rw [← h.reader_eq, ← h.predicate_eq] at hs
    rw [anyFrom_of_none hs]
    simp
  | cons e more ih =>
    have hscan := hl.scan hr.decode hc
    rw [hsel] at hscan
    obtain ⟨info, position', hs, hlookup, hmem, hmore, hcont⟩ := hscan
    rw [← h.reader_eq, ← h.predicate_eq] at hs
    rw [anyFrom_of_some hs, h.reader_eq, h.field_eq,
      (hr.opens ht hmem hlookup).contains d, ih hcont hmore]
    by_cases hd : d ∈ e.docs
    · simp [hd, Except.bind]
    · simp [hd, Except.bind]

theorem upholds (hr : reader.Holds c) (ht : c.table field = some t) :
    TermProvider.Upholds field (predicate.select t.entries) (Stands reader field predicate t) where
  enumerates := enumerates hr ht
  evaluate {p rest} h d := by
    obtain ⟨list, hterms, hlists⟩ := hr.terms ht
    show p.evaluate d = _
    unfold evaluate
    rw [h.reader_eq, h.field_eq, hterms]
    show p.anyFrom d (p.start ⟨list, 0⟩) = _
    rw [start_eq h hlists, anyFrom_stands hr ht h hlists (predicate.contiguous_startAt t) d,
      TermPredicate.select_startAt]
  reset h := ⟨h.reader_eq, h.field_eq, h.predicate_eq, h.lists, rfl, rfl⟩

end PredicateTerms

/-! ### Listed terms -/

namespace ListedTerms

variable {reader : IndexReader} {c : Catalog} {field : String} {terms : List Bytes} {t : TermTable}

theorem anyOf_eq (hr : reader.Holds c) (ht : c.table field = some t) {p : ListedTerms}
    (hreader : p.reader = reader) (hfield : p.field = field) (d : DocId) (terms : List Bytes) :
    p.anyOf d terms = .ok (decide (∃ e ∈ select t terms, d ∈ e.docs)) := by
  induction terms with
  | nil => simp [anyOf, select]
  | cons term terms ih =>
    unfold select
    rw [anyOf, open?, hreader, hfield]
    cases hf : t.find? term with
    | none =>
      rw [List.filterMap_cons_none hf, hr.absent ht hf]
      exact ih
    | some e =>
      obtain ⟨info, hlookup, hopens⟩ := hr.present ht hf
      have hcontains := hopens.contains d
      obtain ⟨cursor, -, hopen, -⟩ := hopens
      rw [hopen] at hcontains
      rw [List.filterMap_cons_some hf, hlookup]
      simp only [bind, Except.bind, pure, Except.pure, hopen] at hcontains ⊢
      rw [hcontains, ih]
      by_cases hd : d ∈ e.docs
      · simp [hd]
      · simp only [hd, decide_false, Bool.false_eq_true, if_false]
        exact congrArg Except.ok (decide_eq_decide.mpr (by simp [select, hd]))

theorem upholds (hr : reader.Holds c) (ht : c.table field = some t) :
    TermProvider.Upholds field (select t terms) (Stands reader field terms t) where
  enumerates := enumerates hr ht
  evaluate {p rest} h d := by
    show p.anyOf d p.terms = _
    rw [anyOf_eq hr ht h.reader_eq h.field_eq, h.terms_eq]
  reset {p rest} h := ⟨h.reader_eq, h.field_eq, h.terms_eq, by rw [← h.terms_eq]; rfl⟩

end ListedTerms

/-! ### Committed indexes -/

namespace IndexWriter

variable {w : IndexWriter} {index : Index} {field : String}

theorem enumeration_of (h : w.Committed index) (entries : List TermDocs)
    (he : entries ⊆ (w.table field).entries) :
    Enumeration.Of entries ⟨entries.map (·.term), w.holders field⟩ where
  terms := rfl
  docs e hmem := (mem_table (he hmem)).2.symm
  short e hmem := by
    rw [(mem_table (he hmem)).2]
    exact length_holders_lt h.size_lt e.term

theorem terms_select (predicate : TermPredicate Bytes) :
    (predicate.select (w.table field).entries).map (·.term) =
      (w.contributed field).filter (predicate.holds ·) := by
  rw [TermPredicate.select, table, List.filter_map, List.map_map]
  exact List.map_id _

theorem find?_table (term : Bytes) : ((w.table field).find? term).map (·.term) =
    if term ∈ w.contributed field then some term else none := by
  split
  · rename_i hterm
    have hfound : (w.table field).find? term =
        some ⟨term, w.holders field term, ascending_holders term⟩ :=
      TermTable.find?_eq_some.mpr ⟨List.mem_map.mpr ⟨term, hterm, rfl⟩, rfl⟩
    rw [hfound]
    rfl
  · rename_i hterm
    rw [Option.map_eq_none_iff, Option.eq_none_iff_forall_not_mem]
    intro e he
    obtain ⟨hmem, rfl⟩ := TermTable.find?_eq_some.mp he
    exact hterm (mem_table hmem).1

theorem terms_listed (terms : List Bytes) :
    (ListedTerms.select (w.table field) terms).map (·.term) =
      terms.filter (· ∈ w.contributed field) := by
  rw [ListedTerms.select, List.map_filterMap, ← List.filterMap_eq_filter]
  apply List.filterMap_congr
  intro term _
  rw [find?_table]
  simp [Option.guard]

/-- A provider for a predicate enumerates the terms of a field that satisfy it, in ascending order
and once each, and a provider for a list those of the list that are terms of the field, as they are
listed. The terms of a field are those that the documents contribute. -/
theorem providers_serve (h : w.Committed index) (hfield : index.reader.hasField field = true) :
    ∃ docs : Bytes → List DocId,
      (∀ term, Ascending (docs term)) ∧
      (∀ term d, d ∈ docs term ↔
        ∃ doc, w.documents.toList[d.toNat]? = some doc ∧ term ∈ doc.terms w.config.idField field) ∧
      (∀ predicate, ∃ p found, PredicateTerms.ofField index.reader field predicate = .ok p ∧
        found.Pairwise (· < ·) ∧
        (∀ term, term ∈ found ↔
          (∃ doc ∈ w.documents.toList, term ∈ doc.terms w.config.idField field) ∧
            predicate.Selects term) ∧
        TermProvider.Serves field p ⟨found, docs⟩) ∧
      ∀ terms, ∃ p, ListedTerms.ofField index.reader field terms = .ok p ∧
        TermProvider.Serves field p
          ⟨terms.filter fun term =>
            ∃ doc ∈ w.documents.toList, term ∈ doc.terms w.config.idField field, docs⟩ := by
  rw [h.reader_holds.hasField] at hfield
  obtain ⟨first, hfirst⟩ := hasField_iff_contributed.mp hfield
  have ht := table_of_contributed hfirst
  refine ⟨w.holders field, ascending_holders, fun term d => mem_holders_iff_getElem? h.size_lt,
    fun predicate => ?_, fun terms => ?_⟩
  · obtain ⟨p, hp, hstands⟩ := PredicateTerms.stands_ofField h.reader_holds ht
    have hof := enumeration_of h (predicate.select (w.table field).entries)
      (List.filter_subset_self _)
    rw [terms_select] at hof
    refine ⟨p, _, hp, sorted_contributed.filter _, fun term => ?_,
      hof.serves (PredicateTerms.upholds h.reader_holds ht) hstands⟩
    rw [List.mem_filter, mem_contributed, TermPredicate.holds_iff]
    rfl
  · obtain ⟨p, hp, hstands⟩ := ListedTerms.stands_ofField h.reader_holds ht terms
    have hof := enumeration_of h (ListedTerms.select (w.table field) terms) fun e he => by
      obtain ⟨term, -, hfound⟩ := List.mem_filterMap.mp he
      exact (TermTable.find?_eq_some.mp hfound).1
    rw [terms_listed] at hof
    simp only [mem_contributed] at hof
    exact ⟨p, hp, hof.serves (ListedTerms.upholds h.reader_holds ht) hstands⟩

/-- The terms from `b` on, and a list that has one of them twice. -/
theorem providers_serve_tagged : ∃ index docs, tagged.Committed index ∧
    index.reader.hasField "id" = true ∧
    (∃ p, PredicateTerms.ofField index.reader "id" (.startsWith (utf8 "b")) = .ok p ∧
      List.Forall₂ (Enumeration.Allows ⟨[utf8 "b"], docs⟩ "id")
        (TermProvider.run p [.evaluate 1, .next, .evaluate 0, .next, .next, .reset, .next]).1
        [.evaluated true, .next (some (utf8 "b")), .evaluated false, .next none, .next none,
          .rewound, .next (some (utf8 "b"))]) ∧
    ∃ p, ListedTerms.ofField index.reader "id" [utf8 "b", utf8 "c", utf8 "b"] = .ok p ∧
      List.Forall₂ (Enumeration.Allows ⟨[utf8 "b", utf8 "b"], docs⟩ "id")
        (TermProvider.run p [.next, .evaluate 1, .next, .next, .reset, .next]).1
        [.next (some (utf8 "b")), .evaluated true, .next (some (utf8 "b")), .next none, .rewound,
          .next (some (utf8 "b"))] := by
  obtain ⟨index, h⟩ := exists_tagged
  have hfield : index.reader.hasField "id" = true := by
    rw [h.reader_holds.hasField, hasField_catalog]
    decide
  obtain ⟨docs, -, hdocs, hpredicates, hlists⟩ := providers_serve h hfield
  have hfirst : 0 ∉ docs (utf8 "b") := by
    rw [hdocs]
    decide
  have hsecond : 1 ∈ docs (utf8 "b") := by
    rw [hdocs]
    exact ⟨_, rfl, by decide⟩
  refine ⟨index, docs, h, hfield, ?_, ?_⟩
  · obtain ⟨p, found, hp, hsorted, hfound, hserves⟩ := hpredicates (.startsWith (utf8 "b"))
    have hb : found = [utf8 "b"] := by
      refine hsorted.eq_of_mem_iff (List.pairwise_singleton _ _) fun term => ?_
      rw [hfound, List.mem_singleton]
      constructor
      · rintro ⟨⟨doc, hdoc, hterm⟩, hprefix⟩
        rcases List.mem_pair.mp hdoc with rfl | rfl
        · obtain rfl := List.mem_singleton.mp hterm
          exact absurd hprefix (by decide)
        · exact List.mem_singleton.mp hterm
      · rintro rfl
        exact ⟨by decide, List.prefix_refl _⟩
    subst hb
    refine ⟨p, hp, ?_⟩
    have hrun := hserves [.evaluate 1, .next, .evaluate 0, .next, .next, .reset, .next]
    simpa [Enumeration.run, Enumeration.answer, hfirst, hsecond] using hrun
  · obtain ⟨p, hp, hserves⟩ := hlists [utf8 "b", utf8 "c", utf8 "b"]
    refine ⟨p, hp, ?_⟩
    have hlisted : ([utf8 "b", utf8 "c", utf8 "b"].filter fun term =>
        ∃ doc ∈ tagged.documents.toList, term ∈ doc.terms tagged.config.idField "id") =
        [utf8 "b", utf8 "b"] := by
      decide
    rw [hlisted] at hserves
    have hrun := hserves [.next, .evaluate 1, .next, .next, .reset, .next]
    simpa [Enumeration.run, Enumeration.answer, hsecond] using hrun

end IndexWriter

end Concordance
