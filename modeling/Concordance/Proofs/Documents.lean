import Concordance.Proofs.QueryMeaning
import Concordance.Proofs.Writer

/-!
# Queries over documents

The ids that a query is about, over the catalog of a writer, are those of the documents that the
query selects: `IndexWriter.mem_meaning`.
-/

namespace Concordance

namespace IndexWriter

variable {w : IndexWriter} {field : String} {d : DocId} {doc : Document}

/-! ### One field -/

theorem terms_catalog : w.catalog.terms field = (w.table field).entries := by
  unfold Catalog.terms catalog
  by_cases hempty : (w.contributed field).isEmpty
  · simp only [if_pos hempty]
    apply Eq.symm
    apply List.map_eq_nil_iff.mpr
    exact List.isEmpty_iff.mp hempty
  · simp only [if_neg hempty]

theorem find?_catalog {term : Bytes} {e : TermDocs} :
    w.catalog.find? field term = some e ↔ e ∈ w.catalog.terms field ∧ e.term = term := by
  unfold Catalog.find? Catalog.terms
  cases w.catalog.table field with
  | none => simp
  | some t => exact TermTable.find?_eq_some

section

variable (hs : w.documents.size < UInt32.size) (hd : w.documents[d.toNat]? = some doc)
include hs hd

theorem lt_docCount : d < w.docCount := by
  rw [UInt64.lt_iff_toNat_lt, docCount_toNat hs]
  exact (Array.getElem?_eq_some_iff.mp hd).1

theorem mem_docs {e : TermDocs} (he : e ∈ w.catalog.terms field) :
    d ∈ e.docs ↔ e.term ∈ w.termsOf field doc := by
  rw [terms_catalog] at he
  rw [(mem_table he).2, mem_holders]
  constructor
  · rintro ⟨-, doc', hdoc', hterm⟩
    obtain rfl := Option.some.inj (hd.symm.trans hdoc')
    exact hterm
  · intro hterm
    exact ⟨lt_docCount hs hd, doc, hd, hterm⟩

omit hs in
theorem exists_entry {t : Bytes} (ht : t ∈ w.termsOf field doc) :
    ∃ e ∈ w.catalog.terms field, e.term = t := by
  have hcontributed : t ∈ w.contributed field :=
    mem_contributed.mpr ⟨doc, Array.mem_toList_iff.mpr (Array.mem_of_getElem? hd), ht⟩
  rw [terms_catalog]
  exact ⟨_, List.mem_map_of_mem hcontributed, rfl⟩

theorem exists_docs_iff (p : Bytes → Prop) :
    (∃ e ∈ w.catalog.terms field, p e.term ∧ d ∈ e.docs) ↔ ∃ t ∈ w.termsOf field doc, p t := by
  constructor
  · rintro ⟨e, he, hp, hmem⟩
    exact ⟨e.term, (mem_docs hs hd he).mp hmem, hp⟩
  · rintro ⟨t, ht, hp⟩
    obtain ⟨e, he, rfl⟩ := exists_entry hd ht
    exact ⟨e, he, hp, (mem_docs hs hd he).mpr ht⟩

theorem mem_gather {scoring : Option (ScoreFunction × UInt64)} {entries : List TermDocs}
    (p : Bytes → Prop) (h : ∀ e, e ∈ entries ↔ e ∈ w.catalog.terms field ∧ p e.term) :
    d ∈ (w.catalog.gather scoring entries).ids ↔ ∃ t ∈ w.termsOf field doc, p t := by
  have hcount : d < w.catalog.docCount := lt_docCount hs hd
  rw [Catalog.gather, Catalog.mem_having, List.any_eq_true, ← exists_docs_iff hs hd]
  simp only [hcount, true_and, decide_eq_true_iff, h, and_assoc]

/-! ### Queries -/

theorem mem_term (value : String) :
    d ∈ ((Query.term field value).meaning w.catalog).ids ↔ utf8 value ∈ w.termsOf field doc := by
  unfold Query.meaning
  cases hf : w.catalog.find? field (utf8 value) with
  | some e =>
    obtain ⟨he, hterm⟩ := find?_catalog.mp hf
    rw [← hterm]
    exact mem_docs hs hd he
  | none =>
    refine ⟨fun h => (List.not_mem_nil h).elim, fun h => ?_⟩
    obtain ⟨e, he⟩ := exists_entry hd h
    rw [find?_catalog.mpr he] at hf
    cases hf

end

mutual

theorem mem_meaning_of_doc (hs : w.documents.size < UInt32.size)
    (hd : w.documents[d.toNat]? = some doc) :
    (q : Query) → (d ∈ (q.meaning w.catalog).ids ↔ q.selects w.config.idField doc = true)
  | .term field value => by
    rw [mem_term hs hd]
    unfold Query.selects
    exact decide_eq_true_iff.symm
  | .multiTerm field predicate score => by
    unfold Query.meaning Query.selects
    rw [List.any_eq_true]
    refine mem_gather hs hd (fun t => (predicate.map utf8).holds t = true) fun e => ?_
    exact List.mem_filter
  | .oneOf field values score => by
    unfold Query.meaning Query.selects
    rw [List.any_eq_true]
    refine mem_gather hs hd (fun t => decide (t ∈ values.map utf8) = true) fun e => ?_
    rw [Query.listed, List.mem_filterMap, decide_eq_true_iff]
    constructor
    · rintro ⟨t, ht, he⟩
      obtain ⟨hmem, rfl⟩ := find?_catalog.mp he
      exact ⟨hmem, ht⟩
    · rintro ⟨hmem, ht⟩
      exact ⟨e.term, ht, find?_catalog.mpr ⟨hmem, rfl⟩⟩
  | .all => by
    unfold Query.meaning Query.selects
    exact iff_of_true (AllMatch.mem_below.mpr (lt_docCount hs hd)) rfl
  | .and children => by
    unfold Query.meaning Query.selects
    apply (Catalog.mem_having _).trans
    rw [mem_meanings_all hs hd children]
    exact and_iff_right (lt_docCount hs hd)
  | .or children => by
    unfold Query.meaning Query.selects
    apply (Catalog.mem_having _).trans
    rw [mem_meanings_any hs hd children]
    exact and_iff_right (lt_docCount hs hd)
  | .andNot base exclusion => by
    unfold Query.meaning Query.selects
    rw [AndNotMatch.meaning, List.mem_filter, mem_meaning_of_doc hs hd base]
    simp [mem_meaning_of_doc hs hd exclusion]
  | .boost child factor => by
    unfold Query.meaning Query.selects
    exact mem_meaning_of_doc hs hd child
  | .boostBy child function => by
    unfold Query.meaning Query.selects
    exact mem_meaning_of_doc hs hd child
  | .orderByScore child take ascending => by
    unfold Query.meaning Query.selects
    exact mem_meaning_of_doc hs hd child
  | .orderByField child field descending take => by
    unfold Query.meaning Query.selects
    exact mem_meaning_of_doc hs hd child

theorem mem_meanings_all (hs : w.documents.size < UInt32.size)
    (hd : w.documents[d.toNat]? = some doc) : (qs : List Query) →
    (((Query.meanings w.catalog qs).all fun ν => decide (d ∈ ν.ids)) = true ↔
      Query.selectsAll w.config.idField doc qs = true)
  | [] => Iff.rfl
  | q :: qs => by
    unfold Query.meanings Query.selectsAll
    rw [List.all_cons, Bool.and_eq_true, Bool.and_eq_true, decide_eq_true_iff,
      mem_meaning_of_doc hs hd q, mem_meanings_all hs hd qs]

theorem mem_meanings_any (hs : w.documents.size < UInt32.size)
    (hd : w.documents[d.toNat]? = some doc) : (qs : List Query) →
    (((Query.meanings w.catalog qs).any fun ν => decide (d ∈ ν.ids)) = true ↔
      Query.selectsAny w.config.idField doc qs = true)
  | [] => Iff.rfl
  | q :: qs => by
    unfold Query.meanings Query.selectsAny
    rw [List.any_cons, Bool.or_eq_true, Bool.or_eq_true, decide_eq_true_iff,
      mem_meaning_of_doc hs hd q, mem_meanings_any hs hd qs]

end

/-- The ids a query is about are those of the documents it selects. -/
theorem mem_meaning (hs : w.documents.size < UInt32.size) (q : Query) :
    d ∈ (q.meaning w.catalog).ids ↔
      ∃ doc, w.documents[d.toNat]? = some doc ∧ q.selects w.config.idField doc = true := by
  constructor
  · intro h
    have hlt : d < w.docCount := Query.covers_meaning w.catalog q d h
    rw [UInt64.lt_iff_toNat_lt, docCount_toNat hs] at hlt
    have hd := Array.getElem?_eq_getElem hlt
    exact ⟨_, hd, (mem_meaning_of_doc hs hd q).mp h⟩
  · rintro ⟨doc, hd, hselects⟩
    exact (mem_meaning_of_doc hs hd q).mpr hselects

end IndexWriter

end Concordance
