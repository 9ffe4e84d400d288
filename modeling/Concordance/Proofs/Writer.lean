import Concordance.Proofs.Catalog
import Concordance.Proofs.Grouping
import Concordance.Proofs.Leaves
import Concordance.Query.Meaning
import Mathlib.Data.List.Dedup

/-!
# The catalog of a writer

What the documents of a writer contribute, told from the documents alone. The terms that a writer
groups for a field are those of this catalog: `IndexWriter.fieldTerms_eq`.
-/

namespace Concordance

namespace IndexWriter

variable (w : IndexWriter) (field : String)

def termsOf (doc : Document) : List Bytes := doc.terms w.config.idField field

def holders (term : Bytes) : List DocId :=
  (AllMatch.below w.docCount).filter fun d =>
    w.documents[d.toNat]?.any fun doc => (w.termsOf field doc).contains term

def contributed : List Bytes :=
  (w.documents.toList.flatMap (w.termsOf field)).dedup.mergeSort fun a b => a ≤ b

/-- The number of postings of a field: one for each document and each of its terms. -/
def postingCount : Nat :=
  (w.documents.toList.flatMap fun doc => (w.termsOf field doc).dedup).length

variable {w field}

theorem mem_contributed {term : Bytes} :
    term ∈ w.contributed field ↔ ∃ doc ∈ w.documents.toList, term ∈ w.termsOf field doc := by
  rw [contributed, List.mem_mergeSort, List.mem_dedup, List.mem_flatMap]

theorem sorted_contributed : (w.contributed field).Pairwise fun a b => a < b := by
  have hle : (w.contributed field).Pairwise fun a b => (decide (a ≤ b)) = true :=
    List.pairwise_mergeSort Bytes.le_trans Bytes.le_total _
  have hnodup : (w.contributed field).Nodup :=
    (List.mergeSort_perm _ _).nodup_iff.mpr (List.nodup_dedup _)
  apply (hle.and hnodup).imp
  intro a b h
  exact (Bytes.lt_or_eq_of_le (of_decide_eq_true h.1)).resolve_right h.2

theorem mem_holders {term : Bytes} {d : DocId} :
    d ∈ w.holders field term ↔ d < w.docCount ∧
      ∃ doc, w.documents[d.toNat]? = some doc ∧ term ∈ w.termsOf field doc := by
  rw [holders, List.mem_filter, AllMatch.mem_below, Option.any_eq_true]
  simp only [List.contains_iff_mem]

theorem ascending_holders (term : Bytes) : Ascending (w.holders field term) :=
  (AllMatch.ascending_below _).filter _

variable (w field)

def table : TermTable where
  entries := (w.contributed field).map fun term =>
    { term, docs := w.holders field term, ascending := ascending_holders term }
  sorted := List.pairwise_map.mpr sorted_contributed

variable {w field}

theorem mem_table {e : TermDocs} (h : e ∈ (w.table field).entries) :
    e.term ∈ w.contributed field ∧ e.docs = w.holders field e.term := by
  obtain ⟨term, hterm, rfl⟩ := List.mem_map.mp h
  exact ⟨hterm, rfl⟩

variable (w)

/-- What the documents of a writer contribute; a field without terms is no field. -/
def catalog : Catalog where
  docCount := w.docCount
  table field := if (w.contributed field).isEmpty then none else some (w.table field)
  bounded {field t} h := by
    intro e he d hd
    split at h
    · simp at h
    · rw [← Option.some.inj h] at he
      rw [(mem_table he).2] at hd
      exact (mem_holders.mp hd).1

variable {w}

/-! ### Contributions -/

theorem filterMap_contributions (doc : Document) (idField field : String) (d : DocId) :
    (doc.contributions idField d).filterMap
        (fun c => if c.field = field then some (c.term, c.doc) else none) =
      (doc.terms idField field).map fun term => (term, d) := by
  have hfields : (doc.fields.map fun entry =>
        (⟨entry.1, entry.2.termBytes, d⟩ : Contribution)).filterMap
      (fun c => if c.field = field then some (c.term, c.doc) else none) =
      (doc.fields.filterMap fun entry =>
        if entry.1 = field then some entry.2.termBytes else none).map fun term => (term, d) := by
    rw [List.filterMap_map, List.map_filterMap]
    apply List.filterMap_congr
    intro entry _
    by_cases h : entry.1 = field <;> simp [h]
  unfold Document.contributions Document.terms
  rw [List.map_append, ← hfields]
  by_cases h : field = idField
  · rw [if_pos h, List.filterMap_cons, if_pos h.symm]
    rfl
  · rw [if_neg h, List.filterMap_cons, if_neg (Ne.symm h)]
    rfl

def pairs (w : IndexWriter) (field : String) : List (Bytes × DocId) :=
  w.documents.toList.zipIdx.flatMap fun (doc, i) =>
    (w.termsOf field doc).map fun term => (term, UInt64.ofNat i)

theorem contributions_of_field (w : IndexWriter) (field : String) :
    (w.contributions.filterMap fun c => if c.field = field then some (c.term, c.doc) else none) =
      w.pairs field := by
  rw [contributions, List.filterMap_flatMap, pairs]
  apply List.flatMap_congr
  intro entry _
  exact filterMap_contributions entry.1 _ field _

theorem toNat_of_lt {i : Nat} (hs : w.documents.size < UInt32.size) (hi : i < w.documents.size) :
    (UInt64.ofNat i).toNat = i :=
  UInt64.toNat_ofNat_of_lt' (by simp [UInt32.size, UInt64.size] at hs ⊢; omega)

theorem docCount_toNat (hs : w.documents.size < UInt32.size) :
    w.docCount.toNat = w.documents.size :=
  UInt64.toNat_ofNat_of_lt' (by simp [UInt32.size, UInt64.size] at hs ⊢; omega)

theorem pairs_ascending (hs : w.documents.size < UInt32.size) :
    (w.pairs field).Pairwise fun a b => a.2 ≤ b.2 := by
  rw [pairs, List.pairwise_flatMap]
  constructor
  · intro entry _
    apply List.pairwise_map.mpr
    exact List.pairwise_of_forall fun _ _ => UInt64.le_refl _
  rw [List.pairwise_iff_getElem]
  intro i j hi hj hij a ha b hb
  simp only [List.getElem_zipIdx, Nat.zero_add, List.mem_map] at ha hb
  obtain ⟨_, -, rfl⟩ := ha
  obtain ⟨_, -, rfl⟩ := hb
  rw [List.length_zipIdx, Array.length_toList] at hi hj
  rw [UInt64.le_iff_toNat_le, toNat_of_lt hs hi, toNat_of_lt hs hj]
  exact Nat.le_of_lt hij

theorem mem_pairs (hs : w.documents.size < UInt32.size) {term : Bytes} {d : DocId} :
    (term, d) ∈ w.pairs field ↔ d ∈ w.holders field term := by
  rw [pairs, List.mem_flatMap, mem_holders]
  constructor
  · rintro ⟨⟨doc, i⟩, hmem, hpair⟩
    rw [List.mk_mem_zipIdx_iff_getElem?, Array.getElem?_toList] at hmem
    obtain ⟨t, ht, heq⟩ := List.mem_map.mp hpair
    obtain ⟨rfl, rfl⟩ := Prod.mk.inj heq
    obtain ⟨hi, -⟩ := Array.getElem?_eq_some_iff.mp hmem
    rw [UInt64.lt_iff_toNat_lt, toNat_of_lt hs hi, docCount_toNat hs]
    exact ⟨hi, doc, hmem, ht⟩
  · rintro ⟨-, doc, hdoc, hterm⟩
    refine ⟨(doc, d.toNat), ?_, List.mem_map.mpr ⟨term, hterm, ?_⟩⟩
    · rw [List.mk_mem_zipIdx_iff_getElem?, Array.getElem?_toList]
      exact hdoc
    · rw [UInt64.ofNat_toNat]

/-! ### The terms of a field -/

theorem contributed_iff_pair (hs : w.documents.size < UInt32.size) {term : Bytes} :
    term ∈ w.contributed field ↔ ∃ d, (term, d) ∈ w.pairs field := by
  rw [mem_contributed]
  constructor
  · rintro ⟨doc, hdoc, hterm⟩
    obtain ⟨i, hi, rfl⟩ := List.getElem_of_mem hdoc
    refine ⟨UInt64.ofNat i, List.mem_flatMap.mpr ⟨(_, i), ?_, List.mem_map.mpr ⟨term, hterm, rfl⟩⟩⟩
    exact List.mk_mem_zipIdx_iff_getElem?.mpr (List.getElem?_eq_getElem hi)
  · rintro ⟨d, hd⟩
    obtain ⟨-, doc, hdoc, hterm⟩ := mem_holders.mp ((mem_pairs hs).mp hd)
    exact ⟨doc, Array.mem_toList_iff.mpr (Array.mem_of_getElem? hdoc), hterm⟩

/-- A writer groups the terms of a field as its catalog has them. -/
theorem fieldTerms_eq (hs : w.documents.size < UInt32.size) (field : String) :
    fieldTerms w.contributions field = (w.table field).entries.map fun e => (e.term, e.docs) := by
  have hg : Groups (w.pairs field) (fieldTerms w.contributions field) := by
    unfold fieldTerms
    rw [contributions_of_field]
    have hsorted : (w.pairs field).Pairwise fun a b => a.2 ≤ b.2 := pairs_ascending hs
    have h := groups_groupTerms (precedes_mergeSort hsorted)
    exact ⟨h.sorted, h.ascending, h.nonempty, fun t d => by rw [← h.mem_iff, List.mem_mergeSort]⟩
  generalize fieldTerms w.contributions field = groups at hg
  have hterms : groups.map (·.1) = w.contributed field := by
    apply List.Pairwise.eq_of_mem_iff (List.pairwise_map.mpr hg.sorted) sorted_contributed
    intro t
    rw [contributed_iff_pair hs, List.mem_map]
    constructor
    · rintro ⟨g, hgm, rfl⟩
      obtain ⟨d, hd⟩ := List.exists_mem_of_ne_nil g.2 (hg.nonempty g hgm)
      exact ⟨d, (hg.mem_iff _ _).mpr ⟨g.2, hgm, hd⟩⟩
    · rintro ⟨d, hd⟩
      obtain ⟨docs, hgm, -⟩ := (hg.mem_iff _ _).mp hd
      exact ⟨(t, docs), hgm, rfl⟩
  have hdocs : ∀ g ∈ groups, g = (g.1, w.holders field g.1) := by
    intro g hgm
    refine Prod.ext rfl ((hg.ascending g hgm).eq_of_mem_iff (ascending_holders g.1) fun d => ?_)
    rw [← mem_pairs hs, hg.mem_iff]
    refine ⟨fun hd => ⟨g.2, hgm, hd⟩, ?_⟩
    rintro ⟨docs, hgm', hd⟩
    have hnodup := Bytes.nodup_of_sorted (List.pairwise_map.mpr hg.sorted)
    rw [List.inj_on_of_nodup_map hnodup hgm hgm' rfl]
    exact hd
  rw [table, List.map_map, ← hterms, List.map_map]
  conv => lhs; rw [← List.map_id groups]
  exact List.map_congr_left fun g hgm => hdocs g hgm

end IndexWriter

end Concordance
