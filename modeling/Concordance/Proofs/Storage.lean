import Concordance.Index.Writer
import Concordance.Proofs.Catalog
import Concordance.Proofs.Contract
import Concordance.Proofs.Dictionary

/-!
# Stored fields

The index of a field answers by the table of terms it was made from: `FieldIndex.stores`. The lists
stand one after the other, so that the places of a list cut it out of the store again.
-/

namespace Concordance

theorem bind_eq_ok {r : Except ε α} {k : α → Except ε β} {b : β} (h : (r >>= k) = .ok b) :
    ∃ a, r = .ok a ∧ k a = .ok b := by
  cases r with
  | error e => cases h
  | ok a => exact ⟨a, rfl, h⟩

theorem map_eq_ok {r : Except ε α} {f : α → β} {b : β} (h : r.map f = .ok b) :
    ∃ a, r = .ok a ∧ f a = b := by
  cases r with
  | error e => cases h
  | ok a => exact ⟨a, rfl, Except.ok.inj h⟩

theorem mapM_ok {f : α → Except ε β} {xs : List α} {ys : List β} (h : xs.mapM f = .ok ys) :
    List.Forall₂ (fun x y => f x = .ok y) xs ys := by
  induction xs generalizing ys with
  | nil =>
    obtain rfl : [] = ys := Except.ok.inj h
    exact .nil
  | cons x xs ih =>
    rw [List.mapM_cons] at h
    obtain ⟨y, hx, h⟩ := bind_eq_ok h
    obtain ⟨rest, hxs, h⟩ := bind_eq_ok h
    obtain rfl : y :: rest = ys := Except.ok.inj h
    exact .cons hx (ih hxs)

/-! ### Places -/

theorem extract_middle {α : Type} (front middle back : List α) :
    (front ++ (middle ++ back)).toArray.extract front.length (front.length + middle.length) =
      middle.toArray := by
  rw [List.extract_toArray, List.extract_eq_take_drop, List.drop_left, Nat.add_sub_cancel_left,
    List.take_left]

namespace TermPostings

/-- Each place cuts its list out of the store, in which the lists stand behind `front`. -/
theorem places_open (dictionary : Dictionary) (lists : List TermPostings) (front : Bytes)
    (frontSkips : List SkipEntry)
    (hdata : (front ++ lists.flatMap (·.data)).length < UInt64.size)
    (hskips : (frontSkips ++ lists.flatMap (·.skips)).length < UInt32.size) :
    List.Forall₂ (fun list entry => entry.1 = list.term ∧
        FieldIndex.postings
          ⟨dictionary, (front ++ lists.flatMap (·.data)).toArray,
            (frontSkips ++ lists.flatMap (·.skips)).toArray⟩ entry.2 =
          .ok { data := list.data.toArray, skips := list.skips.toArray })
      lists (places front.length frontSkips.length lists) := by
  induction lists generalizing front frontSkips with
  | nil => exact .nil
  | cons list lists ih =>
    rw [List.flatMap_cons] at hdata hskips ⊢
    rw [List.flatMap_cons]
    refine .cons ⟨rfl, ?_⟩ ?_
    · simp only [List.length_append] at hdata hskips
      have hstart : (UInt64.ofNat front.length).toNat = front.length :=
        UInt64.toNat_ofNat_of_lt' (by omega)
      have hlength : (UInt64.ofNat list.data.length).toNat = list.data.length :=
        UInt64.toNat_ofNat_of_lt' (by omega)
      have hstop : (UInt64.ofNat front.length + UInt64.ofNat list.data.length).toNat =
          front.length + list.data.length := by
        rw [UInt64.toNat_add, hstart, hlength]
        exact Nat.mod_eq_of_lt (by simp only [UInt64.size] at hdata; omega)
      have hskipStart : (UInt32.ofNat frontSkips.length).toNat = frontSkips.length :=
        UInt32.toNat_ofNat_of_lt' (by omega)
      have hskipCount : (UInt32.ofNat list.skips.length).toNat = list.skips.length :=
        UInt32.toNat_ofNat_of_lt' (by omega)
      unfold FieldIndex.postings
      simp only [hstart, hstop, hskipStart, hskipCount, UInt64.le_iff_toNat_le]
      rw [if_neg, if_neg, extract_middle, extract_middle]
      · simp only [List.size_toArray, List.length_append]
        omega
      · simp only [List.size_toArray, List.length_append]
        omega
    · have h := ih (front ++ list.data) (frontSkips ++ list.skips)
        (by rwa [List.append_assoc]) (by rwa [List.append_assoc])
      rwa [List.append_assoc, List.append_assoc, List.length_append, List.length_append] at h

/-- Each place is that of the term of its list, with the number of documents of the list. -/
theorem places_counts (lists : List TermPostings) (offset skipOffset : Nat) :
    List.Forall₂ (fun list entry => entry.1 = list.term ∧
        entry.2.docFrequency = list.docFrequency)
      lists (places offset skipOffset lists) := by
  induction lists generalizing offset skipOffset with
  | nil => exact .nil
  | cons list lists ih => exact .cons ⟨rfl, rfl⟩ (ih _ _)

end TermPostings

/-! ### One field -/

namespace FieldIndex

/-- The index of a field that answers by a table of terms. -/
structure Stores (field : FieldIndex) (t : TermTable) : Prop where
  size : field.dictionary.size = t.entries.length
  entry {i : Nat} {e : TermDocs} : t.entries[i]? = some e →
    ∃ info, field.dictionary.entryAt? i = some (e.term, info) ∧
      field.dictionary.get? e.term = some info
  lowerBound (term : Bytes) :
    field.dictionary.lowerBound term = (t.entries.takeWhile (·.term < term)).length
  absent {term : Bytes} : t.find? term = none → field.dictionary.get? term = none
  present {term : Bytes} {e : TermDocs} : t.find? term = some e →
    ∃ info cursor blocks, field.dictionary.get? term = some info ∧
      field.postings info = .ok cursor ∧ blocks.flatten = e.docs ∧ cursor.Reads blocks e.docs

def Places (field : FieldIndex) (e : TermDocs) (entry : TermEntry) : Prop :=
  entry.1 = e.term ∧ ∃ cursor blocks, field.postings entry.2 = .ok cursor ∧
    blocks.flatten = e.docs ∧ cursor.Reads blocks e.docs

theorem find?_places {field : FieldIndex} {docs : List TermDocs} {entries : List TermEntry}
    (h : List.Forall₂ field.Places docs entries) (term : Bytes) :
    match docs.find? (·.term == term) with
    | none => entries.find? (·.1 == term) = none
    | some e => ∃ entry, entries.find? (·.1 == term) = some entry ∧ field.Places e entry := by
  induction h with
  | nil => rfl
  | @cons e entry docs entries he _ ih =>
    rw [List.find?_cons, List.find?_cons, he.1]
    cases e.term == term with
    | true => exact ⟨entry, rfl, he⟩
    | false => exact ih

theorem terms_places {field : FieldIndex} {docs : List TermDocs} {entries : List TermEntry}
    (h : List.Forall₂ field.Places docs entries) : entries.map (·.1) = docs.map (·.term) :=
  map_eq_of_forall₂ h fun _ _ he => he.1

/-- Entries for the terms of a table are in the order of the table. -/
theorem sorted_of_terms {t : TermTable} {entries : List TermEntry}
    (h : entries.map (·.1) = t.entries.map (·.term)) : Dictionary.Sorted entries := by
  have hsorted := List.pairwise_map.mpr t.sorted
  rw [← h] at hsorted
  exact List.pairwise_map.mp hsorted

theorem length_takeWhile_map (f : α → Bytes) (p : Bytes → Bool) (xs : List α) :
    (xs.takeWhile fun x => p (f x)).length = ((xs.map f).takeWhile p).length := by
  rw [List.takeWhile_map, List.length_map]
  rfl

/-- The term of an entry is found at its place in the dictionary. -/
theorem entry_of_places {field : FieldIndex} {t : TermTable} {entries : List TermEntry}
    (h : List.Forall₂ field.Places t.entries entries) (hsorted : Dictionary.Sorted entries) {i : Nat}
    (hi : i < t.entries.length) (hi' : i < entries.length) :
    entries[i].1 = t.entries[i].term ∧
      entries.find? (·.1 == t.entries[i].term) = some entries[i] := by
  have hterm : entries[i].1 = t.entries[i].term := (h.get hi hi').1
  exact ⟨hterm, hterm ▸ Dictionary.find?_of_mem hsorted (List.getElem_mem hi')⟩

theorem stores_of_places {entries : List TermEntry} {store : PostingStore} {t : TermTable}
    (h : List.Forall₂ (Places ⟨⟨entries.toArray⟩, store⟩) t.entries entries) :
    Stores ⟨⟨entries.toArray⟩, store⟩ t := by
  have hterms := terms_places h
  have hsorted := sorted_of_terms hterms
  have hget := Dictionary.get?_of_sorted hsorted
  refine ⟨?_, fun {i e} hi => ?_, fun term => ?_, fun {term} hf => ?_, fun {term e} hf => ?_⟩
  · show entries.toArray.size = _
    rw [List.size_toArray, h.length_eq]
  · obtain ⟨hlt, rfl⟩ := List.getElem?_eq_some_iff.mp hi
    have hlt' : i < entries.length := h.length_eq ▸ hlt
    obtain ⟨hterm, hfind⟩ := entry_of_places h hsorted hlt hlt'
    refine ⟨entries[i].2, ?_, ?_⟩
    · rw [Dictionary.entryAt?, List.getElem?_toArray, List.getElem?_eq_getElem hlt', ← hterm]
    · rw [hget, hfind]
      rfl
  · rw [Dictionary.lowerBound_of_sorted hsorted]
    have hentries := length_takeWhile_map (fun e : TermEntry => e.1) (· < term) entries
    have hdocs := length_takeWhile_map TermDocs.term (· < term) t.entries
    rw [hterms] at hentries
    exact hentries.trans hdocs.symm
  · have hfind := find?_places h term
    rw [TermTable.find?] at hf
    rw [hf] at hfind
    rw [hget, hfind]
    rfl
  · have hfind := find?_places h term
    rw [TermTable.find?] at hf
    rw [hf] at hfind
    obtain ⟨entry, hentry, -, cursor, blocks, hopen, hdocs, hreads⟩ := hfind
    exact ⟨entry.2, cursor, blocks, by rw [hget, hentry]; rfl, hopen, hdocs, hreads⟩

end FieldIndex

end Concordance
