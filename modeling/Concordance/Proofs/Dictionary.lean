import Concordance.Dictionary
import Concordance.Proofs.Chunks
import Concordance.Proofs.Grouping

/-!
# Dictionaries

A dictionary made of entries that are in order holds those entries, finds the position of a term
among them, and the place of each of their terms.
-/

namespace Concordance

namespace Dictionary

/-- Entries in the order of their terms, each term once. -/
abbrev Sorted (entries : List TermEntry) : Prop := entries.Pairwise fun a b => a.1 < b.1

theorem keepLast_of_sorted {entries : List TermEntry} (h : Sorted entries) :
    keepLast entries = entries := by
  fun_induction keepLast entries with
  | case1 a b rest heq ih =>
    have hlt := (List.pairwise_cons.mp h).1 b List.mem_cons_self
    exact (List.lt_irrefl b.1 (heq ▸ hlt)).elim
  | case2 a b rest hne ih => rw [ih (List.pairwise_cons.mp h).2]
  | case3 => rfl

theorem ofList_of_sorted {entries : List TermEntry} (h : Sorted entries) :
    ofList entries = ⟨entries.toArray⟩ := by
  have hle : entries.Pairwise fun a b => (decide (a.1 ≤ b.1)) = true :=
    h.imp fun {a b} hlt => decide_eq_true (List.le_of_lt hlt)
  rw [ofList, List.mergeSort_of_pairwise hle, keepLast_of_sorted h]

theorem keepLast_sublist (entries : List TermEntry) : (keepLast entries).Sublist entries := by
  fun_induction keepLast entries with
  | case1 a b rest heq ih => exact ih.cons a
  | case2 a b rest hne ih => exact ih.cons_cons a
  | case3 => exact .refl _

theorem lt_of_ordered {a b : TermEntry} {rest : List TermEntry}
    (h : (a :: b :: rest).Pairwise fun a b => a.1 ≤ b.1) (hne : a.1 ≠ b.1) :
    ∀ e ∈ b :: rest, a.1 < e.1 := by
  obtain ⟨hfirst, hrest⟩ := List.pairwise_cons.mp h
  have hab : a.1 < b.1 :=
    (Bytes.lt_or_eq_of_le (hfirst b List.mem_cons_self)).resolve_right hne
  intro e he
  rcases List.mem_cons.mp he with rfl | he
  · exact hab
  · exact Std.lt_of_lt_of_le hab ((List.pairwise_cons.mp hrest).1 e he)

theorem eq_nil_or_singleton {entries : List TermEntry}
    (h : ∀ a b rest, entries = a :: b :: rest → False) : entries = [] ∨ ∃ e, entries = [e] := by
  cases entries with
  | nil => exact .inl rfl
  | cons a rest =>
    cases rest with
    | nil => exact .inr ⟨a, rfl⟩
    | cons b rest => exact (h a b rest rfl).elim

theorem sorted_keepLast {entries : List TermEntry} (h : entries.Pairwise fun a b => a.1 ≤ b.1) :
    Sorted (keepLast entries) := by
  fun_induction keepLast entries with
  | case1 a b rest heq ih => exact ih (List.pairwise_cons.mp h).2
  | case2 a b rest hne ih =>
    exact List.pairwise_cons.mpr
      ⟨fun e he => lt_of_ordered h hne e ((keepLast_sublist _).subset he),
        ih (List.pairwise_cons.mp h).2⟩
  | case3 entries hshort =>
    rcases eq_nil_or_singleton hshort with rfl | ⟨e, rfl⟩
    · exact .nil
    · exact List.pairwise_singleton _ _

theorem ordered_mergeSort (entries : List TermEntry) :
    (entries.mergeSort fun a b => a.1 ≤ b.1).Pairwise fun a b => a.1 ≤ b.1 := by
  have hle : (entries.mergeSort fun a b => a.1 ≤ b.1).Pairwise
      fun a b => decide (a.1 ≤ b.1) = true :=
    List.pairwise_mergeSort (fun a b c => Bytes.le_trans a.1 b.1 c.1)
      (fun a b => Bytes.le_total a.1 b.1) entries
  exact hle.imp of_decide_eq_true

/-- Whatever it is made of, a dictionary has its terms in order and each once. -/
theorem sorted_ofList (entries : List TermEntry) : Sorted (ofList entries).entries.toList :=
  sorted_keepLast (ordered_mergeSort entries)

theorem below_of_sorted {entries : List TermEntry} (h : Sorted entries) (term : Bytes) :
    entries.Pairwise fun a b => decide (b.1 < term) = true → decide (a.1 < term) = true :=
  h.imp fun hlt hb => decide_eq_true (List.lt_trans hlt (of_decide_eq_true hb))

theorem lowerBound_of_sorted {entries : List TermEntry} (h : Sorted entries) (term : Bytes) :
    lowerBound ⟨entries.toArray⟩ term = (entries.takeWhile (·.1 < term)).length := by
  refine partitionPoint_eq (fun i _ => ?_) ?_
  · rw [entryAt?, List.getElem?_toArray]
    exact any_getElem?_eq (below_of_sorted h term) i
  · show _ ≤ entries.toArray.size
    rw [List.size_toArray]
    exact (List.takeWhile_sublist _).length_le

theorem get?_of_sorted {entries : List TermEntry} (h : Sorted entries) (term : Bytes) :
    get? ⟨entries.toArray⟩ term = (entries.find? (·.1 == term)).map (·.2) := by
  rw [get?, lowerBound_of_sorted h, entryAt?, List.getElem?_toArray]
  induction entries with
  | nil => rfl
  | cons e entries ih =>
    obtain ⟨hfirst, hrest⟩ := List.pairwise_cons.mp h
    rw [List.takeWhile_cons, List.find?_cons]
    by_cases hlt : e.1 < term
    · have hne : (e.1 == term) = false := by
        apply beq_eq_false_iff_ne.mpr
        intro heq
        exact List.lt_irrefl term (heq ▸ hlt)
      rw [if_pos (decide_eq_true hlt), List.length_cons, List.getElem?_cons_succ, hne]
      exact ih hrest
    · rw [if_neg (by simpa using hlt), List.length_nil, List.getElem?_cons_zero]
      by_cases heq : e.1 = term
      · simp [heq]
      · have hnone : entries.find? (·.1 == term) = none := by
          refine List.find?_eq_none.mpr fun e' he' hterm => ?_
          have hlt' := hfirst e' he'
          rw [beq_iff_eq.mp hterm] at hlt'
          exact hlt hlt'
        rw [beq_eq_false_iff_ne.mpr heq]
        simp [heq, hnone]

theorem find?_of_mem {entries : List TermEntry} (h : Sorted entries) {e : TermEntry}
    (he : e ∈ entries) : entries.find? (·.1 == e.1) = some e := by
  induction entries with
  | nil => cases he
  | cons first entries ih =>
    obtain ⟨hfirst, hrest⟩ := List.pairwise_cons.mp h
    rw [List.find?_cons]
    rcases List.mem_cons.mp he with rfl | he
    · rw [beq_self_eq_true]
    · have hne : (first.1 == e.1) = false :=
        beq_eq_false_iff_ne.mpr fun heq => List.lt_irrefl e.1 (heq ▸ hfirst e he)
      rw [hne]
      exact ih hrest he

theorem lowerBound_eq {dictionary : Dictionary} (h : Sorted dictionary.entries.toList)
    (term : Bytes) :
    dictionary.lowerBound term =
      (dictionary.entries.toList.takeWhile (·.1 < term)).length := by
  have hbound := lowerBound_of_sorted h term
  rwa [Array.toArray_toList] at hbound

theorem get?_eq_find? {dictionary : Dictionary} (h : Sorted dictionary.entries.toList)
    (term : Bytes) :
    dictionary.get? term = (dictionary.entries.toList.find? (·.1 == term)).map (·.2) := by
  have hget := get?_of_sorted h term
  rwa [Array.toArray_toList] at hget

end Dictionary

end Concordance
