import Concordance.Index.Writer
import Concordance.Proofs.Ascending

/-!
# Grouping contributions

The terms of a field with their ids, as a writer groups them, are in order, each with the ascending
ids of the documents that contribute it: `IndexWriter.grouped_fieldTerms`.
-/

namespace Concordance

/-! ### The order of terms -/

namespace Bytes

theorem le_trans (a b c : Bytes) (hab : decide (a ≤ b) = true) (hbc : decide (b ≤ c) = true) :
    decide (a ≤ c) = true :=
  decide_eq_true (List.le_trans (of_decide_eq_true hab) (of_decide_eq_true hbc))

theorem le_total (a b : Bytes) : (decide (a ≤ b) || decide (b ≤ a)) = true := by
  simpa using List.le_total a b

theorem lt_or_eq_of_le {a b : Bytes} (h : a ≤ b) : a < b ∨ a = b := List.le_iff_lt_or_eq.mp h

theorem nodup_of_sorted {terms : List Bytes} (h : terms.Pairwise (· < ·)) : terms.Nodup :=
  h.imp fun {a b} (hlt : a < b) (heq : a = b) => List.lt_irrefl b (heq ▸ hlt)

end Bytes

namespace IndexWriter

def Precedes (a b : Bytes × DocId) : Prop := a.1 < b.1 ∨ (a.1 = b.1 ∧ a.2 ≤ b.2)

/-- Sorting pairs by their terms keeps the order of the ids of one term. -/
theorem precedes_mergeSort {own : List (Bytes × DocId)} (h : own.Pairwise fun a b => a.2 ≤ b.2) :
    (own.mergeSort fun a b => a.1 ≤ b.1).Pairwise Precedes := by
  let le : Bytes × DocId → Bytes × DocId → Bool := fun a b => a.1 ≤ b.1
  have htrans : ∀ a b c, le a b = true → le b c = true → le a c = true := fun a b c =>
    Bytes.le_trans a.1 b.1 c.1
  have htotal : ∀ a b, (le a b || le b a) = true := fun a b => Bytes.le_total a.1 b.1
  rw [← List.mergeSort_zipIdx]
  refine List.pairwise_map.mpr ((List.pairwise_mergeSort (List.zipIdxLE_trans htrans)
    (List.zipIdxLE_total htotal) own.zipIdx).imp_of_mem fun {a b} ha hb hab => ?_)
  obtain ⟨x, i⟩ := a
  obtain ⟨y, j⟩ := b
  have hx : own[i]? = some x := List.mk_mem_zipIdx_iff_getElem?.mp (List.mem_mergeSort.mp ha)
  have hy : own[j]? = some y := List.mk_mem_zipIdx_iff_getElem?.mp (List.mem_mergeSort.mp hb)
  simp only [List.zipIdxLE] at hab
  by_cases hle : x.1 ≤ y.1
  · rw [if_pos (decide_eq_true hle)] at hab
    rcases Bytes.lt_or_eq_of_le hle with hlt | heq
    · exact Or.inl hlt
    · rw [if_pos (decide_eq_true (heq ▸ List.le_refl _)), decide_eq_true_iff] at hab
      refine Or.inr ⟨heq, ?_⟩
      rcases Nat.lt_or_eq_of_le hab with hlt | rfl
      · obtain ⟨hi, rfl⟩ := List.getElem?_eq_some_iff.mp hx
        obtain ⟨hj, rfl⟩ := List.getElem?_eq_some_iff.mp hy
        exact List.pairwise_iff_getElem.mp h i j hi hj hlt
      · rw [hx] at hy
        rw [Option.some.inj hy]
        exact UInt64.le_refl _
  · rw [if_neg (by simpa [le] using hle)] at hab
    simp at hab

/-- Groups in the order of their terms, each with at least one id, that hold the pairs of a list. -/
structure Groups (pairs : List (Bytes × DocId)) (groups : List (Bytes × List DocId)) : Prop where
  sorted : groups.Pairwise fun a b => a.1 < b.1
  ascending : ∀ g ∈ groups, Ascending g.2
  nonempty : ∀ g ∈ groups, g.2 ≠ []
  mem_iff (term : Bytes) (d : DocId) : (term, d) ∈ pairs ↔ ∃ docs, (term, docs) ∈ groups ∧ d ∈ docs

/-- A pair whose term comes before those of all groups starts a group. -/
theorem Groups.start {pairs : List (Bytes × DocId)} {groups : List (Bytes × List DocId)}
    (h : Groups pairs groups) {term : Bytes} (hlt : ∀ g ∈ groups, term < g.1) (d : DocId) :
    Groups ((term, d) :: pairs) ((term, [d]) :: groups) := by
  refine ⟨.cons hlt h.sorted, ?_, ?_, fun t e => ?_⟩
  · intro g hm
    rcases List.mem_cons.mp hm with rfl | hm
    · exact List.pairwise_singleton _ _
    · exact h.ascending g hm
  · intro g hm
    rcases List.mem_cons.mp hm with rfl | hm
    · exact List.cons_ne_nil _ _
    · exact h.nonempty g hm
  · rw [List.mem_cons, h.mem_iff, Prod.mk.injEq]
    constructor
    · rintro (⟨rfl, rfl⟩ | ⟨docs, hin, he⟩)
      · exact ⟨[e], List.mem_cons_self, List.mem_singleton_self e⟩
      · exact ⟨docs, List.mem_cons_of_mem _ hin, he⟩
    · rintro ⟨docs, hin, he⟩
      rcases List.mem_cons.mp hin with heq | hin
      · obtain ⟨rfl, rfl⟩ := Prod.mk.inj heq
        exact Or.inl ⟨rfl, List.mem_singleton.mp he⟩
      · exact Or.inr ⟨docs, hin, he⟩

/-- The ids of a group with one more that comes before them, unless it is the first of them. -/
theorem ascending_join {docs : List DocId} {d : DocId} (ha : Ascending docs)
    (hle : ∀ e ∈ docs, d ≤ e) : Ascending (if docs.head? = some d then docs else d :: docs) := by
  split
  · exact ha
  · rename_i hd
    refine .cons (fun e he => ?_) ha
    apply UInt64.lt_of_le_of_ne (hle e he)
    intro heq
    subst heq
    obtain ⟨first, more, rfl⟩ := List.exists_cons_of_ne_nil (List.ne_nil_of_mem he)
    rcases List.mem_cons.mp he with rfl | hlater
    · exact hd rfl
    · have hlt := (List.pairwise_cons.mp ha).1 d hlater
      exact UInt64.not_lt.mpr (hle first List.mem_cons_self) hlt

theorem mem_join {docs : List DocId} {d e : DocId} :
    e ∈ (if docs.head? = some d then docs else d :: docs) ↔ e = d ∨ e ∈ docs := by
  split
  · rename_i hd
    have hin : d ∈ docs := List.mem_of_mem_head? hd
    exact ⟨Or.inr, fun he => he.elim (fun heq => heq ▸ hin) id⟩
  · exact List.mem_cons

/-- A pair with the term of the first group joins it. -/
theorem Groups.join {pairs : List (Bytes × DocId)} {groups : List (Bytes × List DocId)}
    {term : Bytes} {docs : List DocId} (h : Groups pairs ((term, docs) :: groups)) {d : DocId}
    (hle : ∀ e ∈ docs, d ≤ e) :
    Groups ((term, d) :: pairs)
      ((term, if docs.head? = some d then docs else d :: docs) :: groups) := by
  obtain ⟨hfirst, hsorted⟩ := List.pairwise_cons.mp h.sorted
  refine ⟨.cons hfirst hsorted, ?_, ?_, fun t e => ?_⟩
  · intro g hm
    rcases List.mem_cons.mp hm with rfl | hm
    · exact ascending_join (h.ascending _ List.mem_cons_self) hle
    · exact h.ascending g (List.mem_cons_of_mem _ hm)
  · intro g hm
    rcases List.mem_cons.mp hm with rfl | hm
    · exact List.ne_nil_of_mem (mem_join.mpr (Or.inl rfl))
    · exact h.nonempty g (List.mem_cons_of_mem _ hm)
  · simp only [List.mem_cons, h.mem_iff, Prod.mk.injEq]
    constructor
    · rintro (⟨rfl, rfl⟩ | ⟨docs', ⟨rfl, rfl⟩ | hin, he⟩)
      · exact ⟨_, Or.inl ⟨rfl, rfl⟩, mem_join.mpr (Or.inl rfl)⟩
      · exact ⟨_, Or.inl ⟨rfl, rfl⟩, mem_join.mpr (Or.inr he)⟩
      · exact ⟨docs', Or.inr hin, he⟩
    · rintro ⟨docs', ⟨rfl, rfl⟩ | hin, he⟩
      · rcases mem_join.mp he with rfl | he
        · exact Or.inl ⟨rfl, rfl⟩
        · exact Or.inr ⟨docs, Or.inl ⟨rfl, rfl⟩, he⟩
      · exact Or.inr ⟨docs', Or.inr hin, he⟩

theorem groups_groupTerms {pairs : List (Bytes × DocId)} (h : pairs.Pairwise Precedes) :
    Groups pairs (groupTerms pairs) := by
  induction pairs with
  | nil => exact ⟨.nil, by simp [groupTerms], by simp [groupTerms], by simp [groupTerms]⟩
  | cons pair pairs ih =>
    obtain ⟨term, d⟩ := pair
    obtain ⟨hfirst, hrest⟩ := List.pairwise_cons.mp h
    have hg := ih hrest
    rw [groupTerms]
    cases hgroups : groupTerms pairs with
    | nil => exact (hgroups ▸ hg).start (by simp) d
    | cons group groups =>
      obtain ⟨next, docs⟩ := group
      rw [hgroups] at hg
      have hdocs : ∀ e ∈ docs, Precedes (term, d) (next, e) := fun e he =>
        hfirst _ ((hg.mem_iff next e).mpr ⟨docs, List.mem_cons_self, he⟩)
      dsimp only
      by_cases hterm : term = next
      · subst hterm
        rw [if_pos rfl]
        exact hg.join fun e he => (hdocs e he).elim (fun hlt => (List.lt_irrefl _ hlt).elim) (·.2)
      · rw [if_neg hterm]
        have hlt : term < next := by
          obtain ⟨e, he⟩ := List.exists_mem_of_ne_nil docs (hg.nonempty _ List.mem_cons_self)
          exact (hdocs e he).elim id fun heq => (hterm heq.1).elim
        refine hg.start (fun g hm => ?_) d
        rcases List.mem_cons.mp hm with rfl | hm
        · exact hlt
        · exact List.lt_trans hlt ((List.pairwise_cons.mp hg.sorted).1 g hm)

end IndexWriter

end Concordance
