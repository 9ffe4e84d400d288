import Concordance.Match.Ordering

/-!
# The best entries

Dropping all but the best entries early loses none of the final ones: whatever was dropped comes
behind `k` of the entries still kept, and that stays so however the drops fall (`Keeps`). In the end
the kept entries are the first of all entries found (`Keeps.sort_eq`).
-/

namespace Concordance

variable {before : SortEntry → SortEntry → Bool} {k : Nat} {found kept : List SortEntry}

/-- A total preorder. -/
structure Preorders (before : SortEntry → SortEntry → Bool) : Prop where
  trans (a b c : SortEntry) : before a b → before b c → before a c
  total (a b : SortEntry) : before a b || before b a

/-- Of the entries found some are kept, and each of the others comes behind `k` kept ones. -/
def Keeps (before : SortEntry → SortEntry → Bool) (k : Nat) (found kept : List SortEntry) : Prop :=
  ∃ dropped, (kept ++ dropped).Perm found ∧ ∀ d ∈ dropped, k ≤ kept.countP (before · d)

namespace Keeps

theorem nil : Keeps before k [] [] := by
  refine ⟨[], List.Perm.refl _, ?_⟩
  intro d hd
  exact (List.not_mem_nil hd).elim

theorem push (h : Keeps before k found kept) (e : SortEntry) :
    Keeps before k (found ++ [e]) (kept ++ [e]) := by
  obtain ⟨dropped, hperm, hbehind⟩ := h
  refine ⟨dropped, ?_, ?_⟩
  · rw [List.append_assoc]
    exact (List.perm_append_comm.append_left kept).trans
      ((List.append_assoc kept dropped [e]).symm ▸ hperm.append_right [e])
  · intro d hd
    rw [List.countP_append]
    exact Nat.le_add_right_of_le (hbehind d hd)

/-- One selection: the rest of the entries join those that were dropped before. -/
theorem select (selection : Selection) (hb : Preorders before) (hk : k < kept.length)
    (h : Keeps before k found kept) :
    Keeps before k found ((selection.select before k kept).take k) := by
  obtain ⟨dropped, hperm, hbehind⟩ := h
  have hselected := selection.perm_select before k kept
  have hfirst := selection.before_select hb.trans hb.total k kept
  have hlength := hselected.length_eq
  generalize selection.select before k kept = selected at hselected hfirst hlength
  have hsplit : selected.take k ++ selected.drop k = selected := List.take_append_drop k selected
  have hall : ∀ d, (∀ a ∈ selected.take k, before a d) →
      k ≤ (selected.take k).countP (before · d) := by
    intro d hd
    rw [List.countP_eq_length.mpr hd, List.length_take]
    omega
  refine ⟨selected.drop k ++ dropped, ?_, ?_⟩
  · rw [← List.append_assoc, hsplit]
    exact (hselected.append_right dropped).trans hperm
  · intro d hd
    rcases List.mem_append.mp hd with hd | hd
    · exact hall d fun a ha => hfirst a ha d hd
    · by_cases hahead : ∀ a ∈ selected.take k, before a d
      · exact hall d hahead
      · -- Some selected entry is not ahead of `d`, so none of those behind it is.
        obtain ⟨a, ha, hnot⟩ : ∃ a ∈ selected.take k, ¬ before a d := by
          simpa only [Classical.not_forall, exists_prop] using hahead
        have hnone : (selected.drop k).countP (before · d) = 0 := by
          apply List.countP_eq_zero.mpr
          intro b hbm hbd
          exact hnot (hb.trans a b d (hfirst a ha b hbm) hbd)
        have hcount := hbehind d hd
        rw [← hselected.countP_eq, ← hsplit, List.countP_append, hnone] at hcount
        exact hcount

theorem retainBest (selection : Selection) (hb : Preorders before) {entries : Array SortEntry}
    (h : Keeps before k found entries.toList) :
    Keeps before k found (selection.retainBest before k entries).toList := by
  unfold Selection.retainBest
  split
  · exact h.select selection hb (by rwa [Array.length_toList])
  · exact h

/-- When no more than `k` entries are kept, they are the first `k` of all. -/
theorem sort_eq (hb : Preorders before)
    (hanti : ∀ a ∈ found, ∀ b ∈ found, before a b → before b a → a = b)
    (h : Keeps before k found kept) (hlen : kept.length ≤ k) :
    kept.mergeSort before = (found.mergeSort before).take k := by
  obtain ⟨dropped, hperm, hbehind⟩ := h
  have hcross : ∀ d ∈ dropped, kept.length = k ∧ ∀ a ∈ kept, before a d := by
    intro d hd
    have hcount := hbehind d hd
    have hle := List.countP_le_length (p := (before · d)) (l := kept)
    refine ⟨by omega, ?_⟩
    apply List.countP_eq_length.mp
    omega
  have hsorted : (kept.mergeSort before ++ dropped.mergeSort before).Pairwise
      (fun a b => before a b) := by
    apply List.pairwise_append.mpr
    refine ⟨List.pairwise_mergeSort hb.trans hb.total kept,
      List.pairwise_mergeSort hb.trans hb.total dropped, ?_⟩
    intro a ha d hd
    exact (hcross d (List.mem_mergeSort.mp hd)).2 a (List.mem_mergeSort.mp ha)
  have hall : kept.mergeSort before ++ dropped.mergeSort before = found.mergeSort before := by
    have hfound : (kept.mergeSort before ++ dropped.mergeSort before).Perm found :=
      ((List.mergeSort_perm kept before).append (List.mergeSort_perm dropped before)).trans hperm
    refine List.Perm.eq_of_pairwise ?_ hsorted (List.pairwise_mergeSort hb.trans hb.total found)
      (hfound.trans (List.mergeSort_perm found before).symm)
    intro a b ha hbm
    exact hanti a (hfound.mem_iff.mp ha) b (List.mem_mergeSort.mp hbm)
  rw [← hall]
  cases dropped with
  | nil =>
    rw [List.mergeSort_nil, List.append_nil]
    apply Eq.symm
    apply List.take_of_length_le
    rw [List.length_mergeSort]
    exact hlen
  | cons d dropped =>
    apply Eq.symm
    apply List.take_left'
    rw [List.length_mergeSort]
    exact (hcross d List.mem_cons_self).1

end Keeps

end Concordance
