import Concordance.Posting
import Mathlib.Data.List.Sort

/-!
# Ascending lists of ids

An ascending list is determined by its ids: `Ascending.eq_of_mem_iff`.
-/

namespace Concordance

abbrev Ascending (ids : List DocId) : Prop := ids.Pairwise (· < ·)

namespace Ascending

variable {ids more : List DocId}

theorem eq_of_mem_iff (ha : Ascending ids) (hb : Ascending more) (h : ∀ d, d ∈ ids ↔ d ∈ more) :
    ids = more :=
  List.Pairwise.eq_of_mem_iff ha hb h

theorem filter (h : Ascending ids) (p : DocId → Bool) : Ascending (ids.filter p) :=
  List.Pairwise.filter p h

end Ascending

theorem Posting.ascending_iff (ids : List DocId) : Posting.ascending ids = true ↔ Ascending ids := by
  fun_induction Posting.ascending ids with
  | case1 a b rest ih =>
    rw [Bool.and_eq_true, ih, decide_eq_true_iff]
    constructor
    · rintro ⟨hab, h⟩
      refine List.pairwise_cons.mpr ⟨fun c hc => ?_, h⟩
      rcases List.mem_cons.mp hc with rfl | hc
      · exact hab
      · exact UInt64.lt_trans hab ((List.pairwise_cons.mp h).1 c hc)
    · intro h
      obtain ⟨hab, h⟩ := List.pairwise_cons.mp h
      exact ⟨hab b List.mem_cons_self, h⟩
  | case2 ids h =>
    match ids, h with
    | [], _ => simp
    | [a], _ => simp
    | a :: b :: rest, h => exact (h a b rest rfl).elim

end Concordance
