import Concordance.Heap
import Concordance.Match.Union

/-!
# Heaps

Joining heaps keeps their elements (`perm_merge`) and their order (`ordered_merge`), so that the
root of a heap is an element that no other comes before.
-/

namespace Concordance

namespace Heap

variable {α : Type} {before : α → α → Bool}

def toList : Heap α → List α
  | empty => []
  | node first left right => first :: (left.toList ++ right.toList)

/-- No element comes before the root of its tree. -/
def Ordered (before : α → α → Bool) : Heap α → Prop
  | empty => True
  | node first left right =>
      (∀ b ∈ left.toList ++ right.toList, before b first = false) ∧
        left.Ordered before ∧ right.Ordered before

open scoped List in
theorem perm_merge (h k : Heap α) : (merge before h k).toList ~ h.toList ++ k.toList := by
  fun_induction merge before h k with
  | case1 k => exact List.Perm.refl _
  | case2 h => rw [toList, List.append_nil]
  | case3 a left right b left' right' _ ih =>
    simp only [toList] at ih ⊢
    calc b :: ((merge before (node a left right) right').toList ++ left'.toList)
      _ ~ b :: (a :: (left.toList ++ right.toList) ++ right'.toList ++ left'.toList) :=
          (ih.append_right _).cons b
      _ ~ b :: (a :: (left.toList ++ right.toList) ++ (left'.toList ++ right'.toList)) := by
          rw [List.append_assoc]
          exact ((List.perm_append_comm).append_left _).cons b
      _ ~ a :: (left.toList ++ right.toList) ++ b :: (left'.toList ++ right'.toList) :=
          List.perm_middle.symm
  | case4 a left right b left' right' _ ih =>
    simp only [toList] at ih ⊢
    calc a :: ((merge before right (node b left' right')).toList ++ left.toList)
      _ ~ a :: (right.toList ++ b :: (left'.toList ++ right'.toList) ++ left.toList) :=
          (ih.append_right _).cons a
      _ ~ a :: (left.toList ++ (right.toList ++ b :: (left'.toList ++ right'.toList))) :=
          List.perm_append_comm.cons a
      _ = a :: (left.toList ++ right.toList) ++ b :: (left'.toList ++ right'.toList) := by
          rw [← List.append_assoc, List.cons_append]

theorem perm_insert (a : α) (h : Heap α) : (insert before a h).toList.Perm (a :: h.toList) :=
  perm_merge _ _

/-- What comes before neither of two elements in a row comes not before the first. -/
theorem ordered_merge (asymm : ∀ a b, before a b = true → before b a = false)
    (trans : ∀ a b c, before b a = false → before c b = false → before c a = false)
    {h k : Heap α} (hh : h.Ordered before) (hk : k.Ordered before) :
    (merge before h k).Ordered before := by
  fun_induction merge before h k with
  | case1 k => exact hk
  | case2 h => exact hh
  | case3 a left right b left' right' hba ih =>
    obtain ⟨hb, hl', hr'⟩ := hk
    refine ⟨fun c hc => ?_, ih hh hr', hl'⟩
    have hab := asymm b a hba
    rcases List.mem_append.mp hc with hc | hc
    · rcases List.mem_append.mp ((perm_merge _ _).mem_iff.mp hc) with hc | hc
      · rcases List.mem_cons.mp hc with rfl | hc
        · exact hab
        · exact trans b a c hab (hh.1 c hc)
      · exact hb c (List.mem_append_right _ hc)
    · exact hb c (List.mem_append_left _ hc)
  | case4 a left right b left' right' hba ih =>
    obtain ⟨ha, hl, hr⟩ := hh
    refine ⟨fun c hc => ?_, ih hr hk, hl⟩
    have hba := Bool.eq_false_iff.mpr hba
    rcases List.mem_append.mp hc with hc | hc
    · rcases List.mem_append.mp ((perm_merge _ _).mem_iff.mp hc) with hc | hc
      · exact ha c (List.mem_append_right _ hc)
      · rcases List.mem_cons.mp hc with rfl | hc
        · exact hba
        · exact trans a b c hba (hk.1 c hc)
    · exact ha c (List.mem_append_left _ hc)

theorem ordered_insert (asymm : ∀ a b, before a b = true → before b a = false)
    (trans : ∀ a b c, before b a = false → before c b = false → before c a = false)
    (a : α) {h : Heap α} (hh : h.Ordered before) : (insert before a h).Ordered before :=
  ordered_merge asymm trans ⟨by simp [toList], trivial, trivial⟩ hh

end Heap

/-! ### The order of queue entries -/

namespace QueueEntry

theorem before_eq_true {a b : QueueEntry} :
    before a b = true ↔ a.1 < b.1 ∨ (a.1 = b.1 ∧ a.2 < b.2) := by
  simp [before]

theorem before_eq_false {a b : QueueEntry} :
    before a b = false ↔ b.1 ≤ a.1 ∧ (a.1 = b.1 → b.2 ≤ a.2) := by
  rw [← Bool.not_eq_true, before_eq_true, not_or, UInt64.not_lt, not_and, Nat.not_lt]

theorem before_asymm (a b : QueueEntry) (h : before a b = true) : before b a = false := by
  rw [before_eq_false]
  rcases before_eq_true.mp h with hlt | ⟨heq, hlt⟩
  · exact ⟨UInt64.le_of_lt hlt, fun heq => (UInt64.ne_of_lt hlt heq.symm).elim⟩
  · exact ⟨UInt64.le_of_eq heq, fun _ => Nat.le_of_lt hlt⟩

theorem before_trans (a b c : QueueEntry) (hba : before b a = false) (hcb : before c b = false) :
    before c a = false := by
  obtain ⟨h1, h2⟩ := before_eq_false.mp hba
  obtain ⟨h3, h4⟩ := before_eq_false.mp hcb
  refine before_eq_false.mpr ⟨UInt64.le_trans h1 h3, fun heq => ?_⟩
  have hbc : b.1 = c.1 := UInt64.le_antisymm h3 (heq ▸ h1)
  exact Nat.le_trans (h2 (hbc.trans heq)) (h4 hbc.symm)

end QueueEntry

theorem ordered_enqueue (entry : QueueEntry) {queue : Heap QueueEntry}
    (h : queue.Ordered QueueEntry.before) : (enqueue entry queue).Ordered QueueEntry.before :=
  Heap.ordered_insert QueueEntry.before_asymm QueueEntry.before_trans entry h

theorem perm_enqueue (entry : QueueEntry) (queue : Heap QueueEntry) :
    (enqueue entry queue).toList.Perm (entry :: queue.toList) :=
  Heap.perm_insert _ _

theorem Heap.Ordered.first_le {first : QueueEntry} {left right : Heap QueueEntry}
    (h : (Heap.node first left right).Ordered QueueEntry.before) :
    ∀ entry ∈ (Heap.node first left right).toList, first.1 ≤ entry.1 := by
  intro entry hm
  rcases List.mem_cons.mp hm with rfl | hm
  · exact UInt64.le_refl _
  · exact (QueueEntry.before_eq_false.mp (h.1 entry hm)).1

end Concordance
