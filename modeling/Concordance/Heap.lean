/-!
# Heaps

A priority queue as a binary tree in which no element comes before the root of its tree. Two trees
are joined along their right edges, and each step swaps the subtrees, which keeps those edges short.
-/

namespace Concordance

inductive Heap (α : Type) where
  | empty
  | node (first : α) (left right : Heap α)
  deriving Inhabited

namespace Heap

variable {α : Type}

def size : Heap α → Nat
  | empty => 0
  | node _ left right => left.size + right.size + 1

/-- The elements of both heaps; `before` tells which of two elements comes first. -/
def merge (before : α → α → Bool) : Heap α → Heap α → Heap α
  | empty, k => k
  | h, empty => h
  | node a left right, node b left' right' =>
      if before b a then node b (merge before (node a left right) right') left'
      else node a (merge before right (node b left' right')) left
termination_by h k => h.size + k.size
decreasing_by all_goals simp only [size]; omega

def insert (before : α → α → Bool) (a : α) (h : Heap α) : Heap α :=
  merge before (node a empty empty) h

theorem size_merge (before : α → α → Bool) (h k : Heap α) :
    (merge before h k).size = h.size + k.size := by
  fun_induction merge before h k with
  | case1 => simp only [size, Nat.zero_add]
  | case2 => simp only [size, Nat.add_zero]
  | case3 a left right b left' right' _ ih =>
    simp only [size] at ih ⊢
    omega
  | case4 a left right b left' right' _ ih =>
    simp only [size] at ih ⊢
    omega

theorem size_insert (before : α → α → Bool) (a : α) (h : Heap α) :
    (insert before a h).size = h.size + 1 := by
  simp only [insert, size_merge, size]
  omega

end Heap

end Concordance
