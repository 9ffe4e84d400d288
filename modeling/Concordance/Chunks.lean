/-!
# Chunks and cut points

`chunks` cuts a list into pieces of one size. `partitionPoint` halves a range of positions to find
where a predicate stops holding.
-/

namespace Concordance

/-- Pieces of `size` elements, the last one possibly shorter; a size of zero counts as one. -/
def chunks (size : Nat) : List α → List (List α)
  | [] => []
  | x :: xs => (x :: xs.take (size - 1)) :: chunks size (xs.drop (size - 1))
termination_by xs => xs.length
decreasing_by simp only [List.length_drop, List.length_cons]; omega

/-- The halving step on `size` positions from `base`: the position it ends on. -/
def halve (p : Nat → Bool) (base size : Nat) : Nat :=
  if size ≤ 1 then base
  else
    let half := size / 2
    halve p (if p (base + half) then base + half else base) (size - half)
termination_by size

/-- How many of the first `size` positions satisfy `p`, when they come before those that do not. -/
def partitionPoint (size : Nat) (p : Nat → Bool) : Nat :=
  if size = 0 then 0
  else
    let last := halve p 0 size
    if p last then last + 1 else last

end Concordance
