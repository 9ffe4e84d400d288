import Concordance.Chunks

/-!
# Chunks and cut points

`flatten_chunks` says that chunks lose nothing; `partitionPoint_eq` says that halving finds where a
predicate stops holding.
-/

namespace Concordance

variable {α β : Type}

/-! ### Chunks -/

theorem chunks_cons (size : Nat) (x : α) (xs : List α) :
    chunks size (x :: xs) = (x :: xs.take (size - 1)) :: chunks size (xs.drop (size - 1)) := by
  rw [chunks]

theorem flatten_chunks (size : Nat) (xs : List α) : (chunks size xs).flatten = xs := by
  fun_induction chunks size xs with
  | case1 => rfl
  | case2 x xs ih => rw [List.flatten_cons, ih, List.cons_append, List.take_append_drop]

theorem ne_nil_of_mem_chunks {size : Nat} {xs c : List α} (h : c ∈ chunks size xs) : c ≠ [] := by
  fun_induction chunks size xs with
  | case1 => simp at h
  | case2 x xs ih =>
    rcases List.mem_cons.mp h with rfl | h
    · exact List.cons_ne_nil _ _
    · exact ih h

theorem length_chunks_le (size : Nat) (xs : List α) : (chunks size xs).length ≤ xs.length := by
  fun_induction chunks size xs with
  | case1 => exact Nat.le_refl _
  | case2 x xs ih =>
    rw [List.length_drop] at ih
    rw [List.length_cons, List.length_cons]
    omega

theorem length_chunks_congr (size : Nat) {xs : List α} {ys : List β} (h : xs.length = ys.length) :
    (chunks size xs).length = (chunks size ys).length := by
  fun_induction chunks size xs generalizing ys with
  | case1 =>
    obtain rfl : ys = [] := List.eq_nil_of_length_eq_zero h.symm
    rw [chunks]
    rfl
  | case2 x xs ih =>
    obtain ⟨y, ys, rfl⟩ := List.exists_cons_of_length_eq_add_one h.symm
    have hrest : xs.length = ys.length := Nat.succ.inj h
    rw [chunks_cons, List.length_cons, List.length_cons, ih]
    rw [List.length_drop, List.length_drop, hrest]

/-- The chunks are the pieces that start at the multiples of the size. -/
theorem getElem?_chunks {size : Nat} (hsize : 0 < size) (xs : List α) (i : Nat) :
    (chunks size xs)[i]? =
      if i * size < xs.length then some ((xs.drop (i * size)).take size) else none := by
  obtain ⟨k, rfl⟩ := Nat.exists_eq_add_one.mpr hsize
  fun_induction chunks (k + 1) xs generalizing i with
  | case1 => simp
  | case2 x xs ih =>
    cases i with
    | zero => simp
    | succ i =>
      have hlength : i * (k + 1) < (xs.drop k).length ↔ (i + 1) * (k + 1) < (x :: xs).length := by
        rw [List.length_drop, List.length_cons, Nat.succ_mul]
        omega
      have hdrop : (xs.drop k).drop (i * (k + 1)) = (x :: xs).drop ((i + 1) * (k + 1)) := by
        rw [List.drop_drop, Nat.succ_mul, ← Nat.add_assoc, List.drop_succ_cons, Nat.add_comm]
      rw [Nat.add_sub_cancel] at ih
      rw [List.getElem?_cons_succ, Nat.add_sub_cancel, ih i]
      simp only [hlength, hdrop]

theorem lt_length_chunks_iff {size : Nat} (hsize : 0 < size) (xs : List α) (i : Nat) :
    i < (chunks size xs).length ↔ i * size < xs.length := by
  have hchunk := getElem?_chunks hsize xs i
  by_cases hi : i * size < xs.length
  · rw [if_pos hi] at hchunk
    exact iff_of_true (List.getElem?_eq_some_iff.mp hchunk).1 hi
  · rw [if_neg hi] at hchunk
    exact iff_of_false (Nat.not_lt.mpr (List.getElem?_eq_none_iff.mp hchunk)) hi

/-- The first chunk is the longest. -/
theorem forall_length_chunks_lt {size bound : Nat} (hsize : 0 < size) (hbound : 0 < bound)
    (xs : List α) :
    (∀ c ∈ chunks size xs, c.length < bound) ↔ min size xs.length < bound := by
  constructor
  · intro h
    cases xs with
    | nil => simpa using hbound
    | cons x xs =>
      have hpos : 0 * size < (x :: xs).length := by simp
      have hfirst : (chunks size (x :: xs))[0]? = some ((x :: xs).take size) := by
        rw [getElem?_chunks hsize, if_pos hpos, Nat.zero_mul, List.drop_zero]
      have hlength := h _ (List.mem_of_getElem? hfirst)
      rwa [List.length_take] at hlength
  · intro h c hc
    obtain ⟨i, hi⟩ := List.getElem?_of_mem hc
    rw [getElem?_chunks hsize] at hi
    split at hi
    · obtain rfl := Option.some.inj hi
      rw [List.length_take, List.length_drop]
      omega
    · cases hi

/-! ### Cut points -/

/-- Halving keeps below the cut when it starts there and ends one position before it. -/
theorem halve_eq {p : Nat → Bool} {cut base size : Nat}
    (hp : ∀ i < base + size, p i = decide (i < cut)) (hb : base < cut) (hc : cut ≤ base + size) :
    halve p base size + 1 = cut := by
  fun_induction halve p base size with
  | case1 base size hs => omega
  | case2 base size hs half ih =>
    have hmid : p (base + half) = decide (base + half < cut) := hp _ (by omega)
    simp only [hmid, dite_eq_ite] at ih ⊢
    by_cases hlt : base + half < cut
    · rw [decide_eq_true hlt, if_pos rfl] at ih ⊢
      exact ih (fun i hi => hp i (by omega)) hlt (by omega)
    · rw [decide_eq_false hlt, if_neg Bool.false_ne_true] at ih ⊢
      exact ih (fun i hi => hp i (by omega)) hb (by omega)

theorem halve_of_none {p : Nat → Bool} {base size : Nat} (hs : 0 < size)
    (hp : ∀ i < base + size, p i = false) : halve p base size = base := by
  fun_induction halve p base size with
  | case1 => rfl
  | case2 base size hs half ih =>
    have hmid : p (base + half) = false := hp _ (by omega)
    simp only [hmid, dite_eq_ite] at ih ⊢
    rw [if_neg Bool.false_ne_true] at ih ⊢
    exact ih (by omega) (fun i hi => hp i (by omega))

/-- Where the predicate holds of exactly the positions before a cut, the cut is found. -/
theorem partitionPoint_eq {p : Nat → Bool} {cut size : Nat}
    (hp : ∀ i < size, p i = decide (i < cut)) (hc : cut ≤ size) : partitionPoint size p = cut := by
  unfold partitionPoint
  by_cases hs : size = 0
  · rw [if_pos hs]
    omega
  · rw [if_neg hs]
    by_cases h0 : cut = 0
    · subst h0
      have hn : halve p 0 size = 0 := by
        apply halve_of_none (by omega)
        intro i hi
        simpa using hp i (by omega)
      have h0 : p 0 = false := by simpa using hp 0 (by omega)
      simp [hn, h0]
    · have hh : halve p 0 size + 1 = cut :=
        halve_eq (fun i hi => hp i (by omega)) (by omega) (by omega)
      have hlast : p (halve p 0 size) = true := by
        rw [hp _ (by omega)]
        exact decide_eq_true (by omega)
      simp only [hlast, if_true, hh]

/-- Where a predicate goes from holding to not holding, it holds before the first element that it
does not hold of. -/
theorem any_getElem?_eq {p : α → Bool} {xs : List α} (h : xs.Pairwise fun a b => p b → p a)
    (i : Nat) : xs[i]?.any p = decide (i < (xs.takeWhile p).length) := by
  induction xs generalizing i with
  | nil => rfl
  | cons x xs ih =>
    obtain ⟨hx, hxs⟩ := List.pairwise_cons.mp h
    by_cases hp : p x = true
    · rw [List.takeWhile_cons_of_pos hp]
      cases i with
      | zero => simp [hp]
      | succ i => simpa using ih hxs i
    · rw [List.takeWhile_cons_of_neg hp]
      cases i with
      | zero => simp [hp]
      | succ i =>
        have hnone : ∀ y ∈ xs[i]?, ¬p y = true := fun y hy hpy =>
          hp (hx y (List.mem_of_getElem? hy) hpy)
        simpa [Option.any_eq_false] using hnone

theorem drop_takeWhile (q : α → Bool) (xs : List α) :
    xs.drop (xs.takeWhile q).length = xs.dropWhile q := by
  have hsplit := List.takeWhile_append_dropWhile (p := q) (l := xs)
  calc xs.drop (xs.takeWhile q).length
    _ = (xs.takeWhile q ++ xs.dropWhile q).drop (xs.takeWhile q).length := by rw [hsplit]
    _ = xs.dropWhile q := List.drop_left

/-- Where a predicate goes from holding to not holding, it holds of the elements before that. -/
theorem takeWhile_eq_filter {p : α → Bool} {xs : List α} (h : xs.Pairwise fun a b => p b → p a) :
    xs.takeWhile p = xs.filter p := by
  induction xs with
  | nil => rfl
  | cons x xs ih =>
    obtain ⟨hx, hxs⟩ := List.pairwise_cons.mp h
    by_cases hp : p x = true
    · rw [List.takeWhile_cons_of_pos hp, List.filter_cons_of_pos hp, ih hxs]
    · rw [List.takeWhile_cons_of_neg hp, List.filter_cons_of_neg hp]
      exact (List.filter_eq_nil_iff.mpr fun y hy hpy => hp (hx y hy hpy)).symm

theorem dropWhile_eq_filter {p : α → Bool} {xs : List α} (h : xs.Pairwise fun a b => p b → p a) :
    xs.dropWhile p = xs.filter fun x => !p x := by
  induction xs with
  | nil => rfl
  | cons x xs ih =>
    obtain ⟨hx, hxs⟩ := List.pairwise_cons.mp h
    by_cases hp : p x = true
    · rw [List.dropWhile_cons_of_pos hp, List.filter_cons_of_neg (by simp [hp]), ih hxs]
    · have hrest : ∀ y ∈ x :: xs, (!p y) = true := fun y hy => by
        rw [Bool.not_eq_true', Bool.eq_false_iff]
        rcases List.mem_cons.mp hy with rfl | hy
        · exact hp
        · exact fun hpy => hp (hx y hy hpy)
      rw [List.dropWhile_cons_of_neg hp, List.filter_eq_self.mpr hrest]

end Concordance
