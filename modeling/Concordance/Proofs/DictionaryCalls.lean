import Mathlib
import Concordance.Index.Snapshot
import Concordance.Proofs.Dictionary

/-!
# Dictionaries under calls

A dictionary made of entries in any order, with any repeats, has each term once, with what was given
for it last, and a cursor over it goes through its terms as calls tell it to:
`Dictionary.ofList_answers`.
-/

namespace Concordance

/-! ### The last entry for a term -/

namespace Dictionary

variable {entries : List TermEntry}

/-- Sorting by terms keeps the order of the entries for one term. -/
theorem filter_mergeSort (entries : List TermEntry) (term : Bytes) :
    (entries.mergeSort fun a b => a.1 ≤ b.1).filter (·.1 == term) =
      entries.filter (·.1 == term) := by
  have hterm : ∀ e ∈ entries.filter (·.1 == term), e.1 = term := fun e he =>
    beq_iff_eq.mp (List.mem_filter.mp he).2
  have hequal : (entries.filter (·.1 == term)).Pairwise fun a b => decide (a.1 ≤ b.1) = true :=
    List.pairwise_of_forall_mem_list fun a ha b hb =>
      decide_eq_true (by rw [hterm a ha, hterm b hb]; exact List.le_refl _)
  have hsorted := (List.sublist_mergeSort (fun a b c => Bytes.le_trans a.1 b.1 c.1)
    (fun a b => Bytes.le_total a.1 b.1) hequal List.filter_sublist).filter (·.1 == term)
  rw [List.filter_eq_self.mpr fun e he => beq_iff_eq.mpr (hterm e he)] at hsorted
  exact (hsorted.eq_of_length ((List.mergeSort_perm entries _).filter _).length_eq.symm).symm

theorem find?_keepLast (h : entries.Pairwise fun a b => a.1 ≤ b.1) (term : Bytes) :
    (keepLast entries).find? (·.1 == term) = (entries.filter (·.1 == term)).getLast? := by
  fun_induction keepLast entries with
  | case1 a b rest heq ih =>
    rw [ih (List.pairwise_cons.mp h).2, List.filter_cons (x := a)]
    by_cases hb : (b.1 == term) = true
    · rw [if_pos (heq ▸ hb), List.filter_cons, if_pos hb, List.getLast?_cons_cons]
    · rw [if_neg (heq ▸ hb)]
  | case2 a b rest hne ih =>
    rw [List.find?_cons, List.filter_cons, ih (List.pairwise_cons.mp h).2]
    cases ha : a.1 == term with
    | true =>
      have hnone : (b :: rest).filter (·.1 == term) = [] := by
        refine List.filter_eq_nil_iff.mpr fun e he heq => ?_
        have hlt := lt_of_ordered h hne e he
        rw [beq_iff_eq.mp ha, beq_iff_eq.mp heq] at hlt
        exact List.lt_irrefl term hlt
      rw [hnone]
      rfl
    | false => rfl
  | case3 entries hshort =>
    rcases eq_nil_or_singleton hshort with rfl | ⟨e, rfl⟩
    · rfl
    · rw [List.find?_singleton, List.filter_singleton]
      cases e.1 == term <;> rfl

theorem find?_ofList (entries : List TermEntry) (term : Bytes) :
    (ofList entries).entries.toList.find? (·.1 == term) =
      (entries.filter (·.1 == term)).getLast? := by
  rw [ofList, List.toList_toArray, find?_keepLast (ordered_mergeSort entries), filter_mergeSort]

theorem get?_ofList (entries : List TermEntry) (term : Bytes) :
    (ofList entries).get? term = ((entries.filter (·.1 == term)).getLast?).map (·.2) := by
  rw [get?_eq_find? (sorted_ofList entries), find?_ofList]

/-! ### Positions -/

def terms (dictionary : Dictionary) : List Bytes := dictionary.entries.toList.map (·.1)

theorem mem_map_iff_find? (entries : List TermEntry) (term : Bytes) :
    term ∈ entries.map (·.1) ↔ (entries.find? (·.1 == term)).isSome := by
  rw [List.find?_isSome, List.mem_map]
  simp only [beq_iff_eq]

theorem mem_terms_ofList (entries : List TermEntry) (term : Bytes) :
    term ∈ (ofList entries).terms ↔ term ∈ entries.map (·.1) := by
  calc term ∈ (ofList entries).terms
    _ ↔ ((ofList entries).entries.toList.find? (·.1 == term)).isSome := mem_map_iff_find? _ _
    _ ↔ (entries.filter (·.1 == term)).getLast?.isSome := by rw [find?_ofList]
    _ ↔ entries.filter (·.1 == term) ≠ [] := List.getLast?_isSome
    _ ↔ term ∈ entries.map (·.1) := by
      rw [mem_map_iff_find?, List.find?_isSome, Ne, List.filter_eq_nil_iff]
      simp

variable {dictionary : Dictionary}

theorem entryAt?_terms (dictionary : Dictionary) (i : Nat) :
    (dictionary.entryAt? i).map (·.1) = dictionary.terms[i]? := by
  rw [terms, List.getElem?_map, Array.getElem?_toList]
  rfl

/-- The info at a position is what is found for the term at the position. -/
theorem entryAt?_info (h : Sorted dictionary.entries.toList) (i : Nat) :
    (dictionary.entryAt? i).map (·.2) = dictionary.terms[i]?.bind dictionary.get? := by
  rw [← entryAt?_terms, entryAt?, ← Array.getElem?_toList]
  cases he : dictionary.entries.toList[i]? with
  | none => rfl
  | some e =>
    have hget := get?_eq_find? h e.1
    rw [find?_of_mem h (List.mem_of_getElem? he)] at hget
    exact hget.symm

theorem find?_eq_idxOf? (entries : List TermEntry) (term : Bytes) :
    entries.find? (·.1 == term) = ((entries.map (·.1)).idxOf? term).bind (entries[·]?) := by
  induction entries with
  | nil => rfl
  | cons e entries ih =>
    rw [List.find?_cons, List.map_cons, List.idxOf?_cons]
    cases e.1 == term with
    | true => rfl
    | false =>
      rw [ih, if_neg Bool.false_ne_true, Option.bind_map]
      rfl

/-- What is found for a term is the info at its position. -/
theorem get?_eq_idxOf? (h : Sorted dictionary.entries.toList) (term : Bytes) :
    dictionary.get? term =
      (dictionary.terms.idxOf? term).bind fun i => (dictionary.entryAt? i).map (·.2) := by
  rw [get?_eq_find? h, find?_eq_idxOf?, Option.map_bind, terms]
  congr 1
  funext i
  rw [Function.comp_apply, Array.getElem?_toList, entryAt?]

theorem lowerBound_eq_countP (h : Sorted dictionary.entries.toList) (term : Bytes) :
    dictionary.lowerBound term = dictionary.terms.countP (· < term) := by
  rw [lowerBound_eq h, takeWhile_eq_filter (below_of_sorted h term), terms, List.countP_map,
    List.countP_eq_length_filter]
  rfl

theorem drop_lowerBound (h : Sorted dictionary.entries.toList) (term : Bytes) :
    dictionary.entries.toList.drop (dictionary.lowerBound term) =
      dictionary.entries.toList.filter (term ≤ ·.1) := by
  rw [lowerBound_eq h, drop_takeWhile, dropWhile_eq_filter (below_of_sorted h term)]
  refine List.filter_congr fun e _ => ?_
  rw [← decide_not]
  exact decide_eq_decide.mpr List.not_lt

end Dictionary

/-! ### Cursors -/

inductive TermMove where
  | reset
  | seek (term : Bytes)
  | next

inductive MoveAnswer where
  | moved
  | found (entry : Option TermEntry)

namespace TermCursor

theorem all_of_none {c c' : TermCursor} (h : c.next = (.ok none, c')) : c.all.1 = .ok [] := by
  rw [all]
  split <;> simp_all

theorem all_of_some {c c' : TermCursor} {entry : TermEntry} {more : List TermEntry}
    (h : c.next = (.ok (some entry), c')) (hall : c'.all.1 = .ok more) :
    c.all.1 = .ok (entry :: more) := by
  rw [all]
  split
  · simp_all
  · simp_all
  · rename_i hn
    obtain ⟨hentry, rfl⟩ := Prod.mk.inj (h.symm.trans hn)
    obtain rfl := Option.some.inj (Except.ok.inj hentry)
    split <;> simp_all

def move (c : TermCursor) : TermMove → Except Failure MoveAnswer × TermCursor
  | .reset => (.ok .moved, c.reset)
  | .seek term => (.ok .moved, c.seek term)
  | .next => (c.next.1.map .found, c.next.2)

def run (c : TermCursor) : List TermMove → List (Except Failure MoveAnswer) × TermCursor
  | [] => ([], c)
  | first :: moves =>
      let later := run (c.move first).2 moves
      ((c.move first).1 :: later.1, later.2)

end TermCursor

namespace Dictionary

variable (dictionary : Dictionary)

/-- The answer to a move when `rest` is still to come, and what is to come afterwards. -/
def answer (rest : List TermEntry) : TermMove → MoveAnswer × List TermEntry
  | .reset => (.moved, dictionary.entries.toList)
  | .seek term => (.moved, dictionary.entries.toList.filter (term ≤ ·.1))
  | .next => (.found rest.head?, rest.tail)

def run (rest : List TermEntry) : List TermMove → List MoveAnswer × List TermEntry
  | [] => ([], rest)
  | first :: moves =>
      let later := run (dictionary.answer rest first).2 moves
      ((dictionary.answer rest first).1 :: later.1, later.2)

end Dictionary

namespace FieldIndex

/-- A cursor over the terms of a field that has `rest` of its entries still to come. -/
structure Stands (field : FieldIndex) (c : TermCursor) (rest : List TermEntry) : Prop where
  terms : c.terms = field.terms
  rest : rest = field.dictionary.entries.toList.drop c.position

variable {field : FieldIndex} {c : TermCursor} {rest : List TermEntry}

theorem next_stands (h : field.Stands c rest) :
    ∃ c', c.next = (.ok rest.head?, c') ∧ field.Stands c' rest.tail := by
  obtain ⟨terms, position⟩ := c
  obtain ⟨rfl, rfl⟩ := h
  dsimp only
  by_cases hlt : position < field.terms.size
  · have hdrop := List.drop_eq_getElem_cons (l := field.dictionary.entries.toList) hlt
    refine ⟨⟨field.terms, position + 1⟩, ?_, rfl, ?_⟩
    · rw [hdrop]
      exact dif_pos hlt
    · rw [hdrop]
      rfl
  · have hnil : field.dictionary.entries.toList.drop position = [] :=
      List.drop_eq_nil_of_le (Nat.not_lt.mp hlt)
    refine ⟨⟨field.terms, position⟩, ?_, rfl, ?_⟩
    · rw [hnil]
      exact dif_neg hlt
    · rw [hnil]
      rfl

theorem all_stands (h : field.Stands c rest) : c.all.1 = .ok rest := by
  induction rest generalizing c with
  | nil =>
    obtain ⟨c', hnext, -⟩ := next_stands h
    exact TermCursor.all_of_none hnext
  | cons e rest ih =>
    obtain ⟨c', hnext, h'⟩ := next_stands h
    exact TermCursor.all_of_some hnext (ih h')

theorem move_stands (hsorted : Dictionary.Sorted field.dictionary.entries.toList)
    (h : field.Stands c rest) (first : TermMove) :
    (c.move first).1 = .ok (field.dictionary.answer rest first).1 ∧
      field.Stands (c.move first).2 (field.dictionary.answer rest first).2 := by
  cases first with
  | reset => exact ⟨rfl, h.terms, rfl⟩
  | seek term =>
    refine ⟨rfl, h.terms, ?_⟩
    dsimp only [TermCursor.move, TermCursor.seek, Dictionary.answer]
    rw [h.terms]
    exact (Dictionary.drop_lowerBound hsorted term).symm
  | next =>
    obtain ⟨c', hnext, h'⟩ := next_stands h
    dsimp only [TermCursor.move]
    rw [hnext]
    exact ⟨rfl, h'⟩

theorem run_stands (hsorted : Dictionary.Sorted field.dictionary.entries.toList)
    (h : field.Stands c rest) (moves : List TermMove) :
    (c.run moves).1 = (field.dictionary.run rest moves).1.map .ok ∧
      field.Stands (c.run moves).2 (field.dictionary.run rest moves).2 := by
  induction moves generalizing c rest with
  | nil => exact ⟨rfl, h⟩
  | cons first moves ih =>
    obtain ⟨hanswer, hstate⟩ := move_stands hsorted h first
    obtain ⟨hanswers, hend⟩ := ih hstate
    exact ⟨congrArg₂ List.cons hanswer hanswers, hend⟩

end FieldIndex

/-- A dictionary has each term that was given once and in order. It finds for a term what was given
last, under the position of the term, and counts the terms below it. A cursor, after any moves, has
those terms to come that the moves leave. -/
theorem Dictionary.ofList_answers (entries : List TermEntry) (store : PostingStore) :
    let dictionary := ofList entries
    let all := dictionary.entries.toList
    dictionary.terms.Pairwise (· < ·) ∧
      (∀ term, term ∈ dictionary.terms ↔ term ∈ entries.map (·.1)) ∧
      (∀ term, dictionary.get? term =
        ((entries.filter (·.1 == term)).getLast?).map (·.2)) ∧
      (∀ term, dictionary.get? term =
        (dictionary.terms.idxOf? term).bind fun i => (dictionary.entryAt? i).map (·.2)) ∧
      (∀ i, (dictionary.entryAt? i).map (·.1) = dictionary.terms[i]? ∧
        (dictionary.entryAt? i).map (·.2) = dictionary.terms[i]?.bind dictionary.get?) ∧
      (∀ term, dictionary.lowerBound term = dictionary.terms.countP (· < term)) ∧
      ∀ moves : List TermMove,
        let c : TermCursor := { terms := FieldIndex.terms { dictionary, store } }
        (c.run moves).1 = (dictionary.run all moves).1.map .ok ∧
          (c.run moves).2.all.1 = .ok (dictionary.run all moves).2 ∧
          (dictionary.run all moves).2 = all.drop (c.run moves).2.position := by
  intro dictionary all
  have hsorted : Sorted all := sorted_ofList entries
  refine ⟨List.pairwise_map.mpr hsorted, mem_terms_ofList entries, get?_ofList entries,
    get?_eq_idxOf? hsorted, fun i => ⟨entryAt?_terms dictionary i, entryAt?_info hsorted i⟩,
    lowerBound_eq_countP hsorted, fun moves => ?_⟩
  intro c
  have hstart : FieldIndex.Stands { dictionary, store } c all := ⟨rfl, rfl⟩
  obtain ⟨hanswers, hend⟩ := FieldIndex.run_stands hsorted hstart moves
  exact ⟨hanswers, FieldIndex.all_stands hend, hend.rest⟩

example :
    let dictionary := Dictionary.ofList [([2], ⟨1, 0, 0, 0, 0⟩), ([], ⟨2, 0, 0, 0, 0⟩),
      ([2], ⟨3, 0, 0, 0, 0⟩)]
    dictionary.terms = [[], [2]] ∧ dictionary.get? [2] = some ⟨3, 0, 0, 0, 0⟩ ∧
      dictionary.get? [1] = none ∧ dictionary.lowerBound [1] = 1 := by
  cbv

end Concordance
