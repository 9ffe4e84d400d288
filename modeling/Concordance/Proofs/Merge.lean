import Mathlib.Data.List.Dedup
import Concordance.Proofs.Union

/-!
# Merging sources

A union of sources that may serve their ids in batches of any length, with repetitions, serves the
ids of all of them in strictly ascending order, as many at a time as it is asked for:
`Union.fills_merge`.
-/

namespace Concordance

/-! ### Batches one after the other -/

/-- Consecutive pieces of a list, of the given lengths as far as the list reaches. -/
def slices (ids : List DocId) : List Nat → List (List DocId)
  | [] => []
  | n :: sizes => ids.take n :: slices (ids.drop n) sizes

namespace IdSource

variable {S : Type} [IdSource S]

/-- What a source answers when it is asked for batches of the given sizes, one after the other. -/
def fills (s : S) : List Nat → List (Except Failure (List DocId))
  | [] => []
  | n :: sizes => (fill s n).1 :: fills (fill s n).2 sizes

theorem Exact.fills {R : S → List DocId → Prop} (h : Exact R) (sizes : List Nat) {s : S}
    {rest : List DocId} (hr : R s rest) : fills s sizes = (slices rest sizes).map .ok := by
  induction sizes generalizing s rest with
  | nil => rfl
  | cons n sizes ih =>
    obtain ⟨s', hf, hr'⟩ := h hr n
    rw [IdSource.fills, slices, List.map_cons, hf, ih hr']

/-- Asked for ids again and again the source serves a list of them, at least one at a time. -/
def Supplies (s : S) (ids : List DocId) : Prop :=
  ∃ R : S → List DocId → Prop, Advances R ∧ R s ids

theorem supplies_advances : Advances (Supplies (S := S)) := by
  rintro s rest ⟨R, hR, hr⟩ n hn
  obtain ⟨k, s', hf, hr', hk⟩ := hR hr n hn
  exact ⟨k, s', hf, ⟨R, hR, hr'⟩, hk⟩

end IdSource

/-! ### The merge of sorted lists -/

/-- The ids of some lists in ascending order, each once. -/
def mergedIds (lists : List (List DocId)) : List DocId :=
  lists.flatten.dedup.mergeSort fun a b => a ≤ b

theorem mem_mergedIds {lists : List (List DocId)} {d : DocId} :
    d ∈ mergedIds lists ↔ ∃ ids ∈ lists, d ∈ ids := by
  rw [mergedIds, List.mem_mergeSort, List.mem_dedup, List.mem_flatten]

theorem ascending_mergedIds (lists : List (List DocId)) : Ascending (mergedIds lists) := by
  have hle : (mergedIds lists).Pairwise fun a b => decide (a ≤ b) = true := by
    apply List.pairwise_mergeSort
    · intro a b c hab hbc
      exact decide_eq_true (UInt64.le_trans (of_decide_eq_true hab) (of_decide_eq_true hbc))
    · intro a b
      rw [Bool.or_eq_true, decide_eq_true_iff, decide_eq_true_iff]
      exact UInt64.le_total a b
  have hnodup : (mergedIds lists).Nodup :=
    (List.mergeSort_perm _ _).nodup_iff.mpr (List.nodup_dedup _)
  apply (hle.and hnodup).imp
  intro a b h
  exact UInt64.lt_of_le_of_ne (of_decide_eq_true h.1) h.2

namespace Union

variable {M : Type} [IdSource M]

/-- The lists of the children of a union, by position; positions behind the children have none. -/
def listAt (lists : List (List DocId)) (i : Nat) : List DocId := lists[i]?.getD []

omit [IdSource M] in
theorem merges_listAt (lists : List (List DocId)) :
    Merges (listAt lists) (mergedIds lists) where
  ascending := ascending_mergedIds lists
  mem_iff d := by
    rw [mem_mergedIds]
    constructor
    · rintro ⟨ids, hids, hd⟩
      obtain ⟨i, hi⟩ := List.mem_iff_getElem?.mp hids
      exact ⟨i, by rw [listAt, hi]; exact hd⟩
    · rintro ⟨i, hd⟩
      unfold listAt at hd
      cases hi : lists[i]? with
      | none => simp [hi] at hd
      | some ids => exact ⟨ids, List.mem_of_getElem? hi, by simpa [hi] using hd⟩

/-- A union whose children supply sorted lists delivers their merge. -/
theorem delivers_merged {ms : List M} {lists : List (List DocId)}
    (h : List.Forall₂ IdSource.Supplies ms lists) (hsorted : ∀ ids ∈ lists, ids.Pairwise (· ≤ ·))
    (batch : Nat) :
    Delivers (fun _ => IdSource.Supplies) ms.length (ofList ms batch) (mergedIds lists) := by
  refine delivers_ofList batch (fun i m hm => ?_) (fun i => ?_) (fun i hi => ?_)
    (merges_listAt lists)
  · obtain ⟨hi, hget⟩ := List.getElem?_eq_some_iff.mp hm
    have hi' : i < lists.length := h.length_eq ▸ hi
    have hsupplies := h.get hi hi'
    rw [List.get_eq_getElem, List.get_eq_getElem, hget] at hsupplies
    rw [listAt, List.getElem?_eq_getElem hi']
    exact hsupplies
  · unfold listAt
    cases hi : lists[i]? with
    | none => exact List.Pairwise.nil
    | some ids => exact hsorted ids (List.mem_of_getElem? hi)
  · rw [listAt, List.getElem?_eq_none (h.length_eq ▸ hi)]
    rfl

/-- Whatever its children serve at a time and however far they are read ahead, a union serves the
ids that some child has, each once and in order, and nothing when there is none left. -/
theorem fills_merge {ms : List M} {lists : List (List DocId)}
    (h : List.Forall₂ IdSource.Supplies ms lists)
    (hsorted : ∀ ids ∈ lists, ids.Pairwise (· ≤ ·)) :
    ∃ ids, Ascending ids ∧ (∀ d, d ∈ ids ↔ ∃ list ∈ lists, d ∈ list) ∧
      ∀ batch sizes, IdSource.fills (ofList ms batch) sizes = (slices ids sizes).map .ok := by
  refine ⟨mergedIds lists, ascending_mergedIds lists, fun d => mem_mergedIds, ?_⟩
  intro batch sizes
  have hexact := exact (fun _ => IdSource.supplies_advances (S := M)) ms.length
  exact hexact.fills sizes (delivers_merged h hsorted batch)

end Union

/-! ### A source that serves little at a time -/

/-- A list of ids of which a batch serves at most one more than `step`. -/
structure Trickle where
  step : Nat
  ids : List DocId
  served : Nat := 0

namespace Trickle

def rest (t : Trickle) : List DocId := t.ids.drop t.served

instance : IdSource Trickle where
  fill t n := (.ok (t.rest.take (min (t.step + 1) n)),
    { t with served := t.served + min (t.step + 1) n })
  reset t := { t with served := 0 }
  left t := t.rest.length
  left_fill {t t' n ids} h := by
    obtain ⟨hids, rfl⟩ := Prod.mk.inj h
    simp only [← Except.ok.inj hids, rest, List.length_take, List.length_drop]
    omega

theorem supplies (t : Trickle) : IdSource.Supplies t t.rest := by
  refine ⟨fun t ids => t.rest = ids, ?_, rfl⟩
  rintro t _ rfl n hn
  exact ⟨min (t.step + 1) n, _, rfl, List.drop_drop.symm, fun _ => by omega⟩

end Trickle

/-- Two sources with repetitions and an id in common, one of which serves one id at a time. -/
theorem Union.fills_merge_trickles :
    List.Forall₂ IdSource.Supplies [(⟨0, [1, 1, 4], 0⟩ : Trickle), ⟨1, [0, 4, 4, 7], 0⟩]
        [[1, 1, 4], [0, 4, 4, 7]] ∧
      (∀ ids ∈ [[1, 1, 4], [0, 4, 4, 7]], ids.Pairwise fun a b : DocId => a ≤ b) ∧
      IdSource.fills (Union.ofList [(⟨0, [1, 1, 4], 0⟩ : Trickle), ⟨1, [0, 4, 4, 7], 0⟩] 0)
          [1, 0, 2, 5, 3] =
        [.ok [0], .ok [], .ok [1, 4], .ok [7], .ok []] := by
  have hsupplies : List.Forall₂ IdSource.Supplies
      [(⟨0, [1, 1, 4], 0⟩ : Trickle), ⟨1, [0, 4, 4, 7], 0⟩] [[1, 1, 4], [0, 4, 4, 7]] :=
    .cons (Trickle.supplies _) (.cons (Trickle.supplies _) .nil)
  have hsorted : ∀ ids ∈ [[1, 1, 4], [0, 4, 4, 7]], ids.Pairwise fun a b : DocId => a ≤ b := by
    decide
  obtain ⟨ids, hascending, hmem, hfills⟩ := Union.fills_merge hsupplies hsorted
  have hids : ids = [0, 1, 4, 7] := by
    refine hascending.eq_of_mem_iff (by decide) fun d => ?_
    rw [hmem]
    simp
    tauto
  refine ⟨hsupplies, hsorted, ?_⟩
  rw [hfills, hids]
  rfl

end Concordance
