import Concordance.Proofs.Boolean
import Concordance.Proofs.Merge

/-!
# Filtering by membership

An intersection and an exclusion take ids from one child and test them on the others. Whatever its
children serve at a time and whatever they cost, the intersection serves the ids that all of them
have and the exclusion those of its base that the other child does not have, as many at a time as
asked for: `Matcher.delivers_filtered`. Of the children only the contract of serving and testing is
used; what they score plays no part.
-/

namespace Concordance

namespace IdSource

variable {S : Type} [IdSource S]

/-- A source after batches of the given sizes. -/
def after (s : S) : List Nat → S
  | [] => s
  | n :: sizes => after (fill s n).2 sizes

theorem Exact.after {R : S → List DocId → Prop} (h : Exact R) (sizes : List Nat) {s : S}
    {rest : List DocId} (hr : R s rest) : ∃ rest', R (after s sizes) rest' := by
  induction sizes generalizing s rest with
  | nil => exact ⟨rest, hr⟩
  | cons n sizes ih =>
    obtain ⟨s', hf, hr'⟩ := h hr n
    rw [IdSource.after, hf]
    exact ih hr'

end IdSource

/-! ### The contract of a child -/

namespace Matcher

variable {M : Type} [Matcher M] {ids rest : List DocId} {m : M}

/-- The match serves `rest`, some ids at a time, and tells at any time whether an id is among
`ids`. -/
def Offers (ids : List DocId) (m : M) (rest : List DocId) : Prop :=
  ∃ R : M → List DocId → Prop, IdSource.Feeds R ∧
    (∀ ⦃m rest⦄, R m rest → ∀ d, evaluate m d = .ok (decide (d ∈ ids))) ∧ R m rest

theorem offers_feeds : IdSource.Feeds (Offers (M := M) ids) := by
  rintro m rest ⟨R, hR, he, hr⟩ n hn
  obtain ⟨k, m', hf, hr', hk⟩ := hR hr n hn
  exact ⟨k, m', hf, ⟨R, hR, he, hr'⟩, hk⟩

theorem Offers.evaluate (h : Offers ids m rest) (d : DocId) :
    Matcher.evaluate m d = .ok (decide (d ∈ ids)) := by
  obtain ⟨R, -, he, hr⟩ := h
  exact he hr d

/-- A match that has served nothing yet of an ascending list. -/
structure Lists (ids : List DocId) (m : M) : Prop where
  ascending : Ascending ids
  offers : Offers ids m ids

/-- In batches of any sizes the match serves a list, in each as many of the next ids as asked for,
and it tells at any time whether an id is in the list. -/
def Delivers (ids : List DocId) (m : M) : Prop :=
  ∀ sizes, IdSource.fills m sizes = (slices ids sizes).map .ok ∧
    ∀ d, Matcher.evaluate (IdSource.after m sizes) d = .ok (decide (d ∈ ids))

theorem delivers_of_exact {R : M → List DocId → Prop} (hR : IdSource.Exact R)
    (he : ∀ {m rest}, R m rest → ∀ d, Matcher.evaluate m d = .ok (decide (d ∈ ids)))
    (h : R m ids) : Delivers ids m := by
  intro sizes
  obtain ⟨rest, hr⟩ := hR.after sizes h
  exact ⟨hR.fills sizes h, he hr⟩

end Matcher

open Matcher (Offers Lists Delivers)

/-! ### Intersection -/

/-- What is related to a list with a marked place splits at that place. -/
theorem forall₂_split {R : α → β → Prop} {xs : List α} {front back : List β} {y : β}
    (h : List.Forall₂ R xs (front ++ y :: back)) :
    ∃ before x after, xs = before ++ x :: after ∧ List.Forall₂ R before front ∧ R x y ∧
      List.Forall₂ R after back := by
  have hfront := List.forall₂_take_append xs front (y :: back) h
  have hback := List.forall₂_drop_append xs front (y :: back) h
  obtain ⟨x, after, hx, hafter, hdrop⟩ := List.forall₂_cons_right_iff.mp hback
  refine ⟨_, x, after, ?_, hfront, hx, hafter⟩
  rw [← hdrop, List.take_append_drop]

namespace AndMatch

variable {M : Type} [Matcher M] {before after : List (List DocId)} {driven : List DocId}

/-- Whichever child drives, the children are those the intersection was made of. -/
theorem children_ofCons (m : M) (ms : List M) (scoreBatch : Nat) :
    (ofCons m ms scoreBatch).children = m :: ms := by
  show (splitCheapest m ms).1 ++ (splitCheapest m ms).2.1 :: (splitCheapest m ms).2.2 = m :: ms
  induction ms generalizing m with
  | nil => rfl
  | cons next ms ih =>
    simp only [splitCheapest]
    split
    · rfl
    · exact congrArg (m :: ·) (ih next)

/-- An intersection of which `rest` is still to be served: the driver has the ids, and the other
children, wherever they are in their lists, only tell whether they have one. -/
structure Narrows (before : List (List DocId)) (driven : List DocId) (after : List (List DocId))
    (m : AndMatch M) (rest : List DocId) : Prop where
  front : List.Forall₂ (fun ids child => ∃ left, Offers ids child left) before m.before
  driver : ∃ all, Offers driven m.driver all ∧
    rest = all.filter fun d => decide (∀ ids ∈ before ++ after, d ∈ ids)
  back : List.Forall₂ (fun ids child => ∃ left, Offers ids child left) after m.after

theorem narrows_exact : IdSource.Exact (Narrows (M := M) before driven after) := by
  rintro m rest ⟨hfront, ⟨all, hd, rfl⟩, hback⟩ n
  have htest : ∀ d, Matcher.evaluateAll d (m.before ++ m.after) =
      .ok (decide (∀ ids ∈ before ++ after, d ∈ ids)) := by
    intro d
    apply Matcher.evaluateAll_lists
    apply (List.rel_append hfront hback).imp
    rintro ids child ⟨left, hc⟩
    exact hc.evaluate d
  obtain ⟨driver', all', hf, hd', hdrop⟩ := fill_kept Matcher.offers_feeds htest n hd
  exact ⟨_, hf, hfront, ⟨all', hd', hdrop.symm⟩, hback⟩

theorem Narrows.evaluate {m : AndMatch M} {rest : List DocId}
    (h : Narrows before driven after m rest) (d : DocId) :
    Matcher.evaluate m d = .ok (decide (∀ ids ∈ before ++ driven :: after, d ∈ ids)) := by
  apply Matcher.evaluateAll_lists
  obtain ⟨all, hd, -⟩ := h.driver
  apply (List.rel_append h.front (.cons ⟨all, hd⟩ h.back)).imp
  rintro ids child ⟨left, hc⟩
  exact hc.evaluate d

/-- The ids of the driver that the other children have are those that all children have. -/
theorem mem_filter_driven {d : DocId} :
    d ∈ driven.filter (fun d => decide (∀ ids ∈ before ++ after, d ∈ ids)) ↔
      ∀ ids ∈ before ++ driven :: after, d ∈ ids := by
  rw [List.mem_filter, decide_eq_true_iff, List.forall_mem_append, List.forall_mem_append,
    List.forall_mem_cons]
  tauto

end AndMatch

/-! ### Exclusion -/

namespace AndNotMatch

variable {M : Type} [Matcher M] {base exclusion : List DocId}

/-- An exclusion of which `rest` is still to be served. -/
structure Narrows (base exclusion : List DocId) (m : AndNotMatch M) (rest : List DocId) : Prop where
  based : ∃ all, Offers base m.base all ∧ rest = all.filter fun d => !decide (d ∈ exclusion)
  excluded : ∃ left, Offers exclusion m.exclusion left

theorem Narrows.admits {m : AndNotMatch M} {rest : List DocId} (h : Narrows base exclusion m rest)
    (d : DocId) : admits m.exclusion d = .ok !decide (d ∈ exclusion) := by
  obtain ⟨left, hx⟩ := h.excluded
  rw [AndNotMatch.admits, hx.evaluate]
  rfl

theorem narrows_exact : IdSource.Exact (Narrows (M := M) base exclusion) := by
  intro m rest h n
  obtain ⟨all, hb, rfl⟩ := h.based
  obtain ⟨base', all', hf, hb', hdrop⟩ := fill_kept Matcher.offers_feeds h.admits n hb
  exact ⟨_, hf, ⟨all', hb', hdrop.symm⟩, h.excluded⟩

theorem Narrows.evaluate {m : AndNotMatch M} {rest : List DocId}
    (h : Narrows base exclusion m rest) (d : DocId) :
    Matcher.evaluate m d = .ok (decide (d ∈ base ∧ d ∉ exclusion)) := by
  obtain ⟨all, hb, -⟩ := h.based
  show AndNotMatch.evaluate m d = _
  rw [AndNotMatch.evaluate, hb.evaluate, h.admits]
  by_cases hd : d ∈ base <;> simp [hd]

end AndNotMatch

/-! ### Main statement -/

namespace Matcher

variable {M : Type} [Matcher M]

/-- Whatever the children serve at a time and whatever they cost, an intersection serves what all of
them have, and an exclusion what its base has and the other child does not have. -/
theorem delivers_filtered :
    (∀ {first : List DocId} {others : List (List DocId)} {m : M} {ms : List M},
      List.Forall₂ Lists (first :: others) (m :: ms) →
        ∃ ids, Ascending ids ∧ (∀ d, d ∈ ids ↔ ∀ list ∈ first :: others, d ∈ list) ∧
          ∀ scoreBatch, Delivers ids (AndMatch.ofCons m ms scoreBatch)) ∧
      ∀ {base exclusion : List DocId} {m excluded : M}, Lists base m → Lists exclusion excluded →
        ∃ ids, Ascending ids ∧ (∀ d, d ∈ ids ↔ d ∈ base ∧ d ∉ exclusion) ∧
          Delivers ids (⟨m, excluded⟩ : AndNotMatch M) := by
  constructor
  · intro first others m ms h
    rw [← AndMatch.children_ofCons m ms 0, AndMatch.children] at h
    obtain ⟨before, driven, after, hsplit, hfront, hdriver, hback⟩ := forall₂_split h
    have hstart : ∀ scoreBatch, AndMatch.Narrows before driven after
        (AndMatch.ofCons m ms scoreBatch)
        (driven.filter fun d => decide (∀ ids ∈ before ++ after, d ∈ ids)) := fun _ =>
      ⟨hfront.imp fun _ _ hl => ⟨_, hl.offers⟩, ⟨driven, hdriver.offers, rfl⟩,
        hback.imp fun _ _ hl => ⟨_, hl.offers⟩⟩
    rw [hsplit]
    refine ⟨_, hdriver.ascending.filter _, fun d => AndMatch.mem_filter_driven,
      fun scoreBatch => ?_⟩
    refine delivers_of_exact AndMatch.narrows_exact (fun hn d => ?_) (hstart scoreBatch)
    rw [hn.evaluate]
    exact congrArg Except.ok (decide_eq_decide.mpr AndMatch.mem_filter_driven.symm)
  · intro base exclusion m excluded hbase hexclusion
    have hmem : ∀ d, d ∈ base.filter (fun d => !decide (d ∈ exclusion)) ↔
        d ∈ base ∧ d ∉ exclusion := fun d => by simp
    refine ⟨_, hbase.ascending.filter _, hmem, ?_⟩
    refine delivers_of_exact AndNotMatch.narrows_exact (fun hn d => ?_)
      ⟨⟨base, hbase.offers, rfl⟩, exclusion, hexclusion.offers⟩
    rw [hn.evaluate]
    exact congrArg Except.ok (decide_eq_decide.mpr (hmem d).symm)

end Matcher

/-! ### Children that serve little at a time -/

namespace Trickle

/-- A match of a list, which costs as much as the list is long. -/
instance : Matcher Trickle where
  evaluate t d := .ok (decide (d ∈ t.ids))
  score t ids buffer := (Matcher.neutralScores ids buffer, t)
  left_score _ _ _ := rfl
  isScored _ := false
  cost t := UInt64.ofNat t.ids.length
  inspect _ := .ofOperation "Trickle"

theorem lists {ids : List DocId} (ha : Ascending ids) (step : Nat) :
    Lists ids (⟨step, ids, 0⟩ : Trickle) := by
  refine ⟨ha, fun t rest => t.ids = ids ∧ t.rest = rest, ?_, ?_, rfl, rfl⟩
  · rintro t _ ⟨hids, rfl⟩ n hn
    exact ⟨min (t.step + 1) n, _, rfl, ⟨hids, List.drop_drop.symm⟩, Nat.min_le_right _ _,
      fun _ => by omega⟩
  · rintro t rest ⟨rfl, -⟩ d
    rfl

end Trickle

/-- An intersection driven by its second child, and an exclusion that drops four ids in a row. -/
theorem Matcher.delivers_filtered_trickles :
    let long : Trickle := ⟨0, [1, 3, 5, 7, 9], 0⟩
    let short : Trickle := ⟨1, [3, 4, 9], 0⟩
    List.Forall₂ Lists [[1, 3, 5, 7, 9], [3, 4, 9]] [long, short] ∧
      IdSource.fills (AndMatch.ofCons long [short] 4) [1, 0, 5, 2] =
        [.ok [3], .ok [], .ok [9], .ok []] ∧
      Matcher.evaluate (IdSource.after (AndMatch.ofCons long [short] 4) [1, 0]) 9 = .ok true ∧
      IdSource.fills (⟨⟨0, [0, 3, 4, 6, 9, 10], 0⟩, ⟨0, [3, 4, 6, 9], 0⟩⟩ : AndNotMatch Trickle)
        [1, 3, 1] = [.ok [0], .ok [10], .ok []] := by
  intro long short
  have hchildren : List.Forall₂ Lists [[1, 3, 5, 7, 9], [3, 4, 9]] [long, short] :=
    .cons (Trickle.lists (by decide) 0) (.cons (Trickle.lists (by decide) 1) .nil)
  have hbase : Lists [0, 3, 4, 6, 9, 10] (⟨0, [0, 3, 4, 6, 9, 10], 0⟩ : Trickle) :=
    Trickle.lists (by decide) 0
  have hexclusion : Lists [3, 4, 6, 9] (⟨0, [3, 4, 6, 9], 0⟩ : Trickle) :=
    Trickle.lists (by decide) 0
  obtain ⟨hand, handNot⟩ := Matcher.delivers_filtered (M := Trickle)
  obtain ⟨common, hcommon, hmem, hdelivers⟩ := hand hchildren
  obtain ⟨kept, hkept, hmem', hdelivers'⟩ := handNot hbase hexclusion
  obtain rfl : common = [3, 9] := by
    refine hcommon.eq_of_mem_iff (by decide) fun d => ?_
    rw [hmem]
    simp
    grind
  obtain rfl : kept = [0, 10] := by
    refine hkept.eq_of_mem_iff (by decide) fun d => ?_
    rw [hmem']
    simp
    grind
  exact ⟨hchildren, (hdelivers 4 _).1, (hdelivers 4 [1, 0]).2 9, (hdelivers' _).1⟩

end Concordance
