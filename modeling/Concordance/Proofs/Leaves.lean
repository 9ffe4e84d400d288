import Concordance.Match.Boost
import Concordance.Match.Term
import Concordance.Proofs.Contract
import Concordance.Proofs.Posting

/-!
# Matches without children, and boosts

What the match of no documents, the match of all documents, a term match and a boost stand for. A
term match stands for the ids of the posting list that its cursor reads.
-/

namespace Concordance

open Matcher (Means Answers Serves)

theorem Matcher.neutralScores_eq (ids : List DocId) (buffer : Array Float32) :
    neutralScores ids buffer =
      (checkSlots ids buffer).map fun _ => (ids.map fun _ => neutralScore).toArray := by
  unfold neutralScores checkSlots
  by_cases h : buffer.size = ids.length
  · rw [if_pos h, h, List.map_const', List.toArray_replicate]
  · rw [if_neg h]
    rfl

/-! ### No documents -/

namespace NoMatch

def meaning : Meaning where
  ids := []
  ascending := .nil
  score _ := neutralScore
  scored := false
  cost := 0

theorem serves : Serves meaning ({} : NoMatch) meaning.ids := by
  refine Matcher.serves_of_exact (R := fun _ rest => rest = []) ?_ (fun _ => rfl)
    (fun _ _ h => h) ?_ rfl
  · rintro m _ rfl n
    exact ⟨m, by rw [List.take_nil]; rfl, List.drop_nil⟩
  · rintro m _ rfl
    exact ⟨fun _ => rfl, Matcher.neutralScores_eq, rfl, rfl⟩

end NoMatch

/-! ### All documents -/

namespace AllMatch

theorem take_idsFrom (d : DocId) (m n : Nat) : (idsFrom d m).take n = idsFrom d (min m n) := by
  induction m generalizing d n with
  | zero => rw [Nat.zero_min]; exact List.take_nil
  | succ m ih =>
    cases n with
    | zero => rfl
    | succ n => rw [idsFrom, List.take_succ_cons, ih, Nat.succ_min_succ]; rfl

theorem drop_idsFrom (d : DocId) (m n : Nat) :
    (idsFrom d m).drop n = idsFrom (d + UInt64.ofNat n) (m - n) := by
  induction m generalizing d n with
  | zero => rw [Nat.zero_sub]; exact List.drop_nil
  | succ m ih =>
    cases n with
    | zero => simp
    | succ n =>
      rw [idsFrom, List.drop_succ_cons, ih, Nat.succ_sub_succ, UInt64.add_assoc, UInt64.ofNat_add,
        UInt64.add_comm (UInt64.ofNat n)]
      rfl

theorem mem_idsFrom {d x : DocId} {n : Nat} (h : d.toNat + n ≤ UInt64.size) :
    x ∈ idsFrom d n ↔ d.toNat ≤ x.toNat ∧ x.toNat < d.toNat + n := by
  induction n generalizing d with
  | zero =>
    simp only [idsFrom, List.not_mem_nil, false_iff]
    omega
  | succ n ih =>
    rw [idsFrom, List.mem_cons, ← UInt64.toNat_inj]
    cases n with
    | zero =>
      simp only [idsFrom, List.not_mem_nil, or_false]
      omega
    | succ n =>
      have hsucc : (d + 1).toNat = d.toNat + 1 := by
        rw [UInt64.toNat_add]
        exact Nat.mod_eq_of_lt (by simp only [UInt64.size] at h; simp; omega)
      rw [ih (by omega), hsucc]
      omega

theorem ascending_idsFrom {d : DocId} {n : Nat} (h : d.toNat + n ≤ UInt64.size) :
    Ascending (idsFrom d n) := by
  induction n generalizing d with
  | zero => exact .nil
  | succ n ih =>
    cases n with
    | zero => exact List.pairwise_singleton _ _
    | succ n =>
      have hsucc : (d + 1).toNat = d.toNat + 1 := by
        rw [UInt64.toNat_add]
        exact Nat.mod_eq_of_lt (by simp only [UInt64.size] at h; simp; omega)
      refine .cons (fun x hx => ?_) (ih (by omega))
      rw [mem_idsFrom (by omega), hsucc] at hx
      rw [UInt64.lt_iff_toNat_lt]
      omega

def below (bound : DocId) : List DocId := idsFrom 0 bound.toNat

theorem mem_below {bound d : DocId} : d ∈ below bound ↔ d < bound := by
  have := bound.toNat_lt
  rw [below, mem_idsFrom (by simp [UInt64.size]; omega), UInt64.lt_iff_toNat_lt]
  simp

theorem ascending_below (bound : DocId) : Ascending (below bound) := by
  have := bound.toNat_lt
  exact ascending_idsFrom (by simp [UInt64.size]; omega)

def meaning (bound : DocId) : Meaning where
  ids := below bound
  ascending := ascending_below bound
  score _ := neutralScore
  scored := false
  cost := bound

theorem serves (bound : DocId) : Serves (meaning bound) ({ bound } : AllMatch) (below bound) := by
  let R : AllMatch → List DocId → Prop := fun m rest =>
    m.bound = bound ∧ m.next.toNat ≤ bound.toNat ∧ rest = idsFrom m.next (bound.toNat - m.next.toNat)
  have hstart : R { bound } (below bound) := ⟨rfl, Nat.zero_le _, rfl⟩
  refine Matcher.serves_of_exact (R := R) ?_ (fun h => ?_) (fun _ _ h => h) (fun h => ?_) hstart
  · rintro m _ ⟨hb, hle, rfl⟩ n
    rw [← hb] at hle ⊢
    have hnext := toNat_next_fill m n hle
    refine ⟨{ m with next := m.next + UInt64.ofNat (m.available n) }, ?_, hb, ?_, ?_⟩
    · rw [take_idsFrom]
      rfl
    · have : m.available n ≤ m.bound.toNat - m.next.toNat := Nat.min_le_left _ _
      simp only [hnext, ← hb]
      omega
    · simp only [hnext, ← hb]
      rw [← Nat.sub_sub, ← drop_idsFrom]
      by_cases hn : n ≤ m.bound.toNat - m.next.toNat
      · rw [available, Nat.min_eq_right hn]
      · have hlen := length_idsFrom m.next (m.bound.toNat - m.next.toNat)
        rw [available, Nat.min_eq_left (by omega : m.bound.toNat - m.next.toNat ≤ n),
          List.drop_eq_nil_of_le (by omega), List.drop_eq_nil_of_le (by omega)]
  · obtain ⟨hb, -, -⟩ := h
    exact ⟨hb, Nat.zero_le _, rfl⟩
  · obtain ⟨hb, -, -⟩ := h
    refine ⟨fun d => ?_, fun ids buffer => Matcher.neutralScores_eq ids buffer, rfl, hb⟩
    show Except.ok (decide _) = _
    rw [hb]
    exact congrArg Except.ok (decide_eq_decide.mpr mem_below.symm)

end AllMatch

/-! ### Terms -/

namespace TermMatch

def meaning (docs : List DocId) (ascending : Ascending docs) : Meaning where
  ids := docs
  ascending := ascending
  score _ := neutralScore
  scored := false
  cost := UInt64.ofNat docs.length

def Reads (docs : List DocId) (m : TermMatch) (rest : List DocId) : Prop :=
  match m.postings with
  | some cursor => ∃ blocks, blocks.flatten = docs ∧ cursor.Reads blocks rest
  | none => docs = [] ∧ rest = []

variable {docs rest : List DocId} {m : TermMatch}

theorem docFreq_eq (h : Reads docs m rest) : m.docFreq = UInt64.ofNat docs.length := by
  obtain ⟨field, term, postings⟩ := m
  cases postings with
  | some cursor =>
    obtain ⟨blocks, rfl, hr⟩ := h
    exact PostingCursor.docFreq_reads hr
  | none =>
    obtain ⟨rfl, -⟩ := h
    rfl

theorem evaluate_eq (h : Reads docs m rest) (ha : Ascending docs) (d : DocId) :
    m.evaluate d = .ok (decide (d ∈ docs)) := by
  obtain ⟨field, term, postings⟩ := m
  cases postings with
  | some cursor =>
    obtain ⟨blocks, rfl, hr⟩ := h
    exact PostingCursor.contains_reads hr ha d
  | none =>
    obtain ⟨rfl, -⟩ := h
    rfl

theorem reads_exact : IdSource.Exact (Reads docs) := by
  rintro ⟨field, term, postings⟩ rest h n
  cases postings with
  | some cursor =>
    obtain ⟨blocks, hdocs, hr⟩ := h
    obtain ⟨cursor', hf, hr'⟩ := PostingCursor.fill_reads n hr
    refine ⟨⟨field, term, some cursor'⟩, ?_, blocks, hdocs, hr'⟩
    show fill _ n = _
    unfold fill
    simp only [hf]
  | none =>
    obtain ⟨rfl, rfl⟩ := h
    exact ⟨⟨field, term, none⟩, by rw [List.take_nil]; rfl, rfl, List.drop_nil⟩

theorem serves (ha : Ascending docs) (h : Reads docs m docs) :
    Serves (meaning docs ha) m docs := by
  refine Matcher.serves_of_exact (R := Reads docs) reads_exact (fun hr => ?_) (fun _ _ hr => hr)
    (fun hr => ?_) h
  · rename_i m rest
    obtain ⟨field, term, postings⟩ := m
    cases postings with
    | some cursor =>
      obtain ⟨blocks, rfl, hr⟩ := hr
      exact ⟨blocks, rfl, PostingCursor.reads_reset hr⟩
    | none => exact ⟨hr.1, hr.1⟩
  · exact ⟨evaluate_eq hr ha, Matcher.neutralScores_eq, rfl, docFreq_eq hr⟩

end TermMatch

/-! ### Boosts -/

namespace BoostMatch

variable {M : Type} [Matcher M] {μ : Meaning}

/-- The factor of an id: a score function sees the cost of the match as its document frequency. -/
def factor (docFreq : UInt64) (d : DocId) : Boost → Float32
  | .constant factor => factor
  | .function f totalDocs => f.score ⟨d, docFreq, totalDocs⟩

def meaning (μ : Meaning) (boost : Boost) : Meaning :=
  { μ with
    score := fun d => μ.score d * factor μ.cost d boost
    scored := true }

theorem apply_eq (boost : Boost) (ids : List DocId) :
    boost.apply μ.cost ids (ids.map μ.score).toArray =
      (ids.map fun d => μ.score d * factor μ.cost d boost).toArray := by
  cases boost with
  | constant c => simp [Boost.apply, factor]
  | function f totalDocs =>
    simp only [Boost.apply, factor, List.zipWith_toArray, List.zipWith_map_right, List.zipWith_self]

theorem serves {m : M} (boost : Boost) (h : Serves μ m μ.ids) :
    Serves (meaning μ boost) (⟨m, boost⟩ : BoostMatch M) μ.ids := by
  refine Matcher.serves_of_exact (μ := meaning μ boost)
    (R := fun m rest => m.boost = boost ∧ Serves μ m.inner rest) ?_ (fun hr => ?_)
    (fun ids buffer hr => ?_) (fun hr => ?_) ⟨rfl, h⟩
  · rintro ⟨m, b⟩ rest ⟨hb, hm⟩ n
    obtain ⟨m', hf, hm'⟩ := Matcher.serves_exact hm n
    refine ⟨⟨m', b⟩, ?_, hb, hm'⟩
    show fill _ n = _
    rw [fill, hf]
  · exact ⟨hr.1, Matcher.serves_upholds.reset hr.2⟩
  · exact ⟨hr.1, Matcher.serves_upholds.scored ids buffer hr.2⟩
  · rename_i m rest
    obtain ⟨m, b⟩ := m
    obtain ⟨rfl, hm⟩ := hr
    have ha := Matcher.serves_upholds.answers hm
    refine ⟨ha.evaluate, fun ids buffer => ?_, rfl, ha.cost⟩
    have hscored := Matcher.serves_upholds.answers (Matcher.serves_upholds.scored ids buffer hm)
    show (Matcher.score m ids buffer).1.map
      (fun scores => b.apply (Matcher.cost (Matcher.score m ids buffer).2) ids scores) = _
    rw [ha.score, hscored.cost]
    unfold Matcher.checkSlots
    split
    · exact congrArg Except.ok (apply_eq b ids)
    · rfl

end BoostMatch

end Concordance
