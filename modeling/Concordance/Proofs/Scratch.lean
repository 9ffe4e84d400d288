import Concordance.Proofs.Rewind
import Concordance.Proofs.Scoring

/-!
# Scratches

What scoring has left in a scratch shows in nothing that is scored with it later, not even when a
child fails: two scratches of the same sizes come to the same, `ScoreScratch.sumScores_agrees`.
-/

namespace Concordance

open Matcher (Rewinds)

/-- As `take_set`, for two lists that need not be so long. -/
theorem take_set_congr {xs ys : List α} {i : Nat} (hlen : xs.length = ys.length)
    (h : xs.take i = ys.take i) (a : α) :
    (xs.set i a).take (i + 1) = (ys.set i a).take (i + 1) := by
  by_cases hi : i < xs.length
  · rw [take_set hi, take_set (hlen ▸ hi), h]
  · have hx : xs.length ≤ i := Nat.le_of_not_lt hi
    have hy : ys.length ≤ i := hlen ▸ hx
    rw [List.take_of_length_le hx, List.take_of_length_le hy] at h
    rw [List.set_eq_of_length_le hx, List.set_eq_of_length_le hy, h]

theorem zipWith_congr_of_take {f : α → β → γ} {n : Nat} {xs : List α} {ys ys' : List β}
    (hle : xs.length ≤ n) (h : ys.take n = ys'.take n) : xs.zipWith f ys = xs.zipWith f ys' := by
  induction xs generalizing n ys ys' with
  | nil => rw [List.zipWith_nil_left, List.zipWith_nil_left]
  | cons x xs ih =>
    obtain ⟨n, rfl⟩ := Nat.exists_eq_add_one.mpr (Nat.lt_of_lt_of_le (Nat.succ_pos _) hle)
    cases ys with
    | nil =>
      obtain rfl : ys' = [] := by simpa using h.symm
      rfl
    | cons y ys =>
      cases ys' with
      | nil => cases h
      | cons y' ys' =>
        obtain ⟨rfl, hrest⟩ := List.cons.inj h
        rw [List.zipWith_cons_cons, List.zipWith_cons_cons, ih (Nat.le_of_succ_le_succ hle) hrest]

theorem Matcher.size_of_checkSlots {ids : List DocId} {buffer : Array Float32} {u : Unit}
    (h : checkSlots ids buffer = .ok u) : ids.length = buffer.size := by
  unfold checkSlots at h
  split at h
  · rename_i hsize
    exact hsize.symm
  · cases h

namespace ScoreScratch

variable {M : Type} [Matcher M] {blanked : M → M} {m m' : M} {s s' : ScoreScratch}

/-- The scratch with its buffers emptied. Marks are set anew for every chunk, so that it does not
even matter how many there are. -/
def blank (s : ScoreScratch) : ScoreScratch where
  ids := .replicate s.ids.size 0
  slots := .replicate s.slots.size 0
  scores := .replicate s.scores.size 0
  hits := #[]

omit [Matcher M] in
theorem blank_eq_iff : s.blank = s'.blank ↔
    s.ids.size = s'.ids.size ∧ s.slots.size = s'.slots.size ∧ s.scores.size = s'.scores.size := by
  constructor
  · intro h
    refine ⟨?_, ?_, ?_⟩
    · simpa [blank] using congrArg (·.ids.size) h
    · simpa [blank] using congrArg (·.slots.size) h
    · simpa [blank] using congrArg (·.scores.size) h
  · rintro ⟨hids, hslots, hscores⟩
    rw [blank, blank, hids, hslots, hscores]

/-! ### Sizes -/

theorem blank_note (count : Nat) (d : DocId) (slot : Nat) (s : ScoreScratch) :
    (s.note count d slot).blank = s.blank :=
  blank_eq_iff.mpr ⟨Array.size_setIfInBounds, Array.size_setIfInBounds, rfl⟩

theorem blank_gather (checked : Bool) (m : M) (slot count : Nat) (s : ScoreScratch)
    (ids : List DocId) : (gather checked m slot count s ids).2.blank = s.blank := by
  induction ids generalizing slot count s with
  | nil => rfl
  | cons d ids ih =>
    unfold gather
    split
    · rfl
    · rw [ih, blank_note]
    · exact ih _ _ _

theorem hits_gather (checked : Bool) (m : M) (slot count : Nat) (s : ScoreScratch)
    (ids : List DocId) : (gather checked m slot count s ids).2.hits = s.hits := by
  induction ids generalizing slot count s with
  | nil => rfl
  | cons d ids ih =>
    unfold gather
    split
    · rfl
    · rw [ih]
      rfl
    · exact ih _ _ _

section

variable (h : Rewinds blanked)

include h

theorem blank_addNoted (count : Nat) (m : M) (sums : Array Float32) (s : ScoreScratch) :
    (addNoted count m sums s).2.1.blank = s.blank := by
  obtain ⟨ids, slots, scores, hits⟩ := s
  rw [addNoted]
  generalize hscore : Matcher.score m _ _ = scored
  obtain ⟨result, m'⟩ := scored
  cases result with
  | error e => rfl
  | ok found =>
    have hle : found.size ≤ scores.size := by
      have hsize := (h m).size (congrArg Prod.fst hscore)
      rw [Array.size_extract] at hsize
      omega
    exact blank_eq_iff.mpr ⟨rfl, rfl, size_overwrite hle⟩

theorem blank_addChild (checked : Bool) (ids : List DocId) (m : M) (sums : Array Float32)
    (s : ScoreScratch) : (addChild checked ids m sums s).2.1.blank = s.blank := by
  have hgather := blank_gather checked m 0 0 s ids
  unfold addChild
  split
  · split
    · rename_i hg
      rw [hg] at hgather
      exact hgather
    · rename_i hg
      rw [hg] at hgather
      exact hgather
    · rename_i hg
      rw [hg] at hgather
      exact (blank_addNoted h _ m sums _).trans hgather
  · rfl

theorem blank_addChildren (checked : Bool) (ids : List DocId) (sums : Array Float32)
    (s : ScoreScratch) (ms : List M) :
    (addChildren checked ids sums s ms).2.1.blank = s.blank := by
  induction ms generalizing sums s with
  | nil => rfl
  | cons m ms ih =>
    have hchild := blank_addChild h checked ids m sums s
    unfold addChildren
    split
    · rename_i hadd
      rw [hadd] at hchild
      exact hchild
    · rename_i hadd
      rw [hadd] at hchild
      exact (ih _ _).trans hchild

theorem blank_sumChunk (checked : Bool) (ms : List M) (ids : List DocId) (buffer : List Float32)
    (s : ScoreScratch) : (sumChunk checked ms ids buffer s).2.1.blank = s.blank :=
  blank_addChildren h checked ids _ { s with hits := _ } ms

theorem blank_sumChunks (checked : Bool) (ms : List M) (s : ScoreScratch)
    (parts : List (List DocId × List Float32)) :
    (sumChunks checked ms s parts).2.1.blank = s.blank := by
  induction parts generalizing ms s with
  | nil => rfl
  | cons part parts ih =>
    have hchunk := blank_sumChunk h checked ms part.1 part.2 s
    unfold sumChunks
    split
    · rename_i hsum
      rw [hsum] at hchunk
      exact hchunk
    · rename_i hsum
      rw [hsum] at hchunk
      exact (ih _ _).trans hchunk

theorem blank_sumScores (checked : Bool) (s : ScoreScratch) (ms : List M) (ids : List DocId)
    (buffer : Array Float32) : (s.sumScores checked ms ids buffer).2.1.blank = s.blank := by
  unfold sumScores
  split
  · rfl
  · split
    · exact blank_sumChunks h ..
    · rfl

end

/-! ### As many scores as slots -/

omit [Matcher M] in
theorem size_scatter_sums (sums : Array Float32) (hits : Array Bool)
    (found : List (Nat × Float32)) : (scatter sums hits found).1.size = sums.size := by
  induction found generalizing sums hits with
  | nil => rfl
  | cons place found ih => rw [scatter, ih, Array.size_modify]

theorem size_addNoted {count : Nat} {sums sums' : Array Float32}
    (hr : (addNoted count m sums s).1 = .ok sums') : sums'.size = sums.size := by
  obtain ⟨ids, slots, scores, hits⟩ := s
  rw [addNoted] at hr
  split at hr
  · cases hr
  · rw [← Except.ok.inj hr, size_scatter_sums]

theorem size_addChild {checked : Bool} {ids : List DocId} {sums sums' : Array Float32}
    (hr : (addChild checked ids m sums s).1 = .ok sums') : sums'.size = sums.size := by
  unfold addChild at hr
  split at hr
  · split at hr
    · cases hr
    · rw [← Except.ok.inj hr]
    · exact size_addNoted hr
  · rw [← Except.ok.inj hr]

theorem size_addChildren {checked : Bool} {ids : List DocId} {ms : List M}
    {sums sums' : Array Float32} (hr : (addChildren checked ids sums s ms).1 = .ok sums') :
    sums'.size = sums.size := by
  induction ms generalizing sums s with
  | nil => rw [← Except.ok.inj hr]
  | cons m ms ih =>
    unfold addChildren at hr
    split at hr
    · cases hr
    · rename_i hadd
      rw [ih hr, size_addChild (congrArg Prod.fst hadd)]

theorem length_sumChunk_le {checked : Bool} {ms : List M} {ids : List DocId}
    {buffer scores : List Float32} (hr : (sumChunk checked ms ids buffer s).1 = .ok scores) :
    scores.length ≤ buffer.length := by
  unfold sumChunk at hr
  dsimp only at hr
  generalize hadd : addChildren checked ids _ _ ms = added at hr
  obtain ⟨result, s', ms'⟩ := added
  cases result with
  | error e => cases hr
  | ok sums =>
    have hsize := size_addChildren (congrArg Prod.fst hadd)
    rw [Array.size_replicate] at hsize
    rw [← Except.ok.inj hr]
    dsimp only
    rw [Array.toList_zipWith, List.length_zipWith, Array.length_toList, hsize]
    exact Nat.min_le_left _ _

theorem length_sumChunks_le {checked : Bool} {ms : List M}
    {parts : List (List DocId × List Float32)} {scores : List Float32}
    (hr : (sumChunks checked ms s parts).1 = .ok scores) :
    scores.length ≤ (parts.map (·.2)).flatten.length := by
  induction parts generalizing ms s scores with
  | nil => rw [← Except.ok.inj hr]; exact Nat.zero_le _
  | cons part parts ih =>
    unfold sumChunks at hr
    split at hr
    · cases hr
    · rename_i first s₁ ms₁ hsum
      have hfirst := length_sumChunk_le (congrArg Prod.fst hsum)
      dsimp only at hr
      cases hmore : (sumChunks checked ms₁ s₁ parts).1 with
      | error e =>
        rw [hmore] at hr
        cases hr
      | ok more =>
        rw [hmore] at hr
        rw [← Except.ok.inj hr, List.length_append, List.map_cons, List.flatten_cons,
          List.length_append]
        exact Nat.add_le_add hfirst (ih hmore)

theorem size_sumScores_le {checked : Bool} {ms : List M} {ids : List DocId}
    {buffer scores : Array Float32} (hr : (s.sumScores checked ms ids buffer).1 = .ok scores) :
    scores.size ≤ buffer.size := by
  unfold sumScores at hr
  split at hr
  · cases hr
  · rename_i hslots
    split at hr
    · have hlen := Matcher.size_of_checkSlots hslots
      rw [← Array.length_toList] at hlen
      have hparts := List.map_snd_zip
        (Nat.le_of_eq (length_chunks_congr s.capacity hlen.symm))
      dsimp only at hr
      cases hsum : (sumChunks checked ms s
          ((chunks s.capacity ids).zip (chunks s.capacity buffer.toList))).1 with
      | error e =>
        rw [hsum] at hr
        cases hr
      | ok sums =>
        rw [hsum] at hr
        have hle := length_sumChunks_le hsum
        rw [hparts, flatten_chunks, Array.length_toList] at hle
        rw [← Except.ok.inj hr, List.size_toArray]
        exact hle
    · rw [← Except.ok.inj hr, Array.size_replicate]

/-! ### Scoring with another scratch -/

/-- Scratches of the same sizes that mark the same of the first `n` places. -/
structure Alike (n : Nat) (s s' : ScoreScratch) : Prop where
  blank : s.blank = s'.blank
  marks : s.hits.toList.take n = s'.hits.toList.take n

/-- Scratches in which the same is noted in the first places. -/
structure NotedAlike (count : Nat) (s s' : ScoreScratch) : Prop where
  ids : s.ids.toList.take count = s'.ids.toList.take count
  slots : s.slots.toList.take count = s'.slots.toList.take count

/-- Two ways to score come to the same, up to what `f` takes away. -/
structure Agrees {α γ δ : Type} (n : Nat) (f : γ → δ) (r r' : Except Failure α × ScoreScratch × γ) :
    Prop where
  result : r.1 = r'.1
  scratch : Alike n r.2.1 r'.2.1
  rest : f r.2.2 = f r'.2.2

variable {n : Nat}

omit [Matcher M] in
theorem NotedAlike.note {count : Nat} (h : NotedAlike count s s') (hs : s.blank = s'.blank)
    (d : DocId) (slot : Nat) :
    NotedAlike (count + 1) (s.note count d slot) (s'.note count d slot) := by
  obtain ⟨hids, hslots, -⟩ := blank_eq_iff.mp hs
  obtain ⟨ids, slots, scores, hits⟩ := s
  obtain ⟨ids', slots', scores', hits'⟩ := s'
  constructor
  · simp only [ScoreScratch.note, Array.toList_setIfInBounds]
    exact take_set_congr hids h.ids d
  · simp only [ScoreScratch.note, Array.toList_setIfInBounds]
    exact take_set_congr hslots h.slots slot

theorem gather_alike (h : Rewinds blanked) (hm : blanked m = blanked m') (checked : Bool)
    (slot : Nat) {count : Nat} (hs : s.blank = s'.blank) (hnoted : NotedAlike count s s')
    (ids : List DocId) :
    (gather checked m slot count s ids).1 = (gather checked m' slot count s' ids).1 ∧
      ∀ found, (gather checked m slot count s ids).1 = .ok found →
        NotedAlike found (gather checked m slot count s ids).2
          (gather checked m' slot count s' ids).2 := by
  induction ids generalizing slot count s s' with
  | nil =>
    refine ⟨rfl, fun found hfound => ?_⟩
    rw [← Except.ok.inj hfound]
    exact hnoted
  | cons d ids ih =>
    have htest : (if checked then Matcher.evaluate m d else .ok true) =
        if checked then Matcher.evaluate m' d else .ok true := by
      rw [← (h m).evaluate, hm, (h m').evaluate]
    rw [gather, gather, ← htest]
    cases (if checked then Matcher.evaluate m d else .ok true) with
    | error e => exact ⟨rfl, fun found hfound => by cases hfound⟩
    | ok matched =>
      cases matched with
      | false => exact ih (slot + 1) hs hnoted
      | true =>
        apply ih (slot + 1) _ (hnoted.note hs d slot)
        rw [blank_note, blank_note, hs]

omit [Matcher M] in
theorem scatter_alike (sums : Array Float32) {hits hits' : Array Bool}
    (h : hits.toList.take n = hits'.toList.take n) (found : List (Nat × Float32)) :
    (scatter sums hits found).1 = (scatter sums hits' found).1 ∧
      (scatter sums hits found).2.toList.take n = (scatter sums hits' found).2.toList.take n := by
  induction found generalizing sums hits hits' with
  | nil => exact ⟨rfl, h⟩
  | cons place found ih =>
    rw [scatter, scatter]
    apply ih
    rw [Array.toList_setIfInBounds, Array.toList_setIfInBounds, List.take_set, List.take_set, h]

theorem addNoted_agrees (h : Rewinds blanked) (hm : blanked m = blanked m') {count : Nat}
    (sums : Array Float32) (hs : Alike n s s') (hnoted : NotedAlike count s s') :
    Agrees n blanked (addNoted count m sums s) (addNoted count m' sums s') := by
  have hblank : (addNoted count m sums s).2.1.blank = (addNoted count m' sums s').2.1.blank := by
    rw [blank_addNoted h, blank_addNoted h, hs.blank]
  obtain ⟨-, -, hscores⟩ := blank_eq_iff.mp hs.blank
  obtain ⟨ids, slots, scores, hits⟩ := s
  obtain ⟨ids', slots', scores', hits'⟩ := s'
  have hids : (ids.extract 0 count).toList = (ids'.extract 0 count).toList := by
    rw [toList_extract_of_take hnoted.ids, toList_extract_of_take rfl]
  have hslots : slots.extract 0 count = slots'.extract 0 count := by
    apply Array.toList_inj.mp
    rw [toList_extract_of_take hnoted.slots, toList_extract_of_take rfl]
  have hroom : (scores.extract 0 count).size = (scores'.extract 0 count).size := by
    rw [Array.size_extract, Array.size_extract, show scores.size = scores'.size from hscores]
  obtain ⟨hresult, hrest⟩ := (h m).score (ids.extract 0 count).toList hm hroom
  -- Both calls get the same ids and a buffer of the same size, so they also fail alike.
  rw [addNoted, addNoted, ← hids, ← hslots] at hblank ⊢
  generalize Matcher.score m _ _ = scored at hresult hrest hblank ⊢
  generalize Matcher.score m' _ _ = scored' at hresult hrest hblank ⊢
  obtain ⟨result, m₁⟩ := scored
  obtain ⟨result', m₁'⟩ := scored'
  obtain rfl : result = result' := hresult
  cases result with
  | error e => exact ⟨rfl, hs, hrest⟩
  | ok found =>
    obtain ⟨hsums, hmarks⟩ :=
      scatter_alike sums hs.marks ((slots.extract 0 count).zip found).toList
    exact ⟨congrArg Except.ok hsums, ⟨hblank, hmarks⟩, hrest⟩

theorem addChild_agrees (h : Rewinds blanked) (hm : blanked m = blanked m') (checked : Bool)
    (ids : List DocId) (sums : Array Float32) (hs : Alike n s s') :
    Agrees n blanked (addChild checked ids m sums s) (addChild checked ids m' sums s') := by
  have hscored : Matcher.isScored m = Matcher.isScored m' := by
    rw [← (h m).isScored, hm, (h m').isScored]
  have hnone : NotedAlike 0 s s' := ⟨rfl, rfl⟩
  obtain ⟨hfound, hnoted⟩ := gather_alike h hm checked 0 hs.blank hnone ids
  have hgathered : Alike n (gather checked m 0 0 s ids).2 (gather checked m' 0 0 s' ids).2 :=
    ⟨by rw [blank_gather, blank_gather, hs.blank], by rw [hits_gather, hits_gather, hs.marks]⟩
  unfold addChild
  rw [← hscored]
  split
  · generalize gather checked m 0 0 s ids = gathered at hfound hnoted hgathered ⊢
    generalize gather checked m' 0 0 s' ids = gathered' at hfound hnoted hgathered ⊢
    obtain ⟨result, s₁⟩ := gathered
    obtain ⟨result', s₁'⟩ := gathered'
    obtain rfl : result = result' := hfound
    match result with
    | .error e => exact ⟨rfl, hgathered, hm⟩
    | .ok 0 => exact ⟨rfl, hgathered, hm⟩
    | .ok (count + 1) => exact addNoted_agrees h hm sums hgathered (hnoted _ rfl)
  · exact ⟨rfl, hs, hm⟩

theorem addChildren_agrees (h : Rewinds blanked) (checked : Bool) (ids : List DocId)
    (sums : Array Float32) (hs : Alike n s s') {ms ms' : List M}
    (hms : ms.map blanked = ms'.map blanked) :
    Agrees n (List.map blanked) (addChildren checked ids sums s ms)
      (addChildren checked ids sums s' ms') := by
  induction ms generalizing sums s s' ms' with
  | nil =>
    obtain rfl : ms' = [] := List.map_eq_nil_iff.mp hms.symm
    exact ⟨rfl, hs, rfl⟩
  | cons m ms ih =>
    obtain ⟨m', ms', rfl, hm, hms⟩ := List.map_eq_cons_iff.mp hms.symm
    obtain ⟨hresult, hscratch, hrest⟩ := addChild_agrees h hm.symm checked ids sums hs
    rw [addChildren, addChildren]
    generalize addChild checked ids m sums s = added at hresult hscratch hrest ⊢
    generalize addChild checked ids m' sums s' = added' at hresult hscratch hrest ⊢
    obtain ⟨result, s₁, m₁⟩ := added
    obtain ⟨result', s₁', m₁'⟩ := added'
    obtain rfl : result = result' := hresult
    cases result with
    | error e => exact ⟨rfl, hscratch, congrArg₂ List.cons hrest hms.symm⟩
    | ok sums₁ =>
      obtain ⟨hresult, hscratch, hlater⟩ := ih sums₁ hscratch hms.symm
      exact ⟨hresult, hscratch, congrArg₂ List.cons hrest hlater⟩

/-- What is left in the scratch does not show in the sums of a chunk. -/
theorem sumChunk_agrees (h : Rewinds blanked) (checked : Bool) (hs : s.blank = s'.blank)
    {ms ms' : List M} (hms : ms.map blanked = ms'.map blanked) {ids : List DocId}
    {buffer buffer' : List Float32} (hfit : buffer.length ≤ ids.length)
    (hlen : buffer.length = buffer'.length) :
    Agrees 0 (List.map blanked) (sumChunk checked ms ids buffer s)
      (sumChunk checked ms' ids buffer' s') := by
  have hbuffer : sumChunk checked ms' ids buffer' s' = sumChunk checked ms' ids buffer s' := by
    unfold sumChunk
    rw [hlen]
  let cleared (s : ScoreScratch) : ScoreScratch :=
    { s with hits := overwrite (.replicate ids.length false) s.hits }
  have hmarks : ∀ s : ScoreScratch,
      (cleared s).hits.toList.take ids.length = List.replicate ids.length false := by
    intro s
    rw [toList_overwrite, Array.toList_replicate]
    exact List.take_left' List.length_replicate
  -- Marks behind those of the chunk differ still, but no score is written there.
  have hcleared : Alike ids.length (cleared s) (cleared s') :=
    ⟨hs, (hmarks s).trans (hmarks s').symm⟩
  obtain ⟨hresult, hscratch, hrest⟩ :=
    addChildren_agrees h checked ids (.replicate buffer.length 0) hcleared hms
  rw [hbuffer]
  refine ⟨?_, ⟨hscratch.blank, rfl⟩, hrest⟩
  show Except.map _ (addChildren checked ids _ (cleared s) ms).1 =
    Except.map _ (addChildren checked ids _ (cleared s') ms').1
  rw [← hresult]
  cases hadd : (addChildren checked ids (.replicate buffer.length 0) (cleared s) ms).1 with
  | error e => rfl
  | ok sums =>
    have hsize := size_addChildren hadd
    rw [Array.size_replicate] at hsize
    refine congrArg Except.ok ?_
    dsimp only
    rw [Array.toList_zipWith, Array.toList_zipWith]
    apply zipWith_congr_of_take _ hscratch.marks
    rw [Array.length_toList, hsize]
    exact hfit

theorem sumChunks_agrees (h : Rewinds blanked) (checked : Bool) (size : Nat)
    (hs : s.blank = s'.blank) {ms ms' : List M} (hms : ms.map blanked = ms'.map blanked)
    {ids : List DocId} {buffer buffer' : List Float32} (hb : ids.length = buffer.length)
    (hb' : ids.length = buffer'.length) :
    Agrees 0 (List.map blanked)
      (sumChunks checked ms s ((chunks size ids).zip (chunks size buffer)))
      (sumChunks checked ms' s' ((chunks size ids).zip (chunks size buffer'))) := by
  fun_induction chunks size ids generalizing buffer buffer' s s' ms ms' with
  | case1 => exact ⟨rfl, ⟨hs, rfl⟩, hms⟩
  | case2 d ids ih =>
    obtain ⟨b, buffer, rfl⟩ := List.exists_cons_of_length_eq_add_one hb.symm
    obtain ⟨b', buffer', rfl⟩ := List.exists_cons_of_length_eq_add_one hb'.symm
    have hlen : ids.length = buffer.length := Nat.succ.inj hb
    have hlen' : ids.length = buffer'.length := Nat.succ.inj hb'
    have hfit : (b :: buffer.take (size - 1)).length ≤ (d :: ids.take (size - 1)).length := by
      rw [List.length_cons, List.length_cons, List.length_take, List.length_take, hlen]
    have hsame : (b :: buffer.take (size - 1)).length = (b' :: buffer'.take (size - 1)).length := by
      rw [List.length_cons, List.length_cons, List.length_take, List.length_take, ← hlen, ← hlen']
    obtain ⟨hresult, hscratch, hrest⟩ := sumChunk_agrees h checked hs hms hfit hsame
    rw [chunks_cons, chunks_cons, List.zip_cons_cons, List.zip_cons_cons, sumChunks, sumChunks]
    generalize sumChunk checked ms _ _ s = sums at hresult hscratch hrest ⊢
    generalize sumChunk checked ms' _ _ s' = sums' at hresult hscratch hrest ⊢
    obtain ⟨result, s₁, ms₁⟩ := sums
    obtain ⟨result', s₁', ms₁'⟩ := sums'
    obtain rfl : result = result' := hresult
    cases result with
    | error e => exact ⟨rfl, hscratch, hrest⟩
    | ok scores =>
      obtain ⟨hmore, hscratch, hrest⟩ := ih hscratch.blank hrest
        (by rw [List.length_drop, List.length_drop, hlen])
        (by rw [List.length_drop, List.length_drop, hlen'])
      exact ⟨congrArg (Except.map (scores ++ ·)) hmore, hscratch, hrest⟩

/-- Scoring with another scratch of the same sizes comes to the same. -/
theorem sumScores_agrees (h : Rewinds blanked) (checked : Bool) (hs : s.blank = s'.blank)
    {ms ms' : List M} (hms : ms.map blanked = ms'.map blanked) (ids : List DocId)
    {buffer buffer' : Array Float32} (hb : buffer.size = buffer'.size) :
    Agrees 0 (List.map blanked) (s.sumScores checked ms ids buffer)
      (s'.sumScores checked ms' ids buffer') := by
  obtain ⟨hcapacity, -⟩ := blank_eq_iff.mp hs
  have hany : ms.any Matcher.isScored = ms'.any Matcher.isScored := by
    rw [← Matcher.any_isScored_map h, hms, Matcher.any_isScored_map h]
  have hsame : Alike 0 s s' := ⟨hs, rfl⟩
  unfold sumScores
  rw [show s'.capacity = s.capacity from hcapacity.symm, ← hany,
    show Matcher.checkSlots ids buffer' = Matcher.checkSlots ids buffer by
      rw [Matcher.checkSlots, Matcher.checkSlots, hb]]
  split
  · exact ⟨rfl, hsame, hms⟩
  · rename_i hslots
    have hlen := Matcher.size_of_checkSlots hslots
    split
    · obtain ⟨hresult, hscratch, hrest⟩ := sumChunks_agrees h checked s.capacity hs hms
        (hlen.trans Array.length_toList.symm) ((hlen.trans hb).trans Array.length_toList.symm)
      exact ⟨congrArg (Except.map List.toArray) hresult, hscratch, hrest⟩
    · rw [hb]
      exact ⟨rfl, hsame, hms⟩

end ScoreScratch

end Concordance
