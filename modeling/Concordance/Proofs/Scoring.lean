import Concordance.Match.Boolean
import Concordance.Proofs.Chunks
import Concordance.Proofs.Contract

/-!
# Scores of several children

The scores a combination writes are told from each id alone: `ScoreScratch.sumScores_ok`. Neither
the chunks nor what the scratch and the buffer held before show in them.
-/

namespace Concordance

namespace Meaning

/-- Whether a match adds to the score of an id, which it may be taken to have unchecked. -/
def adds (checked : Bool) (μ : Meaning) (d : DocId) : Bool := !checked || decide (d ∈ μ.ids)

/-- The scores that the scored ones of some matches give an id, added up from the left. -/
def sum (checked : Bool) (μs : List Meaning) (d : DocId) : Float32 :=
  match μs.filter fun μ => μ.scored && μ.adds checked d with
  | [] => neutralScore
  | first :: rest => (first :: rest).foldl (fun total μ => total + μ.score d) 0

/-- What a match does to the sum of an id and to the mark of its place. -/
def addTo (checked : Bool) (d : DocId) (slot : Float32 × Bool) (μ : Meaning) : Float32 × Bool :=
  if μ.adds checked d then (slot.1 + μ.score d, true) else slot

theorem foldl_addTo (checked : Bool) (d : DocId) (μs : List Meaning) (slot : Float32 × Bool) :
    μs.foldl (addTo checked d) slot =
      ((μs.filter (·.adds checked d)).foldl (fun total μ => total + μ.score d) slot.1,
        slot.2 || !(μs.filter (·.adds checked d)).isEmpty) := by
  induction μs generalizing slot with
  | nil => simp
  | cons μ μs ih =>
    rw [List.foldl_cons, ih, addTo, List.filter_cons]
    cases μ.adds checked d <;> simp

/-- A place that no match has marked keeps the neutral score. -/
theorem sum_eq_foldl (checked : Bool) (μs : List Meaning) (d : DocId) :
    sum checked μs d =
      let slot := (μs.filter (·.scored)).foldl (addTo checked d) (0, false)
      if slot.2 then slot.1 else neutralScore := by
  rw [foldl_addTo, List.filter_filter]
  unfold sum
  simp only [Bool.and_comm]
  generalize μs.filter (fun μ => μ.scored && μ.adds checked d) = found
  cases found <;> rfl

theorem sum_of_none {μs : List Meaning} (h : μs.any (·.scored) = false) (checked : Bool)
    (d : DocId) : sum checked μs d = neutralScore := by
  have hnil : μs.filter (fun μ => μ.scored && μ.adds checked d) = [] := by
    apply List.filter_eq_nil_iff.mpr
    intro μ hμ hadds
    rw [List.any_eq_false] at h
    exact h μ hμ (Bool.and_eq_true_iff.mp hadds).1
  rw [sum, hnil]

end Meaning

theorem toList_overwrite (front buffer : Array α) :
    (overwrite front buffer).toList = front.toList ++ buffer.toList.drop front.size := by
  rw [overwrite, Array.toList_append, Array.toList_extract, List.extract_eq_take_drop,
    List.take_of_length_le (by simp)]

theorem size_overwrite {front buffer : Array α} (h : front.size ≤ buffer.size) :
    (overwrite front buffer).size = buffer.size := by
  rw [← Array.length_toList, toList_overwrite]
  simp
  omega

theorem take_set {xs : List α} {i : Nat} (h : i < xs.length) (a : α) :
    (xs.set i a).take (i + 1) = xs.take i ++ [a] := by
  rw [List.take_add_one, List.take_set_of_le (Nat.le_refl i), List.getElem?_set_self h]
  rfl

namespace ScoreScratch

variable {M : Type} [Matcher M] {μ : Meaning} {m : M}

structure Sized (n : Nat) (s : ScoreScratch) : Prop where
  ids : s.ids.size = n
  slots : s.slots.size = n
  scores : s.scores.size = n
  hits : s.hits.size = n

omit [Matcher M] in
theorem sized_ofCapacity (capacity : Nat) : Sized (max capacity 1) (ofCapacity capacity) :=
  ⟨Array.size_replicate, Array.size_replicate, Array.size_replicate, Array.size_replicate⟩

/-! ### One child -/

/-- The ids of a chunk that a match adds to, with their places. -/
def selected (checked : Bool) (μ : Meaning) (slot : Nat) (ids : List DocId) : List (DocId × Nat) :=
  (ids.zipIdx slot).filter fun found => μ.adds checked found.1

theorem selected_cons (checked : Bool) (μ : Meaning) (slot : Nat) (d : DocId) (ids : List DocId) :
    selected checked μ slot (d :: ids) =
      if μ.adds checked d then (d, slot) :: selected checked μ (slot + 1) ids
      else selected checked μ (slot + 1) ids := by
  rw [selected, List.zipIdx_cons, List.filter_cons]
  rfl

/-- The first slots of a scratch hold some ids with their places. -/
structure Noted (found : List (DocId × Nat)) (s : ScoreScratch) : Prop where
  ids : s.ids.toList.take found.length = found.map (·.1)
  slots : s.slots.toList.take found.length = found.map (·.2)

omit [Matcher M] in
theorem noted_nil (s : ScoreScratch) : Noted [] s := ⟨rfl, rfl⟩

omit [Matcher M] in
theorem sized_note {n : Nat} {s : ScoreScratch} (hs : Sized n s) (count : Nat) (d : DocId)
    (slot : Nat) : Sized n (s.note count d slot) := by
  obtain ⟨ids, slots, scores, hits⟩ := s
  exact ⟨Array.size_setIfInBounds.trans hs.ids, Array.size_setIfInBounds.trans hs.slots,
    hs.scores, hs.hits⟩

omit [Matcher M] in
theorem noted_note {n : Nat} {s : ScoreScratch} (hs : Sized n s) {found : List (DocId × Nat)}
    (h : Noted found s) (hroom : found.length < n) (d : DocId) (slot : Nat) :
    Noted (found ++ [(d, slot)]) (s.note found.length d slot) := by
  obtain ⟨ids, slots, scores, hits⟩ := s
  have hids : ids.toList.length = n := hs.ids
  have hslots : slots.toList.length = n := hs.slots
  constructor
  · rw [note, Array.toList_setIfInBounds, List.length_append, List.length_singleton,
      take_set (by omega), h.ids, List.map_append]
    rfl
  · rw [note, Array.toList_setIfInBounds, List.length_append, List.length_singleton,
      take_set (by omega), h.slots, List.map_append]
    rfl

/-- Gathering notes the ids to score and their places behind those noted before. -/
theorem gather_ok (hm : Matcher.Answers μ m) (checked : Bool) {n : Nat} (ids : List DocId)
    (slot : Nat) {front : List (DocId × Nat)} {s : ScoreScratch} (hs : Sized n s)
    (hnoted : Noted front s) (hfit : front.length + ids.length ≤ n) :
    ∃ s', gather checked m slot front.length s ids =
        (.ok (front ++ selected checked μ slot ids).length, s') ∧
      Sized n s' ∧ s'.hits = s.hits ∧ Noted (front ++ selected checked μ slot ids) s' := by
  induction ids generalizing slot front s with
  | nil =>
    rw [selected, List.zipIdx_nil, List.filter_nil, List.append_nil]
    exact ⟨s, rfl, hs, rfl, hnoted⟩
  | cons d ids ih =>
    rw [List.length_cons] at hfit
    have htest : (if checked then Matcher.evaluate m d else .ok true) =
        .ok (μ.adds checked d) := by
      cases checked with
      | true => rw [if_pos rfl, hm.evaluate]; rfl
      | false => rfl
    rw [gather, htest, selected_cons]
    cases hadds : μ.adds checked d with
    | false => exact ih (slot + 1) hs hnoted (by omega)
    | true =>
      have hnoted' := noted_note hs hnoted (by omega) d slot
      obtain ⟨s', hg, hs', hhits, hnoted''⟩ :=
        ih (slot + 1) (sized_note hs front.length d slot) hnoted'
          (by rw [List.length_append, List.length_singleton]; omega)
      rw [List.length_append, List.length_singleton, List.append_assoc] at hg
      rw [List.append_assoc] at hnoted''
      exact ⟨s', hg, hs', hhits, hnoted''⟩

omit [Matcher M] in
theorem size_scatter (sums : Array Float32) (hits : Array Bool) (found : List (Nat × Float32)) :
    (scatter sums hits found).2.size = hits.size := by
  induction found generalizing sums hits with
  | nil => rfl
  | cons place rest ih => rw [scatter, ih, Array.size_setIfInBounds]

omit [Matcher M] in
/-- Scattering the scores of the selected ids changes the sums of their places only. The places of
the ids start behind those of `front`, and `tail` are marks that no id has a place for. -/
theorem scatter_selected (checked : Bool) {ids : List DocId} {f : DocId → Float32 × Bool}
    (sums : Array Float32) (hits : Array Bool) (front : List Float32) (marks : List Bool)
    {tail : List Bool}
    (hmarks : marks.length = front.length)
    (hsums : sums.toList = front ++ ids.map fun d => (f d).1)
    (hhits : hits.toList = marks ++ ids.map (fun d => (f d).2) ++ tail) :
    let result := scatter sums hits
      ((selected checked μ front.length ids).map fun found => (found.2, μ.score found.1))
    result.1.toList = front ++ ids.map (fun d => (μ.addTo checked d (f d)).1) ∧
      result.2.toList = marks ++ ids.map (fun d => (μ.addTo checked d (f d)).2) ++ tail := by
  induction ids generalizing sums hits front marks with
  | nil => exact ⟨hsums, hhits⟩
  | cons d ids ih =>
    rw [List.map_cons] at hsums
    rw [List.map_cons, List.append_assoc, List.cons_append] at hhits
    rw [selected_cons, List.map_cons, List.map_cons]
    cases hadds : μ.adds checked d with
    | false =>
      have h := ih sums hits (front ++ [(f d).1]) (marks ++ [(f d).2]) (by simp [hmarks])
        (by simp [hsums]) (by simp [hhits])
      simp only [List.length_append, List.length_singleton, List.append_assoc,
        List.cons_append] at h ⊢
      simpa [Meaning.addTo, hadds] using h
    | true =>
      have hmodify : (sums.modify front.length (· + μ.score d)).toList =
          front ++ [(f d).1 + μ.score d] ++ ids.map fun d => (f d).1 := by
        rw [Array.toList_modify, hsums, List.modify_eq_take_drop, List.take_left, List.drop_left]
        simp
      have hset : (hits.setIfInBounds front.length true).toList =
          marks ++ [true] ++ ids.map (fun d => (f d).2) ++ tail := by
        rw [Array.toList_setIfInBounds, hhits, ← hmarks, List.set_append_right _ _ (Nat.le_refl _),
          Nat.sub_self]
        simp
      have h := ih _ _ (front ++ [(f d).1 + μ.score d]) (marks ++ [true])
        (by simp [hmarks]) hmodify hset
      simp only [List.length_append, List.length_singleton, List.append_assoc,
        List.cons_append] at h ⊢
      simpa [Meaning.addTo, hadds, scatter] using h

/-- The sums of a chunk and the marks of its places, `f` telling both from an id. -/
structure Sums (ids : List DocId) (f : DocId → Float32 × Bool) (sums : Array Float32)
    (hits : Array Bool) : Prop where
  sums : sums.toList = ids.map fun d => (f d).1
  hits : ∃ tail, hits.toList = ids.map (fun d => (f d).2) ++ tail

theorem length_selected_le (checked : Bool) (μ : Meaning) (slot : Nat) (ids : List DocId) :
    (selected checked μ slot ids).length ≤ ids.length := by
  apply Nat.le_trans (List.length_filter_le _ _)
  rw [List.length_zipIdx]

/-- A match that is selected for no id changes no sum. -/
theorem Sums.of_selected_nil {checked : Bool} {ids : List DocId} {f : DocId → Float32 × Bool}
    {sums : Array Float32} {hits : Array Bool} (hf : Sums ids f sums hits)
    (h : selected checked μ 0 ids = []) :
    Sums ids (fun d => μ.addTo checked d (f d)) sums hits := by
  have hskip : ∀ d ∈ ids, f d = μ.addTo checked d (f d) := by
    intro d hd
    obtain ⟨i, hi, rfl⟩ := List.getElem_of_mem hd
    have hmem : (ids[i], i) ∈ ids.zipIdx :=
      List.mk_mem_zipIdx_iff_getElem?.mpr (List.getElem?_eq_getElem hi)
    have hno : ¬μ.adds checked ids[i] = true := List.filter_eq_nil_iff.mp h _ hmem
    exact (if_neg hno).symm
  obtain ⟨tail, htail⟩ := hf.hits
  refine ⟨?_, tail, ?_⟩
  · rw [hf.sums]
    apply List.map_congr_left
    intro d hd
    rw [← hskip d hd]
  · rw [htail]
    apply congrArg (· ++ tail)
    apply List.map_congr_left
    intro d hd
    rw [← hskip d hd]

theorem toList_extract_of_take {xs : Array α} {n : Nat} {front : List α}
    (h : xs.toList.take n = front) : (xs.extract 0 n).toList = front := by
  rw [Array.toList_extract, List.extract_eq_take_drop, List.drop_zero, Nat.sub_zero]
  exact h

/-- The ids that are noted are scored in the buffer of the scratch. -/
theorem score_noted (hm : Matcher.Stands μ m) {n : Nat} {s : ScoreScratch} (hs : Sized n s)
    {found : List (DocId × Nat)} (hle : found.length ≤ n) (hnoted : Noted found s) :
    ∃ m', Matcher.score m (s.ids.extract 0 found.length).toList
        (s.scores.extract 0 found.length) =
        (.ok (found.map (μ.score ∘ (·.1))).toArray, m') ∧ Matcher.Continues m m' := by
  have hids := toList_extract_of_take hnoted.ids
  have hroom : (s.scores.extract 0 found.length).size =
      (s.ids.extract 0 found.length).toList.length := by
    rw [hids, List.length_map, Array.size_extract, hs.scores]
    omega
  obtain ⟨m', hscore, hm'⟩ := hm.score_ok hroom
  refine ⟨m', ?_, hm'⟩
  rw [hscore, hids, List.map_map]

theorem addNoted_ok (hm : Matcher.Stands μ m) (checked : Bool) {n : Nat} {ids : List DocId}
    {f : DocId → Float32 × Bool} {sums : Array Float32} {s : ScoreScratch} (hs : Sized n s)
    (hle : (selected checked μ 0 ids).length ≤ n) (hf : Sums ids f sums s.hits)
    (hnoted : Noted (selected checked μ 0 ids) s) :
    ∃ sums' s' m', s.addNoted (selected checked μ 0 ids).length m sums = (.ok sums', s', m') ∧
      Sized n s' ∧ Sums ids (fun d => μ.addTo checked d (f d)) sums' s'.hits ∧
      Matcher.Continues m m' := by
  obtain ⟨m', hscore, hm'⟩ := score_noted hm hs hle hnoted
  obtain ⟨tail, htail⟩ := hf.hits
  obtain ⟨hsums', hhits'⟩ :=
    scatter_selected (μ := μ) checked sums s.hits [] [] rfl hf.sums htail
  rw [List.length_nil] at hsums' hhits'
  generalize selected checked μ 0 ids = found at hle hnoted hscore hsums' hhits' ⊢
  generalize hadded : (found.map (μ.score ∘ (·.1))).toArray = added at hscore
  have hsize : added.size ≤ s.scores.size := by
    rw [← hadded, hs.scores]
    simpa using hle
  have hzip : ((s.slots.extract 0 found.length).zip added).toList =
      found.map fun found => (found.2, μ.score found.1) := by
    rw [Array.toList_zip, toList_extract_of_take hnoted.slots, ← hadded]
    exact List.zip_map' ..
  generalize hscatter :
    scatter sums s.hits (found.map fun found => (found.2, μ.score found.1)) = result
    at hsums' hhits'
  refine ⟨result.1, { s with scores := overwrite added s.scores, hits := result.2 }, m', ?_,
    ⟨hs.ids, hs.slots, (size_overwrite hsize).trans hs.scores, ?_⟩, ⟨hsums', tail, hhits'⟩, hm'⟩
  · unfold addNoted
    simp only [hscore, hzip, hscatter]
  · rw [← hscatter, size_scatter]
    exact hs.hits

theorem addChild_ok (hm : Matcher.Stands μ m) (hscored : μ.scored = true) (checked : Bool) {n : Nat}
    {ids : List DocId} {f : DocId → Float32 × Bool} {sums : Array Float32} {s : ScoreScratch}
    (hs : Sized n s) (hn : ids.length ≤ n) (hf : Sums ids f sums s.hits) :
    ∃ sums' s' m', addChild checked ids m sums s = (.ok sums', s', m') ∧ Sized n s' ∧
      Sums ids (fun d => μ.addTo checked d (f d)) sums' s'.hits ∧ Matcher.Continues m m' := by
  obtain ⟨s₁, hg, hs₁, hhits, hnoted⟩ :=
    gather_ok hm.answers checked ids 0 hs (noted_nil s) (by rw [List.length_nil]; omega)
  have hle : (selected checked μ 0 ids).length ≤ n :=
    Nat.le_trans (length_selected_le checked μ 0 ids) hn
  rw [List.nil_append] at hg hnoted
  rw [← hhits] at hf
  unfold addChild
  rw [List.length_nil] at hg
  rw [hm.answers.isScored, hscored, if_pos rfl, hg]
  split
  · rename_i e s' h
    cases h
  · rename_i s' h
    obtain ⟨hnone, rfl⟩ := Prod.mk.inj h
    have hnil := List.eq_nil_of_length_eq_zero (Except.ok.inj hnone)
    exact ⟨sums, s₁, m, rfl, hs₁, hf.of_selected_nil hnil, fun _ _ h => h⟩
  · rename_i count s' _ h
    obtain ⟨hcount, rfl⟩ := Prod.mk.inj h
    rw [← Except.ok.inj hcount]
    exact addNoted_ok hm checked hs₁ hle hf hnoted

/-! ### Several children -/

theorem addChildren_ok (checked : Bool) {n : Nat} {ids : List DocId} (hn : ids.length ≤ n)
    {μs : List Meaning} {ms : List M} (hms : List.Forall₂ Matcher.Stands μs ms)
    {f : DocId → Float32 × Bool} {sums : Array Float32} {s : ScoreScratch} (hs : Sized n s)
    (hf : Sums ids f sums s.hits) :
    ∃ sums' s' ms', addChildren checked ids sums s ms = (.ok sums', s', ms') ∧ Sized n s' ∧
      Sums ids (fun d => (μs.filter (·.scored)).foldl (Meaning.addTo checked d) (f d)) sums'
        s'.hits ∧
      List.Forall₂ Matcher.Continues ms ms' := by
  induction hms generalizing f sums s with
  | nil => exact ⟨sums, s, [], rfl, hs, hf, .nil⟩
  | @cons μ m μs ms hm _ ih =>
    rw [List.filter_cons]
    cases hscored : μ.scored with
    | false =>
      obtain ⟨sums', s', ms', hrest, hs', hf', hms'⟩ := ih hs hf
      have hskip : addChild checked ids m sums s = (.ok sums, s, m) := by
        rw [addChild, hm.answers.isScored, hscored]
        rfl
      refine ⟨sums', s', m :: ms', ?_, hs', hf', .cons (fun _ _ h => h) hms'⟩
      simp only [addChildren, hskip, hrest]
    | true =>
      obtain ⟨sums₁, s₁, m', hadd, hs₁, hf₁, hm'⟩ := addChild_ok hm hscored checked hs hn hf
      obtain ⟨sums', s', ms', hrest, hs', hf', hms'⟩ := ih hs₁ hf₁
      refine ⟨sums', s', m' :: ms', ?_, hs', hf', .cons hm' hms'⟩
      simp only [addChildren, hadd, hrest]

theorem any_isScored {μs : List Meaning} {ms : List M}
    (hms : List.Forall₂ Matcher.Answers μs ms) :
    ms.any Matcher.isScored = μs.any (·.scored) := by
  induction hms with
  | nil => rfl
  | cons hm _ ih => rw [List.any_cons, List.any_cons, hm.isScored, ih]

theorem sumChunk_ok (checked : Bool) {n : Nat} {ids : List DocId} {buffer : List Float32}
    (hn : ids.length ≤ n) (hb : buffer.length = ids.length) {μs : List Meaning} {ms : List M}
    (hms : List.Forall₂ Matcher.Stands μs ms) {s : ScoreScratch} (hs : Sized n s) :
    ∃ s' ms', sumChunk checked ms ids buffer s =
        (.ok (ids.map (Meaning.sum checked μs)), s', ms') ∧
      Sized n s' ∧ List.Forall₂ Matcher.Continues ms ms' := by
  let cleared : ScoreScratch :=
    { s with hits := overwrite (.replicate ids.length false) s.hits }
  have hcleared : Sized n cleared := by
    refine ⟨hs.ids, hs.slots, hs.scores, (size_overwrite ?_).trans hs.hits⟩
    rw [Array.size_replicate, hs.hits]
    exact hn
  have hstart : Sums ids (fun _ => (0, false)) (.replicate buffer.length 0) cleared.hits := by
    refine ⟨?_, s.hits.toList.drop ids.length, ?_⟩
    · rw [Array.toList_replicate, hb, List.map_const']
    · rw [toList_overwrite, Array.toList_replicate, Array.size_replicate, List.map_const']
  obtain ⟨sums, s', ms', hadd, hs', hf, hms'⟩ :=
    addChildren_ok checked hn hms hcleared hstart
  refine ⟨s', ms', ?_, hs', hms'⟩
  obtain ⟨tail, htail⟩ := hf.hits
  unfold sumChunk
  simp only [hadd, cleared, Except.map]
  refine congrArg (fun scores => (Except.ok scores, s', ms')) ?_
  rw [Array.toList_zipWith, hf.sums, htail]
  have hlen : ∀ (f : DocId → Float32) (g : DocId → Bool), (ids.map f).length = (ids.map g).length := by
    intro f g
    rw [List.length_map, List.length_map]
  rw [← List.append_nil (ids.map fun d => ((μs.filter (·.scored)).foldl _ (0, false)).1),
    List.zipWith_append (hlen _ _), List.zipWith_nil_left, List.append_nil, List.zipWith_map,
    List.zipWith_self]
  apply List.map_congr_left
  intro d _
  exact (Meaning.sum_eq_foldl checked μs d).symm

theorem sumChunks_ok (checked : Bool) {n : Nat} (hpos : 0 < n) {ids : List DocId}
    {buffer : List Float32} (hb : buffer.length = ids.length) {μs : List Meaning} {ms : List M}
    (hms : List.Forall₂ Matcher.Stands μs ms) {s : ScoreScratch} (hs : Sized n s) :
    ∃ s' ms', sumChunks checked ms s ((chunks n ids).zip (chunks n buffer)) =
        (.ok (ids.map (Meaning.sum checked μs)), s', ms') ∧
      Sized n s' ∧ List.Forall₂ Matcher.Continues ms ms' := by
  fun_induction chunks n ids generalizing buffer s ms with
  | case1 => exact ⟨s, ms, rfl, hs, Matcher.continues_refl ms⟩
  | case2 d ids ih =>
    obtain ⟨b, buffer, rfl⟩ := List.exists_cons_of_length_eq_add_one hb
    rw [chunks_cons, List.zip_cons_cons]
    have hlen : buffer.length = ids.length := Nat.succ.inj hb
    have htake : (b :: buffer.take (n - 1)).length = (d :: ids.take (n - 1)).length := by
      simp only [List.length_cons, List.length_take, hlen]
    have hfits : (d :: ids.take (n - 1)).length ≤ n := by
      simp only [List.length_cons, List.length_take]
      omega
    obtain ⟨s₁, ms₁, hchunk, hs₁, hms₁⟩ := sumChunk_ok checked hfits htake hms hs
    have hdrop : (buffer.drop (n - 1)).length = (ids.drop (n - 1)).length := by
      rw [List.length_drop, List.length_drop, hlen]
    obtain ⟨s', ms', hrest, hs', hms'⟩ := ih hdrop (Matcher.stands_continues hms hms₁) hs₁
    refine ⟨s', ms', ?_, hs', Matcher.continues_trans hms₁ hms'⟩
    simp only [sumChunks, hchunk, hrest, Except.map]
    rw [← List.map_append, List.cons_append, List.take_append_drop]

/-- A combination gives each id the sum of what its scored children give it, and the children go on
as before. -/
theorem sumScores_ok (checked : Bool) {n : Nat} (hpos : 0 < n) {s : ScoreScratch} (hs : Sized n s)
    {μs : List Meaning} {ms : List M} (hms : List.Forall₂ Matcher.Stands μs ms)
    (ids : List DocId) (buffer : Array Float32) :
    ∃ s' ms', s.sumScores checked ms ids buffer =
        ((Matcher.checkSlots ids buffer).map fun _ =>
          (ids.map (Meaning.sum checked μs)).toArray, s', ms') ∧
      Sized n s' ∧ List.Forall₂ Matcher.Continues ms ms' := by
  unfold sumScores Matcher.checkSlots
  by_cases hb : buffer.size = ids.length
  · rw [if_pos hb, any_isScored (Matcher.answers_of_stands hms)]
    dsimp only
    cases hany : μs.any (·.scored) with
    | true =>
      rw [if_pos rfl, capacity, hs.ids]
      obtain ⟨s', ms', hsum, hs', hms'⟩ :=
        sumChunks_ok checked hpos (by simpa using hb : buffer.toList.length = ids.length) hms hs
      refine ⟨s', ms', ?_, hs', hms'⟩
      simp only [hsum, Except.map]
    | false =>
      rw [if_neg Bool.false_ne_true]
      have hneutral :
          ids.map (Meaning.sum checked μs) = List.replicate buffer.size neutralScore := by
        rw [hb, ← List.map_const']
        apply List.map_congr_left
        intro d _
        exact Meaning.sum_of_none hany checked d
      refine ⟨s, ms, ?_, hs, Matcher.continues_refl ms⟩
      rw [hneutral, List.toArray_replicate]
      rfl
  · rw [if_neg hb]
    exact ⟨s, ms, rfl, hs, Matcher.continues_refl ms⟩

end ScoreScratch

end Concordance
