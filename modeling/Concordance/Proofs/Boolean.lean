import Concordance.Proofs.Scoring
import Concordance.Proofs.Union

/-!
# Boolean combinations

An intersection serves the ids that all its children have, a union those that one of them has and an
exclusion those of its base that the other child does not have: `AndMatch.serves`, `OrMatch.serves`
and `AndNotMatch.serves`. The children may serve batches of any size.
-/

namespace Concordance

open Matcher (Means)

/-! ### Filtering a source -/

theorem filterIds_ok {keep : DocId → Except Failure Bool} {p : DocId → Bool}
    (hk : ∀ d, keep d = .ok (p d)) (ids : List DocId) : filterIds keep ids = .ok (ids.filter p) := by
  induction ids with
  | nil => rfl
  | cons d ids ih =>
    rw [filterIds, hk, ih, List.filter_cons]
    rfl

namespace IdSource

variable {S : Type} [IdSource S] {R : S → List DocId → Prop}

/-- Filtering serves as many ids that pass the test as it is asked for, however many do not. -/
theorem fillKept_exact (hR : Feeds R) {keep : DocId → Except Failure Bool} {p : DocId → Bool}
    (hk : ∀ d, keep d = .ok (p d)) (n : Nat) {s : S} {all : List DocId} (h : R s all) :
    ∃ s' all', fillKept keep n s = (.ok ((all.filter p).take n), s') ∧ R s' all' ∧
      all'.filter p = (all.filter p).drop n := by
  fun_induction fillKept keep n s generalizing all with
  | case1 s => exact ⟨s, all, rfl, h, rfl⟩
  | case2 n s hn e s' hf =>
    obtain ⟨k, s₁, hok, _⟩ := hR h n (Nat.pos_of_ne_zero hn)
    rw [hf] at hok
    simp at hok
  | case3 n s hn s' hf =>
    obtain ⟨k, s₁, hok, hr, -, hk⟩ := hR h n (Nat.pos_of_ne_zero hn)
    rw [hf] at hok
    obtain ⟨hids, rfl⟩ := Prod.mk.inj hok
    obtain rfl : all = [] := by
      by_cases hnil : all = []
      · exact hnil
      · have hpos := hk hnil
        rcases List.take_eq_nil_iff.mp (Except.ok.inj hids).symm with hzero | hnil
        · omega
        · exact hnil
    rw [List.drop_nil] at hr
    exact ⟨s', [], by simp, hr, by simp⟩
  | case4 n s hn d ids s' hf e hkeep =>
    rw [filterIds_ok hk] at hkeep
    simp at hkeep
  | case5 n s hn d ids s₁ hf kept hkeep more s₂ hrest ih =>
    obtain ⟨k, _, hok, hr, hkn, -⟩ := hR h n (Nat.pos_of_ne_zero hn)
    rw [hf] at hok
    obtain ⟨hids, rfl⟩ := Prod.mk.inj hok
    rw [filterIds_ok hk, Except.ok.inj hids, Except.ok.injEq] at hkeep
    obtain ⟨s', all', hrec, hr', hdrop⟩ := ih hr
    rw [hrest] at hrec
    obtain ⟨hmore, rfl⟩ := Prod.mk.inj hrec
    have hlen : kept.length ≤ n := by
      rw [← hkeep]
      refine Nat.le_trans (List.length_filter_le _ _) ?_
      rw [List.length_take]
      omega
    have hsplit : all.filter p = kept ++ (all.drop k).filter p := by
      rw [← hkeep, ← List.filter_append, List.take_append_drop]
    refine ⟨s₂, all', ?_, hr', ?_⟩
    · rw [Except.ok.inj hmore, hsplit, List.take_append, List.take_of_length_le hlen]
    · rw [hdrop, hsplit, List.drop_append, List.drop_of_length_le hlen, List.nil_append]
  | case6 n s hn d ids s₁ hf kept hkeep e s₂ hrest ih =>
    obtain ⟨k, _, hok, hr, -⟩ := hR h n (Nat.pos_of_ne_zero hn)
    rw [hf] at hok
    obtain ⟨-, rfl⟩ := Prod.mk.inj hok
    obtain ⟨_, _, hrec, _⟩ := ih hr
    rw [hrest] at hrec
    simp at hrec

end IdSource

/-! ### Membership of several children -/

namespace Matcher

variable {M : Type} [Matcher M]

variable {μs : List Meaning} {ms : List M}

/-- Children that each know whether a list has an id know together whether all lists have it. -/
theorem evaluateAll_lists {lists : List (List DocId)} {d : DocId}
    (h : List.Forall₂ (fun ids m => evaluate m d = .ok (decide (d ∈ ids))) lists ms) :
    evaluateAll d ms = .ok (decide (∀ ids ∈ lists, d ∈ ids)) := by
  induction h with
  | nil => simp [evaluateAll]
  | @cons ids m lists ms hm _ ih =>
    rw [evaluateAll, hm, ih]
    by_cases hd : d ∈ ids
    · simp [hd]
    · simp [hd]

theorem evaluateAll_ok (h : List.Forall₂ Answers μs ms) (d : DocId) :
    evaluateAll d ms = .ok (decide (∀ ν ∈ μs, d ∈ ν.ids)) := by
  have hlists : List.Forall₂ (fun ids m => evaluate m d = .ok (decide (d ∈ ids)))
      (μs.map (·.ids)) ms :=
    List.forall₂_map_left_iff.mpr (h.imp fun _ _ hm => hm.evaluate d)
  rw [evaluateAll_lists hlists]
  exact congrArg Except.ok (decide_eq_decide.mpr List.forall_mem_map)

theorem evaluateAny_ok (h : List.Forall₂ Answers μs ms) (d : DocId) :
    evaluateAny d ms = .ok (decide (∃ ν ∈ μs, d ∈ ν.ids)) := by
  induction h with
  | nil => simp [evaluateAny]
  | @cons ν m μs ms hm _ ih =>
    rw [evaluateAny, hm.evaluate, ih]
    by_cases hd : d ∈ ν.ids
    · simp [hd]
    · simp [hd]

end Matcher

open Matcher (Stands Answers Continues Serves)

/-! ### Intersection -/

namespace Meaning

/-- The least cost of some matches, of which there is at least one. -/
def leastCost (μ : Meaning) : List Meaning → UInt64
  | [] => μ.cost
  | ν :: rest => if μ.cost ≤ leastCost ν rest then μ.cost else leastCost ν rest

structure Intersects (μ first : Meaning) (others : List Meaning) : Prop where
  mem_iff (d : DocId) : d ∈ μ.ids ↔ ∀ ν ∈ first :: others, d ∈ ν.ids
  score : μ.score = sum false (first :: others)
  scored : μ.scored = (first :: others).any (·.scored)
  cost : μ.cost = leastCost first others

end Meaning

namespace AndMatch

variable {M : Type} [Matcher M] {before after : List Meaning} {driver : Meaning}

/-- Splitting off a cheapest child splits the meanings alike. -/
theorem splitCheapest_means {μ : Meaning} {m : M} {μs : List Meaning} {ms : List M}
    (hm : Means μ m μ.ids) (hms : List.Forall₂ (fun ν m => Means ν m ν.ids) μs ms) :
    ∃ before driver after, μ :: μs = before ++ driver :: after ∧
      driver.cost = Meaning.leastCost μ μs ∧
      List.Forall₂ Stands before (splitCheapest m ms).1 ∧
      Means driver (splitCheapest m ms).2.1 driver.ids ∧
      List.Forall₂ Stands after (splitCheapest m ms).2.2 := by
  induction hms generalizing μ m with
  | nil => exact ⟨[], μ, [], rfl, rfl, .nil, hm, .nil⟩
  | @cons ν next μs ms hnext hms ih =>
    obtain ⟨before, driver, after, hsplit, hcost, hbefore, hdriver, hafter⟩ := ih hnext
    have hcm := (Matcher.means_upholds.answers hm).cost
    have hcd := (Matcher.means_upholds.answers hdriver).cost
    simp only [splitCheapest, Meaning.leastCost, hcm, hcd, ← hcost]
    by_cases hle : μ.cost ≤ driver.cost
    · rw [if_pos hle, if_pos hle]
      exact ⟨[], μ, ν :: μs, rfl, rfl, .nil, hm, .cons ⟨_, hnext⟩ (hms.imp fun _ _ h => ⟨_, h⟩)⟩
    · rw [if_neg hle, if_neg hle]
      exact ⟨μ :: before, driver, after, congrArg (μ :: ·) hsplit, rfl, .cons ⟨_, hm⟩ hbefore,
        hdriver, hafter⟩

/-- A batch of an intersection is taken from the ids of the driver that pass the test on the other
children, whatever contract the driver keeps. -/
theorem fill_kept {R : M → List DocId → Prop} (hR : IdSource.Feeds R) {m : AndMatch M}
    {p : DocId → Bool}
    (ht : ∀ d, Matcher.evaluateAll d (m.before ++ m.after) = .ok (p d)) (n : Nat)
    {all : List DocId} (h : R m.driver all) :
    ∃ driver all', m.fill n = (.ok ((all.filter p).take n), { m with driver }) ∧ R driver all' ∧
      all'.filter p = (all.filter p).drop n := by
  obtain ⟨before, driver, after, scratch⟩ := m
  obtain ⟨driver', all', hf, hr, hdrop⟩ := IdSource.fillKept_exact hR ht n h
  refine ⟨driver', all', ?_, hr, hdrop⟩
  rw [fill, hf]

/-- An intersection that has `rest` still to serve: the driver has the ids, and the other children
only tell whether they have one. -/
structure Delivers (before : List Meaning) (driver : Meaning) (after : List Meaning)
    (m : AndMatch M) (rest : List DocId) : Prop where
  front : List.Forall₂ Stands before m.before
  driven : ∃ all, Means driver m.driver all ∧
    rest = all.filter fun d => decide (∀ ν ∈ before ++ after, d ∈ ν.ids)
  back : List.Forall₂ Stands after m.after
  scratch : ∃ n, 0 < n ∧ m.scratch.Sized n

theorem Delivers.children {m : AndMatch M} {rest : List DocId}
    (h : Delivers before driver after m rest) :
    List.Forall₂ Stands (before ++ driver :: after) m.children := by
  obtain ⟨all, hd, -⟩ := h.driven
  exact List.rel_append h.front (.cons ⟨all, hd⟩ h.back)

theorem delivers_exact : IdSource.Exact (Delivers (M := M) before driver after) := by
  rintro m rest ⟨hfront, ⟨all, hd, rfl⟩, hback, hscratch⟩ n
  have htested : List.Forall₂ Stands (before ++ after) (m.before ++ m.after) :=
    List.rel_append hfront hback
  have htest := Matcher.evaluateAll_ok (Matcher.answers_of_stands htested)
  obtain ⟨driver', all', hf, hd', hdrop⟩ :=
    fill_kept Matcher.means_upholds.progresses.feeds htest n hd
  exact ⟨_, hf, hfront, ⟨all', hd', hdrop.symm⟩, hback, hscratch⟩

/-- The ids of the intersection are those of its driver that the other children have. -/
theorem ids_eq_filter {μ first : Meaning} {others : List Meaning} (h : μ.Intersects first others)
    (hsplit : first :: others = before ++ driver :: after) :
    driver.ids.filter (fun d => decide (∀ ν ∈ before ++ after, d ∈ ν.ids)) = μ.ids := by
  apply (driver.ascending.filter _).eq_of_mem_iff μ.ascending
  intro d
  rw [h.mem_iff, hsplit, List.mem_filter, decide_eq_true_iff]
  constructor
  · rintro ⟨hd, hothers⟩ ν hν
    rcases List.mem_append.mp hν with hν | hν
    · exact hothers ν (List.mem_append_left _ hν)
    · rcases List.mem_cons.mp hν with rfl | hν
      · exact hd
      · exact hothers ν (List.mem_append_right _ hν)
  · intro hall
    refine ⟨hall driver (List.mem_append_right _ List.mem_cons_self), fun ν hν => hall ν ?_⟩
    rcases List.mem_append.mp hν with hν | hν
    · exact List.mem_append_left _ hν
    · exact List.mem_append_right _ (List.mem_cons_of_mem _ hν)

/-- Children that go on as before can take the place of those of an intersection. -/
theorem withChildren_delivers {m : AndMatch M} {rest : List DocId}
    (h : Delivers before driver after m rest) {scratch : ScoreScratch}
    (hscratch : ∃ n, 0 < n ∧ scratch.Sized n) {children : List M}
    (hc : List.Forall₂ Continues m.children children) :
    Delivers before driver after (m.withChildren scratch children) rest := by
  have hfront := List.forall₂_take m.before.length hc
  have hback := List.forall₂_drop m.before.length hc
  rw [AndMatch.children, List.take_left] at hfront
  rw [AndMatch.children, List.drop_left, List.forall₂_cons_left_iff] at hback
  obtain ⟨m', last, hm', hlast, hcons⟩ := hback
  obtain ⟨all, hd, hrest⟩ := h.driven
  rw [withChildren, hcons]
  exact ⟨Matcher.stands_continues h.front hfront, ⟨all, hm' hd, hrest⟩,
    Matcher.stands_continues h.back hlast, hscratch⟩

theorem score_delivers {m : AndMatch M} {rest : List DocId}
    (h : Delivers before driver after m rest) (ids : List DocId) (buffer : Array Float32) :
    ∃ m', m.score ids buffer = ((Matcher.checkSlots ids buffer).map fun _ =>
        (ids.map (Meaning.sum false (before ++ driver :: after))).toArray, m') ∧
      Delivers before driver after m' rest := by
  obtain ⟨n, hpos, hsized⟩ := h.scratch
  obtain ⟨scratch, children, hsum, hscratch, hchildren⟩ :=
    ScoreScratch.sumScores_ok false hpos hsized h.children ids buffer
  refine ⟨m.withChildren scratch children, ?_,
    withChildren_delivers h ⟨n, hpos, hscratch⟩ hchildren⟩
  rw [score, hsum]

theorem delivers_answers {μ first : Meaning} {others : List Meaning}
    (hμ : μ.Intersects first others) (hsplit : first :: others = before ++ driver :: after)
    (hcost : driver.cost = Meaning.leastCost first others) {m : AndMatch M} {rest : List DocId}
    (h : Delivers before driver after m rest) : Answers μ m := by
  have hchildren := Matcher.answers_of_stands h.children
  rw [← hsplit] at hchildren
  obtain ⟨all, hd, -⟩ := h.driven
  refine ⟨fun d => ?_, fun ids buffer => ?_, ?_, ?_⟩
  · show Matcher.evaluateAll d m.children = _
    rw [Matcher.evaluateAll_ok hchildren]
    exact congrArg Except.ok (decide_eq_decide.mpr (hμ.mem_iff d).symm)
  · obtain ⟨m', hscore, -⟩ := score_delivers h ids buffer
    rw [hμ.score, hsplit]
    exact congrArg Prod.fst hscore
  · rw [hμ.scored]
    exact ScoreScratch.any_isScored hchildren
  · rw [hμ.cost, ← hcost]
    exact (Matcher.means_upholds.answers hd).cost

theorem delivers_scored {m : AndMatch M} {rest : List DocId} (ids : List DocId)
    (buffer : Array Float32) (h : Delivers before driver after m rest) :
    Delivers before driver after (Matcher.score m ids buffer).2 rest := by
  obtain ⟨m', hscore, h'⟩ := score_delivers h ids buffer
  rwa [show Matcher.score m ids buffer = _ from hscore]

theorem serves {μ first : Meaning} {others : List Meaning} {m : M} {ms : List M}
    (hμ : μ.Intersects first others) (hm : Means first m first.ids)
    (hms : List.Forall₂ (fun ν m => Means ν m ν.ids) others ms) (scoreBatch : Nat) :
    Serves μ (ofCons m ms scoreBatch) μ.ids := by
  obtain ⟨before, driver, after, hsplit, hcost, hbefore, hdriver, hafter⟩ :=
    splitCheapest_means hm hms
  refine Matcher.serves_of_exact delivers_exact (fun h => ?_) delivers_scored
    (delivers_answers hμ hsplit hcost) ?_
  · obtain ⟨all, hd, -⟩ := h.driven
    exact ⟨Matcher.stands_reset h.front,
      ⟨driver.ids, Matcher.means_upholds.reset hd, (ids_eq_filter hμ hsplit).symm⟩,
      Matcher.stands_reset h.back, h.scratch⟩
  · exact ⟨hbefore, ⟨driver.ids, hdriver, (ids_eq_filter hμ hsplit).symm⟩, hafter,
      _, Nat.lt_of_lt_of_le Nat.zero_lt_one (Nat.le_max_right _ _), ScoreScratch.sized_ofCapacity _⟩

end AndMatch

/-! ### Union -/

namespace Meaning

structure Unites (μ : Meaning) (parts : List Meaning) : Prop where
  mem_iff (d : DocId) : d ∈ μ.ids ↔ ∃ ν ∈ parts, d ∈ ν.ids
  score : μ.score = sum true parts
  scored : μ.scored = parts.any (·.scored)
  cost : μ.cost = parts.foldl (fun n ν => n + ν.cost) 0

def idsAt (parts : List Meaning) (i : Nat) : List DocId := (parts[i]?.map (·.ids)).getD []

theorem sorted_idsAt (parts : List Meaning) (i : Nat) : (idsAt parts i).Pairwise (· ≤ ·) := by
  unfold idsAt
  cases parts[i]? with
  | none => exact .nil
  | some ν => exact ν.ascending.imp UInt64.le_of_lt

theorem merges_idsAt {parts : List Meaning} {ids : List DocId} (ha : Ascending ids)
    (h : ∀ d, d ∈ ids ↔ ∃ ν ∈ parts, d ∈ ν.ids) : Union.Merges (idsAt parts) ids := by
  refine ⟨ha, fun d => (h d).trans ⟨?_, ?_⟩⟩
  · rintro ⟨ν, hν, hd⟩
    obtain ⟨i, hi, rfl⟩ := List.getElem_of_mem hν
    exact ⟨i, by rw [idsAt, List.getElem?_eq_getElem hi]; exact hd⟩
  · rintro ⟨i, hd⟩
    unfold idsAt at hd
    cases hi : parts[i]? with
    | none => simp [hi] at hd
    | some ν => exact ⟨ν, List.mem_of_getElem? hi, by simpa [hi] using hd⟩

end Meaning

namespace Union

variable {M : Type} [Matcher M]

def Unites (parts : List Meaning) (u : Union M) (rest : List DocId) : Prop :=
  Delivers (fun i m ids => ∃ ν, parts[i]? = some ν ∧ Means ν m ids) parts.length u rest

variable {parts : List Meaning}

theorem unites_exact : IdSource.Exact (Unites (M := M) parts) := by
  refine exact (fun i => ?_) parts.length
  rintro m ids ⟨ν, hν, hm⟩ n hn
  obtain ⟨k, m', hf, hm', hk⟩ := Matcher.means_upholds.progresses.feeds.advances hm n hn
  exact ⟨k, m', hf, ⟨ν, hν, hm'⟩, hk⟩

theorem unites_reset {u : Union M} {rest ids : List DocId} (h : Unites parts u rest)
    (hm : Merges (Meaning.idsAt parts) ids) : Unites parts (IdSource.reset u) ids := by
  refine delivers_reset h (fun {i m ids} _ hr => ?_) (Meaning.sorted_idsAt parts) (fun i hi => ?_) hm
  · obtain ⟨ν, hν, hr⟩ := hr
    refine ⟨ν, hν, ?_⟩
    have := Matcher.means_upholds.reset hr
    rwa [Meaning.idsAt, hν]
  · rw [Meaning.idsAt, List.getElem?_eq_none hi]
    rfl

theorem unites_ofList {ms : List M} {ids : List DocId}
    (h : List.Forall₂ (fun ν m => Means ν m ν.ids) parts ms)
    (hm : Merges (Meaning.idsAt parts) ids) (batch : Nat) : Unites parts (ofList ms batch) ids := by
  unfold Unites
  rw [h.length_eq]
  refine delivers_ofList batch (fun i m hi => ?_) (Meaning.sorted_idsAt parts) (fun i hi => ?_) hm
  · obtain ⟨hlt, rfl⟩ := List.getElem?_eq_some_iff.mp hi
    have hlt' : i < parts.length := h.length_eq ▸ hlt
    refine ⟨parts[i], List.getElem?_eq_getElem hlt', ?_⟩
    rw [Meaning.idsAt, List.getElem?_eq_getElem hlt']
    exact h.get hlt' hlt
  · rw [Meaning.idsAt, List.getElem?_eq_none (h.length_eq ▸ hi)]
    rfl

theorem Unites.stands {u : Union M} {rest : List DocId} (h : Unites parts u rest) :
    List.Forall₂ Stands parts u.matchers := by
  have hlen : u.matchers.length = parts.length := by
    simpa [matchers] using h.1
  refine List.forall₂_iff_get.mpr ⟨hlen.symm, fun i hi hi' => ?_⟩
  have hlt : i < u.children.size := by simpa [matchers] using hi'
  obtain ⟨ids, ν, hν, hm⟩ := h.child (Array.getElem?_eq_getElem hlt)
  rw [List.getElem?_eq_getElem hi] at hν
  rw [List.get_eq_getElem, List.get_eq_getElem, Option.some.inj hν]
  exact ⟨ids, by simpa [matchers] using hm⟩

theorem unites_continues {u : Union M} {rest : List DocId} (h : Unites parts u rest) {ms : List M}
    (hms : List.Forall₂ Continues u.matchers ms) : Unites parts (u.withMatchers ms) rest := by
  apply delivers_withMatchers h
  apply hms.imp
  rintro m m' hm i ids ⟨ν, hν, hmeans⟩
  exact ⟨ν, hν, hm hmeans⟩

end Union

namespace OrMatch

variable {M : Type} [Matcher M] {μ : Meaning} {parts : List Meaning}

/-- A union, scored through its scratch, that has `rest` still to serve. -/
structure Delivers (μ : Meaning) (parts : List Meaning) (m : OrMatch M) (rest : List DocId) :
    Prop where
  union : Union.Unites parts m.union rest
  scratch : ∃ n, 0 < n ∧ m.scratch.Sized n
  cost : m.cost = μ.cost

theorem delivers_exact : IdSource.Exact (Delivers (M := M) μ parts) := by
  rintro ⟨union, scratch, cost⟩ rest ⟨hu, hscratch, hcost⟩ n
  obtain ⟨union', hf, hu'⟩ := Union.unites_exact hu n
  refine ⟨⟨union', scratch, cost⟩, ?_, hu', hscratch, hcost⟩
  show fill _ n = _
  change union.fill n = _ at hf
  rw [fill, hf]

theorem score_delivers {m : OrMatch M} {rest : List DocId} (h : Delivers μ parts m rest)
    (ids : List DocId) (buffer : Array Float32) :
    ∃ m', m.score ids buffer = ((Matcher.checkSlots ids buffer).map fun _ =>
        (ids.map (Meaning.sum true parts)).toArray, m') ∧ Delivers μ parts m' rest := by
  obtain ⟨union, scratch, cost⟩ := m
  obtain ⟨n, hpos, hsized⟩ := h.scratch
  obtain ⟨scratch', matchers, hsum, hscratch, hmatchers⟩ :=
    ScoreScratch.sumScores_ok true hpos hsized h.union.stands ids buffer
  refine ⟨⟨union.withMatchers matchers, scratch', cost⟩, ?_,
    Union.unites_continues h.union hmatchers, ⟨n, hpos, hscratch⟩, h.cost⟩
  rw [score, hsum]

theorem delivers_answers (hμ : μ.Unites parts) {m : OrMatch M} {rest : List DocId}
    (h : Delivers μ parts m rest) : Answers μ m := by
  have hchildren := Matcher.answers_of_stands h.union.stands
  refine ⟨fun d => ?_, fun ids buffer => ?_, ?_, h.cost⟩
  · show Matcher.evaluateAny d m.union.matchers = _
    rw [Matcher.evaluateAny_ok hchildren]
    exact congrArg Except.ok (decide_eq_decide.mpr (hμ.mem_iff d).symm)
  · obtain ⟨m', hscore, -⟩ := score_delivers h ids buffer
    rw [hμ.score]
    exact congrArg Prod.fst hscore
  · rw [hμ.scored]
    exact ScoreScratch.any_isScored hchildren

theorem delivers_scored {m : OrMatch M} {rest : List DocId} (ids : List DocId)
    (buffer : Array Float32) (h : Delivers μ parts m rest) :
    Delivers μ parts (Matcher.score m ids buffer).2 rest := by
  obtain ⟨m', hscore, h'⟩ := score_delivers h ids buffer
  rwa [show Matcher.score m ids buffer = _ from hscore]

theorem totalCost_eq {ms : List M} (h : List.Forall₂ Answers parts ms) :
    Matcher.totalCost ms = parts.foldl (fun n ν => n + ν.cost) 0 := by
  unfold Matcher.totalCost
  generalize (0 : UInt64) = start
  induction h generalizing start with
  | nil => rfl
  | cons hm _ ih => rw [List.foldl_cons, List.foldl_cons, hm.cost, ih]

theorem serves {ms : List M} (hμ : μ.Unites parts)
    (h : List.Forall₂ (fun ν m => Means ν m ν.ids) parts ms) (fillBatch scoreBatch : Nat) :
    Serves μ (ofList ms fillBatch scoreBatch) μ.ids := by
  have hm := Meaning.merges_idsAt μ.ascending hμ.mem_iff
  refine Matcher.serves_of_exact delivers_exact
    (fun hd => ⟨Union.unites_reset hd.union hm, hd.scratch, hd.cost⟩) delivers_scored
    (delivers_answers hμ) ?_
  refine ⟨Union.unites_ofList h hm fillBatch,
    ⟨_, Nat.lt_of_lt_of_le Nat.zero_lt_one (Nat.le_max_right _ _),
      ScoreScratch.sized_ofCapacity _⟩, ?_⟩
  rw [hμ.cost]
  exact totalCost_eq (h.imp fun _ _ hs => Matcher.means_upholds.answers hs)

end OrMatch

/-! ### Exclusion -/

namespace AndNotMatch

variable {M : Type} [Matcher M] {base exclusion : Meaning}

def meaning (base exclusion : Meaning) : Meaning :=
  { base with
    ids := base.ids.filter fun d => !decide (d ∈ exclusion.ids)
    ascending := base.ascending.filter _ }

/-- A batch of an exclusion is taken from the ids of the base that it admits, whatever contract the
base keeps. -/
theorem fill_kept {R : M → List DocId → Prop} (hR : IdSource.Feeds R) {m : AndNotMatch M}
    {p : DocId → Bool} (ht : ∀ d, admits m.exclusion d = .ok (p d)) (n : Nat) {all : List DocId}
    (h : R m.base all) :
    ∃ base all', m.fill n = (.ok ((all.filter p).take n), { m with base }) ∧ R base all' ∧
      all'.filter p = (all.filter p).drop n := by
  obtain ⟨base, exclusion⟩ := m
  obtain ⟨base', all', hf, hr, hdrop⟩ := IdSource.fillKept_exact hR ht n h
  refine ⟨base', all', ?_, hr, hdrop⟩
  rw [fill, hf]

structure Delivers (base exclusion : Meaning) (m : AndNotMatch M) (rest : List DocId) : Prop where
  based : ∃ all, Means base m.base all ∧ rest = all.filter fun d => !decide (d ∈ exclusion.ids)
  excluded : Stands exclusion m.exclusion

theorem admits_ok {m : M} (h : Stands exclusion m) (d : DocId) :
    admits m d = .ok !decide (d ∈ exclusion.ids) := by
  rw [admits, h.answers.evaluate]
  rfl

theorem delivers_exact : IdSource.Exact (Delivers (M := M) base exclusion) := by
  rintro m rest ⟨⟨all, hb, rfl⟩, hx⟩ n
  obtain ⟨base', all', hf, hb', hdrop⟩ :=
    fill_kept Matcher.means_upholds.progresses.feeds (admits_ok hx) n hb
  exact ⟨_, hf, ⟨all', hb', hdrop.symm⟩, hx⟩

theorem delivers_answers {m : AndNotMatch M} {rest : List DocId}
    (h : Delivers base exclusion m rest) : Answers (meaning base exclusion) m := by
  obtain ⟨all, hb, -⟩ := h.based
  have hbase := Matcher.means_upholds.answers hb
  refine ⟨fun d => ?_, hbase.score, hbase.isScored, hbase.cost⟩
  show evaluate m d = _
  rw [evaluate, hbase.evaluate, admits_ok h.excluded, meaning]
  by_cases hd : d ∈ base.ids <;> simp [hd]

theorem serves {m excluded : M} (hb : Means base m base.ids) (hx : Stands exclusion excluded) :
    Serves (meaning base exclusion) (⟨m, excluded⟩ : AndNotMatch M) (meaning base exclusion).ids := by
  refine Matcher.serves_of_exact delivers_exact (fun h => ?_) (fun ids buffer h => ?_)
    delivers_answers ⟨⟨base.ids, hb, rfl⟩, hx⟩
  · obtain ⟨all, hb, -⟩ := h.based
    exact ⟨⟨base.ids, Matcher.means_upholds.reset hb, rfl⟩, _, h.excluded.reset⟩
  · obtain ⟨all, hb, hrest⟩ := h.based
    exact ⟨⟨all, Matcher.means_upholds.scored ids buffer hb, hrest⟩, h.excluded⟩

end AndNotMatch

end Concordance
