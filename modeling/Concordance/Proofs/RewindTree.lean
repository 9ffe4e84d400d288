import Concordance.Proofs.Scratch
import Concordance.Proofs.Tree

/-!
# Match trees rewind

Every kind of match rewinds when its children do, and so do trees of any height: `Tree.rewinds`. A
failure of a child, in whatever call, changes nothing about that.
-/

namespace Concordance

open Matcher (Rewinds RewindsAt)

/-! ### Matches of several terms -/

namespace MultiTermMatch

theorem reset_fill (m : MultiTermMatch) (n : Nat) :
    IdSource.reset (IdSource.fill m n).2 = IdSource.reset m := by
  have hterms : (m.terms.fill n).2.reset = m.terms.reset := by
    rw [Union.reset_eq, Union.reset_eq, Union.batch_fill,
      Union.matchers_fill TermMatch.reset_fill]
  exact congrArg (fun terms => { m with terms }) hterms

theorem reset_reset (m : MultiTermMatch) :
    IdSource.reset (IdSource.reset m) = IdSource.reset m := by
  have hterms : m.terms.reset.reset = m.terms.reset := by
    have hmatchers : m.terms.reset.matchers.map IdSource.reset =
        m.terms.matchers.map IdSource.reset := by
      rw [Union.matchers_reset, List.map_map]
      exact List.map_congr_left fun term _ => term.reset_reset
    rw [Union.reset_eq, hmatchers, Union.reset_eq m.terms]
  exact congrArg (fun terms => { m with terms }) hterms

theorem length_addTerm {function : ScoreFunction} {totalDocs : UInt64} {term : TermMatch}
    {ids : List DocId} {scores added : List Float32}
    (h : addTerm function totalDocs term ids scores = .ok added) :
    added.length = scores.length := by
  induction ids generalizing scores added with
  | nil =>
    rw [addTerm] at h
    · rw [← Except.ok.inj h]
    · simp
  | cons d ids ih =>
    cases scores with
    | nil =>
      rw [addTerm] at h
      · rw [← Except.ok.inj h]
      · simp
    | cons first scores =>
      rw [addTerm] at h
      split at h
      · cases h
      · cases hrest : addTerm function totalDocs term ids scores with
        | error e =>
          rw [hrest] at h
          cases h
        | ok more =>
          rw [hrest] at h
          rw [← Except.ok.inj h, List.length_cons, List.length_cons, ih hrest]

theorem length_addTerms {function : ScoreFunction} {totalDocs : UInt64} {terms : List TermMatch}
    {ids : List DocId} {scores added : List Float32}
    (h : addTerms function totalDocs ids terms scores = .ok added) :
    added.length = scores.length := by
  induction terms generalizing scores with
  | nil => rw [← Except.ok.inj h]
  | cons term terms ih =>
    unfold addTerms at h
    split at h
    · cases h
    · rename_i sums hterm
      rw [ih h, length_addTerm hterm]

theorem size_score {m : MultiTermMatch} {ids : List DocId} {buffer scores : Array Float32}
    (h : m.score ids buffer = .ok scores) : scores.size = buffer.size := by
  unfold MultiTermMatch.score at h
  split at h
  · exact Matcher.size_neutralScores h
  · rename_i function totalDocs _
    cases hslots : Matcher.checkSlots ids buffer with
    | error e =>
      rw [hslots] at h
      cases h
    | ok _ =>
      rw [hslots] at h
      cases hadd : addTerms function totalDocs ids m.terms.matchers (.replicate buffer.size 0) with
      | error e =>
        simp only [bind, Except.bind, hadd] at h
        cases h
      | ok sums =>
        simp only [bind, Except.bind, hadd] at h
        rw [← Except.ok.inj h, List.size_toArray, length_addTerms hadd, List.length_replicate]

theorem rewinds : Rewinds (id : MultiTermMatch → MultiTermMatch) := fun m => by
  refine Matcher.rewindsAt_id m.reset_fill m.reset_reset (fun _ _ => rfl) ?_
    fun _ _ _ hr => Nat.le_of_eq (size_score hr)
  intro ids buffer buffer' hb
  show MultiTermMatch.score m ids buffer = MultiTermMatch.score m ids buffer'
  unfold MultiTermMatch.score
  rw [Matcher.neutralScores_congr ids hb, Matcher.checkSlots, Matcher.checkSlots, hb]

end MultiTermMatch

/-! ### Intersection -/

namespace AndMatch

variable {M : Type} [Matcher M] {blank : M → M}

def map (blank : M → M) (m : AndMatch M) : AndMatch M where
  before := m.before.map blank
  driver := blank m.driver
  after := m.after.map blank
  scratch := m.scratch.blank

omit [Matcher M] in
theorem children_map (blank : M → M) (m : AndMatch M) :
    (m.map blank).children = m.children.map blank := by
  rw [children, children, List.map_append, List.map_cons]
  rfl

omit [Matcher M] in
theorem withChildren_map (blank : M → M) (m : AndMatch M) (scratch : ScoreScratch)
    (children : List M) : (m.withChildren scratch children).map blank =
      (m.map blank).withChildren scratch.blank (children.map blank) := by
  have hlen : (m.map blank).before.length = m.before.length := List.length_map _
  unfold withChildren
  rw [hlen, ← List.map_drop]
  cases children.drop m.before.length with
  | nil => rfl
  | cons driver after =>
    rw [List.map_cons]
    dsimp only [map]
    rw [List.map_take]

theorem scored_eq (m : AndMatch M) (ids : List DocId) (buffer : Array Float32) :
    (Matcher.score m ids buffer).2 =
      m.withChildren (m.scratch.sumScores false m.children ids buffer).2.1
        (m.scratch.sumScores false m.children ids buffer).2.2 := rfl

variable (h : Rewinds blank)

include h

theorem fill_map (m : AndMatch M) (n : Nat) :
    (m.map blank).fill n = ((m.fill n).1, (m.fill n).2.map blank) := by
  obtain ⟨before, driver, after, scratch⟩ := m
  have htest : (fun d => Matcher.evaluateAll d (before.map blank ++ after.map blank)) =
      fun d => Matcher.evaluateAll d (before ++ after) := by
    funext d
    rw [← List.map_append, Matcher.evaluateAll_map h]
  simp only [map, fill, htest]
  rw [IdSource.fillKept_map fun m n => (h m).fill n]

theorem map_scored {m m' : AndMatch M} (hm : m.map blank = m'.map blank) (ids : List DocId)
    {buffer buffer' : Array Float32} (hb : buffer.size = buffer'.size) :
    (Matcher.score m ids buffer).1 = (Matcher.score m' ids buffer').1 ∧
      (Matcher.score m ids buffer).2.map blank = (Matcher.score m' ids buffer').2.map blank := by
  have hchildren : m.children.map blank = m'.children.map blank := by
    rw [← children_map, hm, children_map]
  have hscratch : m.scratch.blank = m'.scratch.blank := congrArg AndMatch.scratch hm
  obtain ⟨hresult, hscratch, hrest⟩ :=
    ScoreScratch.sumScores_agrees h false hscratch hchildren ids hb
  refine ⟨hresult, ?_⟩
  -- The shape is that of the match before the call; only scratch and children are new.
  rw [scored_eq, scored_eq, withChildren_map, withChildren_map, hm, hscratch.blank, hrest]

omit h in
/-- Intersections that have the same once their children are reset. -/
theorem map_reset_congr {m m' : AndMatch M}
    (hbefore : m.before.map (blank ∘ IdSource.reset) = m'.before.map (blank ∘ IdSource.reset))
    (hdriver : (blank ∘ IdSource.reset) m.driver = (blank ∘ IdSource.reset) m'.driver)
    (hafter : m.after.map (blank ∘ IdSource.reset) = m'.after.map (blank ∘ IdSource.reset))
    (hscratch : m.scratch.blank = m'.scratch.blank) :
    (IdSource.reset m).map blank = (IdSource.reset m').map blank := by
  have hmap : ∀ m : AndMatch M, (IdSource.reset m).map blank =
      ⟨m.before.map (blank ∘ IdSource.reset), (blank ∘ IdSource.reset) m.driver,
        m.after.map (blank ∘ IdSource.reset), m.scratch.blank⟩ := by
    intro m
    rw [← List.map_map, ← List.map_map]
    rfl
  rw [hmap, hmap, hbefore, hdriver, hafter, hscratch]

omit [Matcher M] h in
theorem scratch_withChildren (m : AndMatch M) (scratch : ScoreScratch) (children : List M) :
    (m.withChildren scratch children).scratch = scratch := by
  unfold withChildren
  split <;> rfl

theorem map_reset_scored (m : AndMatch M) (ids : List DocId) (buffer : Array Float32) :
    (IdSource.reset (Matcher.score m ids buffer).2).map blank = (IdSource.reset m).map blank := by
  have hchildren := ScoreScratch.map_sumScores (f := blank ∘ IdSource.reset)
    (fun m => (h m).scored) false m.scratch m.children ids buffer
  have hscratch := ScoreScratch.blank_sumScores h false m.scratch m.children ids buffer
  rw [scored_eq]
  generalize m.scratch.sumScores false m.children ids buffer = sums at hchildren hscratch ⊢
  obtain ⟨hbefore, hdriver, hafter⟩ := map_withChildren hchildren
  apply map_reset_congr hbefore hdriver hafter
  rw [scratch_withChildren, hscratch]

theorem rewinds : Rewinds (map blank) := fun m =>
  { fill := fill_map h m
    reset := by
      show AndMatch.mk ((m.before.map blank).map _) _ ((m.after.map blank).map _) _ =
        AndMatch.mk ((m.before.map _).map blank) _ ((m.after.map _).map blank) _
      rw [Matcher.reset_map h, Matcher.reset_map h]
      exact congrArg (fun driver => AndMatch.mk _ driver _ _) (h m.driver).reset
    evaluate := fun d => by
      show Matcher.evaluateAll d (m.map blank).children = Matcher.evaluateAll d m.children
      rw [children_map, Matcher.evaluateAll_map h]
    isScored := by
      show (m.map blank).children.any _ = m.children.any _
      rw [children_map, Matcher.any_isScored_map h]
    cost := (h m.driver).cost
    score := fun ids _ _ hm hb => map_scored h hm ids hb
    size := ScoreScratch.size_sumScores_le
    filled := fun n => by
      have hdriver := IdSource.fillKept_keeps (f := blank ∘ IdSource.reset)
        (fun m n => (h m).filled n) (fun d => Matcher.evaluateAll d (m.before ++ m.after)) n
        m.driver
      exact map_reset_congr rfl hdriver rfl rfl
    scored := map_reset_scored h m
    rewound := map_reset_congr (Matcher.map_rewound h m.before) (h m.driver).rewound
      (Matcher.map_rewound h m.after) rfl }

end AndMatch

/-! ### Union -/

namespace OrMatch

variable {M : Type} [Matcher M] {blank : M → M}

def map (blank : M → M) (m : OrMatch M) : OrMatch M where
  union := m.union.map blank
  scratch := m.scratch.blank
  cost := m.cost

theorem scored_eq (m : OrMatch M) (ids : List DocId) (buffer : Array Float32) :
    (Matcher.score m ids buffer).2 =
      ⟨m.union.withMatchers (m.scratch.sumScores true m.union.matchers ids buffer).2.2,
        (m.scratch.sumScores true m.union.matchers ids buffer).2.1, m.cost⟩ := rfl

variable (h : Rewinds blank)

include h

theorem map_scored {m m' : OrMatch M} (hm : m.map blank = m'.map blank) (ids : List DocId)
    {buffer buffer' : Array Float32} (hb : buffer.size = buffer'.size) :
    (Matcher.score m ids buffer).1 = (Matcher.score m' ids buffer').1 ∧
      (Matcher.score m ids buffer).2.map blank = (Matcher.score m' ids buffer').2.map blank := by
  obtain ⟨hunion, hscratch, hcost⟩ := OrMatch.mk.inj hm
  have hmatchers : m.union.matchers.map blank = m'.union.matchers.map blank := by
    rw [← Union.matchers_map, hunion, Union.matchers_map]
  obtain ⟨hresult, hscratch, hrest⟩ :=
    ScoreScratch.sumScores_agrees h true hscratch hmatchers ids hb
  refine ⟨hresult, ?_⟩
  rw [scored_eq, scored_eq, map, map, Union.map_withMatchers, Union.map_withMatchers, hunion,
    hscratch.blank, hrest, hcost]

omit h in
/-- Unions that have the same once their children are reset. -/
theorem map_reset_congr {m m' : OrMatch M}
    (hmatchers : m.union.matchers.map (blank ∘ IdSource.reset) =
      m'.union.matchers.map (blank ∘ IdSource.reset))
    (hbatch : m.union.batch = m'.union.batch) (hscratch : m.scratch.blank = m'.scratch.blank)
    (hcost : m.cost = m'.cost) : (IdSource.reset m).map blank = (IdSource.reset m').map blank := by
  show OrMatch.mk (m.union.reset.map blank) m.scratch.blank m.cost =
    OrMatch.mk (m'.union.reset.map blank) m'.scratch.blank m'.cost
  rw [Union.map_reset_congr hmatchers hbatch, hscratch, hcost]

theorem map_reset_scored (m : OrMatch M) (ids : List DocId) (buffer : Array Float32) :
    (IdSource.reset (Matcher.score m ids buffer).2).map blank = (IdSource.reset m).map blank := by
  have hchildren := ScoreScratch.map_sumScores (f := blank ∘ IdSource.reset)
    (fun m => (h m).scored) true m.scratch m.union.matchers ids buffer
  have hscratch := ScoreScratch.blank_sumScores h true m.scratch m.union.matchers ids buffer
  rw [scored_eq]
  generalize m.scratch.sumScores true m.union.matchers ids buffer = sums at hchildren hscratch ⊢
  have hlen : sums.2.2.length = m.union.matchers.length := by
    simpa using congrArg List.length hchildren
  refine map_reset_congr ?_ rfl hscratch rfl
  rw [Union.matchers_withMatchers hlen, hchildren]

theorem rewinds : Rewinds (map blank) := fun m =>
  { fill := fun n =>
      congrArg (fun filled => (filled.1, OrMatch.mk filled.2 m.scratch.blank m.cost))
        (Union.fill_map (fun m => (h m).fill) n m.union)
    reset :=
      congrArg (fun union => OrMatch.mk union m.scratch.blank m.cost)
        (Union.map_reset (fun m => (h m).reset) m.union)
    evaluate := fun d => by
      show Matcher.evaluateAny d (m.union.map blank).matchers = _
      rw [Union.matchers_map, Matcher.evaluateAny_map h]
      rfl
    isScored := by
      show (m.union.map blank).matchers.any _ = _
      rw [Union.matchers_map, Matcher.any_isScored_map h]
      rfl
    cost := rfl
    score := fun ids _ _ hm hb => map_scored h hm ids hb
    size := ScoreScratch.size_sumScores_le
    filled := fun n => by
      refine map_reset_congr ?_ (Union.batch_fill n m.union) rfl rfl
      exact Union.matchers_fill (f := blank ∘ IdSource.reset) (fun m => (h m).filled) n m.union
    scored := map_reset_scored h m
    rewound := by
      refine map_reset_congr ?_ rfl rfl rfl
      show m.union.reset.matchers.map _ = _
      rw [Union.matchers_reset, Matcher.map_rewound h] }

end OrMatch

/-! ### Exclusion and boosts -/

namespace AndNotMatch

variable {M : Type} [Matcher M] {blank : M → M}

def map (blank : M → M) (m : AndNotMatch M) : AndNotMatch M where
  base := blank m.base
  exclusion := blank m.exclusion

theorem admits_map (h : Rewinds blank) (m : M) : admits (blank m) = admits m := by
  funext d
  rw [admits, admits, (h m).evaluate]

theorem rewinds (h : Rewinds blank) : Rewinds (map blank) := fun m =>
  { fill := fun n => by
      show AndNotMatch.fill _ n = ((AndNotMatch.fill m n).1, (AndNotMatch.fill m n).2.map blank)
      obtain ⟨base, exclusion⟩ := m
      simp only [map, fill, admits_map h]
      rw [IdSource.fillKept_map fun m n => (h m).fill n]
    reset := congrArg₂ AndNotMatch.mk (h m.base).reset (h m.exclusion).reset
    evaluate := fun d => by
      show AndNotMatch.evaluate _ d = AndNotMatch.evaluate m d
      unfold AndNotMatch.evaluate
      rw [map, (h m.base).evaluate, admits_map h]
    isScored := (h m.base).isScored
    cost := (h m.base).cost
    score := fun ids _ _ hm hb => by
      obtain ⟨hbase, hexclusion⟩ := AndNotMatch.mk.inj hm
      obtain ⟨hresult, hrest⟩ := (h m.base).score ids hbase hb
      exact ⟨hresult, congrArg₂ AndNotMatch.mk hrest hexclusion⟩
    size := (h m.base).size
    filled := fun n =>
      congrArg (AndNotMatch.mk · _) (IdSource.fillKept_keeps (f := blank ∘ IdSource.reset)
        (fun m => (h m).filled) (admits m.exclusion) n m.base)
    scored := fun ids buffer => congrArg (AndNotMatch.mk · _) ((h m.base).scored ids buffer)
    rewound := congrArg₂ AndNotMatch.mk (h m.base).rewound (h m.exclusion).rewound }

end AndNotMatch

theorem Boost.size_apply_le (docFreq : UInt64) (ids : List DocId) (scores : Array Float32)
    (boost : Boost) : (boost.apply docFreq ids scores).size ≤ scores.size := by
  cases boost with
  | constant factor => exact Nat.le_of_eq Array.size_map
  | function f totalDocs =>
    unfold Boost.apply
    rw [Array.size_zipWith]
    exact Nat.min_le_right _ _

namespace BoostMatch

variable {M : Type} [Matcher M] {blank : M → M}

def map (blank : M → M) (m : BoostMatch M) : BoostMatch M where
  inner := blank m.inner
  boost := m.boost

theorem score_eq (m : BoostMatch M) (ids : List DocId) (buffer : Array Float32) :
    Matcher.score m ids buffer =
      ((Matcher.score m.inner ids buffer).1.map fun scores =>
          m.boost.apply (Matcher.cost (Matcher.score m.inner ids buffer).2) ids scores,
        ⟨(Matcher.score m.inner ids buffer).2, m.boost⟩) := rfl

theorem rewinds (h : Rewinds blank) : Rewinds (map blank) := fun m =>
  { fill := fun n =>
      congrArg (fun filled => (filled.1, BoostMatch.mk filled.2 m.boost)) ((h m.inner).fill n)
    reset := congrArg (BoostMatch.mk · m.boost) (h m.inner).reset
    evaluate := (h m.inner).evaluate
    isScored := rfl
    cost := (h m.inner).cost
    score := fun {m'} ids buffer buffer' hm hb => by
      obtain ⟨hinner, hboost⟩ := BoostMatch.mk.inj hm
      obtain ⟨hresult, hrest⟩ := (h m.inner).score ids hinner hb
      have hcost : Matcher.cost (Matcher.score m.inner ids buffer).2 =
          Matcher.cost (Matcher.score m'.inner ids buffer').2 := by
        rw [← (h _).cost, hrest, (h _).cost]
      rw [score_eq, score_eq, hresult, hcost, hboost]
      exact ⟨rfl, congrArg (BoostMatch.mk · m'.boost) hrest⟩
    size := fun {ids buffer scores} hr => by
      rw [score_eq] at hr
      cases hscore : (Matcher.score m.inner ids buffer).1 with
      | error e =>
        rw [hscore] at hr
        cases hr
      | ok found =>
        rw [hscore] at hr
        rw [← Except.ok.inj hr]
        exact Nat.le_trans (Boost.size_apply_le ..) ((h m.inner).size hscore)
    filled := fun n => congrArg (BoostMatch.mk · m.boost) ((h m.inner).filled n)
    scored := fun ids buffer => congrArg (BoostMatch.mk · m.boost) ((h m.inner).scored ids buffer)
    rewound := congrArg (BoostMatch.mk · m.boost) (h m.inner).rewound }

end BoostMatch

/-! ### Trees -/

/-- A constructor that hands every call on keeps what can be said of resetting. -/
theorem Matcher.Embeds.rewindsAt {S T : Type} [Matcher S] [Matcher T] {g : S → T} (hg : Embeds g)
    {blank : T → T} {inner : S → S} (hmap : ∀ s, blank (g s) = g (inner s))
    (hinv : ∀ {s t}, blank (g s) = blank t → ∃ s', t = g s' ∧ inner s = inner s')
    (h : Rewinds inner) (s : S) : RewindsAt blank (g s) where
  fill n := by rw [hmap, hg.fill, (h s).fill, hg.fill, hmap]
  reset := by rw [hmap, hg.reset, (h s).reset, hg.reset, hmap]
  evaluate d := by rw [hmap, hg.evaluate, (h s).evaluate, hg.evaluate]
  isScored := by rw [hmap, hg.isScored, (h s).isScored, hg.isScored]
  cost := by rw [hmap, hg.cost, (h s).cost, hg.cost]
  score ids _ _ hm hb := by
    obtain ⟨s', rfl, hs⟩ := hinv hm
    obtain ⟨hresult, hrest⟩ := (h s).score ids hs hb
    rw [hg.score, hg.score, hmap, hmap]
    exact ⟨hresult, congrArg g hrest⟩
  size hr := by
    rw [hg.score] at hr
    exact (h s).size hr
  filled n := by rw [hg.fill, hg.reset, hg.reset, hmap, hmap, (h s).filled]
  scored ids buffer := by rw [hg.score, hg.reset, hg.reset, hmap, hmap, (h s).scored]
  rewound := by rw [hg.reset, hg.reset, hmap, hmap, (h s).rewound]

namespace Node

variable {M : Type} [Matcher M] {blank : M → M}

/-- Empties the buffers of a match, with `blank` for its children. -/
def map (blank : M → M) : Node M → Node M
  | none m => none m
  | all m => all m
  | term m => term m
  | multiTerm m => multiTerm m
  | and m => and (m.map blank)
  | or m => or (m.map blank)
  | andNot m => andNot (m.map blank)
  | boost m => boost (m.map blank)

theorem rewinds (h : Rewinds blank) : Rewinds (map blank) := by
  rintro (m | m | m | m | m | m | m | m)
  case none =>
    refine embeds_none.rewindsAt (fun _ => rfl) ?_ NoMatch.rewinds m
    rintro s (s' | _ | _ | _ | _ | _ | _ | _) ⟨⟩
    exact ⟨_, rfl, rfl⟩
  case all =>
    refine embeds_all.rewindsAt (fun _ => rfl) ?_ AllMatch.rewinds m
    rintro s (_ | s' | _ | _ | _ | _ | _ | _) ⟨⟩
    exact ⟨_, rfl, rfl⟩
  case term =>
    refine embeds_term.rewindsAt (fun _ => rfl) ?_ TermMatch.rewinds m
    rintro s (_ | _ | s' | _ | _ | _ | _ | _) ⟨⟩
    exact ⟨_, rfl, rfl⟩
  case multiTerm =>
    refine embeds_multiTerm.rewindsAt (fun _ => rfl) ?_ MultiTermMatch.rewinds m
    rintro s (_ | _ | _ | s' | _ | _ | _ | _) ⟨⟩
    exact ⟨_, rfl, rfl⟩
  case and =>
    refine embeds_and.rewindsAt (fun _ => rfl) ?_ (AndMatch.rewinds h) m
    intro s t ht
    cases t with
    | and s' => exact ⟨s', rfl, Node.and.inj ht⟩
    | _ => cases ht
  case or =>
    refine embeds_or.rewindsAt (fun _ => rfl) ?_ (OrMatch.rewinds h) m
    intro s t ht
    cases t with
    | or s' => exact ⟨s', rfl, Node.or.inj ht⟩
    | _ => cases ht
  case andNot =>
    refine embeds_andNot.rewindsAt (fun _ => rfl) ?_ (AndNotMatch.rewinds h) m
    intro s t ht
    cases t with
    | andNot s' => exact ⟨s', rfl, Node.andNot.inj ht⟩
    | _ => cases ht
  case boost =>
    refine embeds_boost.rewindsAt (fun _ => rfl) ?_ (BoostMatch.rewinds h) m
    intro s t ht
    cases t with
    | boost s' => exact ⟨s', rfl, Node.boost.inj ht⟩
    | _ => cases ht

end Node

namespace Tree

def blank : (n : Nat) → Tree n → Tree n
  | 0 => Node.map (M := Empty) id
  | n + 1 => Node.map (M := Tree n) (blank n)

theorem rewinds (n : Nat) : Rewinds (blank n) := by
  induction n with
  | zero => exact Node.rewinds (M := Empty) fun m => m.elim
  | succ n ih => exact Node.rewinds (M := Tree n) ih

end Tree

end Concordance
