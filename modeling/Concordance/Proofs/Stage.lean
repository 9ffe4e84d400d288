import Mathlib
import Concordance.Index.Snapshot
import Concordance.Proofs.Leaves
import Concordance.Proofs.Ordering

/-!
# Ordering stages

A stage answers calls from the entries it keeps, whenever its match is drained and in whatever
batches: `OrderBy.stands_step`. By a comparer that orders entries these are the first of all, so
that the stage serves its match ranked: `OrderBy.run_ranking`.
-/

namespace Concordance

/-! ### Matches that are ordered -/

/-- What a stage relies on: a relation between the states of a match and the ids it has left that
every batch keeps, and calls that answer by a service. A call may also fail. -/
structure Matcher.Follows {M : Type} [Matcher M] (σ : Service) (R : M → List DocId → Prop) :
    Prop where
  fill {m m' : M} {rest ids : List DocId} {n : Nat} : R m rest →
    IdSource.fill m n = (.ok ids, m') →
    ∃ k, ids = rest.take k ∧ R m' (rest.drop k) ∧ (0 < n → rest ≠ [] → 0 < k)
  evaluate {m : M} {rest : List DocId} {d : DocId} {matched : Bool} : R m rest →
    Matcher.evaluate m d = .ok matched → matched = decide (d ∈ σ.ids)
  score {m m' : M} {rest ids : List DocId} {buffer scores : Array Float32} : R m rest →
    Matcher.score m ids buffer = (.ok scores, m') →
    buffer.size = ids.length ∧ scores = (ids.map σ.score).toArray ∧ R m' rest

/-- A match that serves nothing when something is asked for has nothing left. -/
theorem Matcher.Follows.exhausted {M : Type} [Matcher M] {σ : Service} {R : M → List DocId → Prop}
    (h : Follows σ R) {m m' : M} {rest : List DocId} {n : Nat} (hn : 0 < n) (hm : R m rest)
    (hf : IdSource.fill m n = (.ok [], m')) : rest = [] ∧ R m' [] := by
  obtain ⟨k, hnil, hm', hpos⟩ := h.fill hm hf
  cases rest with
  | nil =>
    rw [List.drop_nil] at hm'
    exact ⟨rfl, hm'⟩
  | cons d rest =>
    have hk := hpos hn (List.cons_ne_nil d rest)
    rcases List.take_eq_nil_iff.mp hnil.symm with hzero | hempty
    · omega
    · cases hempty

theorem Matcher.follows_means {M : Type} [Matcher M] {μ : Meaning} :
    Follows (M := M) (Match.service μ) (Means μ) where
  fill hm hf := by
    obtain ⟨k, m', hf', hm', -, hpos⟩ := means_upholds.progresses hm _
    obtain ⟨hids, rfl⟩ := Prod.mk.inj (hf.symm.trans hf')
    exact ⟨k, Except.ok.inj hids, hm', hpos⟩
  evaluate hm h := by
    rw [(means_upholds.answers hm).evaluate] at h
    exact (Except.ok.inj h).symm
  score {m m' rest ids buffer scores} hm h := by
    have hanswer := (means_upholds.answers hm).score ids buffer
    have hm' := means_upholds.scored ids buffer hm
    rw [h] at hm'
    rw [h, checkSlots] at hanswer
    split at hanswer
    · rename_i hsize
      exact ⟨hsize, Except.ok.inj hanswer, hm'⟩
    · cases hanswer

namespace OrderBy

variable {M : Type} [Matcher M] {o : OrderBy M} {σ : Service} {R : M → List DocId → Prop}

/-! ### Draining -/

theorem batchScores_ok (hR : Matcher.Follows σ R) {m m' : M} {rest ids : List DocId}
    {scores : List Float32} (hm : R m rest) (h : o.batchScores m ids = (.ok scores, m')) :
    scores = ids.map (o.scoreOf σ) ∧ R m' rest := by
  unfold batchScores at h
  unfold scoreOf
  cases hneeds : o.comparer.needsScores with
  | true =>
    rw [hneeds, if_pos rfl] at h
    rcases hs : Matcher.score m ids (.replicate ids.length 0) with ⟨result, m₁⟩
    rw [hs] at h
    obtain ⟨hresult, rfl⟩ := Prod.mk.inj h
    cases result with
    | error e => cases hresult
    | ok written =>
      obtain ⟨-, hwritten, hm₁⟩ := hR.score hm hs
      rw [← Except.ok.inj hresult, hwritten]
      exact ⟨rfl, hm₁⟩
  | false =>
    rw [hneeds] at h
    obtain ⟨hscores, rfl⟩ := Prod.mk.inj h
    exact ⟨(Except.ok.inj hscores).symm, hm⟩

section Equations

variable {seq : Nat} {entries kept : Array SortEntry} {m m₁ m₂ : M} {d : DocId} {ids : List DocId}
  {scores : List Float32} {e : Failure}

theorem drainFrom_of_fill_error (hf : IdSource.fill m o.batch = (.error e, m₁)) :
    o.drainFrom seq entries m = (.error e, m₁) := by
  rw [drainFrom]
  split <;> simp_all

theorem drainFrom_of_drained (hf : IdSource.fill m o.batch = (.ok [], m₁)) :
    o.drainFrom seq entries m = (.ok entries, m₁) := by
  rw [drainFrom]
  split <;> simp_all

theorem drainFrom_of_score_error (hf : IdSource.fill m o.batch = (.ok (d :: ids), m₁))
    (hs : o.batchScores m₁ (d :: ids) = (.error e, m₂)) :
    o.drainFrom seq entries m = (.error e, m₂) := by
  rw [drainFrom]
  split <;> simp_all
  split <;> simp_all

theorem drainFrom_of_collect_error (hf : IdSource.fill m o.batch = (.ok (d :: ids), m₁))
    (hs : o.batchScores m₁ (d :: ids) = (.ok scores, m₂))
    (hc : o.collectBatch seq entries ((d :: ids).zip scores) = .error e) :
    o.drainFrom seq entries m = (.error e, m₂) := by
  rw [drainFrom]
  split <;> simp_all
  split <;> simp_all

theorem drainFrom_of_collect (hf : IdSource.fill m o.batch = (.ok (d :: ids), m₁))
    (hs : o.batchScores m₁ (d :: ids) = (.ok scores, m₂))
    (hc : o.collectBatch seq entries ((d :: ids).zip scores) = .ok kept) :
    o.drainFrom seq entries m = o.drainFrom (seq + (ids.length + 1)) kept m₂ := by
  rw [drainFrom]
  split <;> simp_all
  split <;> simp_all

end Equations

/-- Draining a match that does not fail collects the entries of all documents it has left, whatever
the batches. -/
theorem drainFrom_ok (hR : Matcher.Follows σ R) (hbatch : 0 < o.batch) {seq : Nat}
    {entries found : Array SortEntry} {m m' : M} {rest : List DocId} (hm : R m rest)
    (h : o.drainFrom seq entries m = (.ok found, m')) :
    found = (o.entriesFrom σ seq rest).foldl o.collect entries ∧ R m' [] := by
  fun_induction o.drainFrom seq entries m generalizing rest with
  | case1 | case3 | case4 => cases h
  | case2 seq entries m m₁ hf =>
    obtain ⟨rfl, hm₁⟩ := hR.exhausted hbatch hm hf
    obtain ⟨hfound, rfl⟩ := Prod.mk.inj h
    exact ⟨(Except.ok.inj hfound).symm, hm₁⟩
  | case5 seq entries m d ids m₁ hf scores m₂ hs kept hc ih =>
    obtain ⟨k, hids, hm₁, -⟩ := hR.fill hm hf
    obtain ⟨rfl, hm₂⟩ := batchScores_ok hR hm₁ hs
    obtain ⟨hfound, hm'⟩ := ih hm₂ h
    have hread := readable_of_collectBatch hc
    rw [List.map_fst_zip (Nat.le_of_eq (List.length_map _).symm)] at hread
    rw [collectBatch_of_readable hread] at hc
    refine ⟨?_, hm'⟩
    rw [hfound, ← Except.ok.inj hc, ← List.foldl_append]
    conv => rhs; rw [← List.take_append_drop k rest, ← hids, entriesFrom_append]
    rfl

/-! ### Calls -/

def service (o : OrderBy M) (σ : Service) : Service where
  ids := (o.kept σ).map (·.docId)
  score := σ.score

/-- A stage made as `o` that has `rest` still to serve. Until something is asked for that needs the
entries the match is untouched. -/
inductive Stands (o : OrderBy M) (σ : Service) (R : M → List DocId → Prop) :
    OrderBy M → List DocId → Prop
  | fresh {m : M} : R m σ.ids →
      Stands o σ R { o with inner := m, entries := none, rest := [] } ((o.kept σ).map (·.docId))
  | drained {m : M} {left : List DocId} (todo : List SortEntry) : R m left →
      Stands o σ R { o with inner := m, entries := some (o.kept σ), rest := todo }
        (todo.map (·.docId))

variable {o' : OrderBy M} {rest : List DocId}

omit [Matcher M] in
theorem Stands.inner (h : Stands o σ R o' rest) : ∃ left, R o'.inner left := by
  cases h with
  | fresh hm => exact ⟨_, hm⟩
  | drained _ hm => exact ⟨_, hm⟩

omit [Matcher M] in
theorem Stands.withInner (h : Stands o σ R o' rest) {m : M}
    (hm : ∀ left, R o'.inner left → R m left) : Stands o σ R { o' with inner := m } rest := by
  cases h with
  | fresh hr => exact .fresh (hm _ hr)
  | drained todo hr => exact .drained todo (hm _ hr)

theorem Stands.materialize (hR : Matcher.Follows σ R) (hbatch : 0 < o.batch)
    (h : Stands o σ R o' rest) {entries : List SortEntry} (hok : o'.materialize.1 = .ok entries) :
    ∃ m left todo, R m left ∧ rest = todo.map (·.docId) ∧ o'.materialize =
      (.ok (o.kept σ), { o with inner := m, entries := some (o.kept σ), rest := todo }) := by
  cases h with
  | @drained m left todo hm => exact ⟨m, left, todo, hm, rfl, rfl⟩
  | @fresh m hm =>
    unfold OrderBy.materialize at hok ⊢
    dsimp only at hok ⊢
    split at hok
    · cases hok
    · rename_i found m' hdrain
      let fresh : OrderBy M := { o with inner := m, entries := none, rest := [] }
      obtain ⟨hfound, hm'⟩ := drainFrom_ok (o := fresh) hR hbatch hm hdrain
      subst hfound
      exact ⟨m', [], o.kept σ, hm', rfl, rfl⟩

theorem fill_ok_iff {n : Nat} :
    (∃ ids, (o'.fill n).1 = .ok ids) ↔ ∃ entries, o'.materialize.1 = .ok entries := by
  unfold OrderBy.fill
  rcases o'.materialize with ⟨result, o''⟩
  cases result with
  | error e =>
    constructor
    · rintro ⟨_, h⟩
      cases h
    · rintro ⟨_, h⟩
      cases h
  | ok entries => exact ⟨fun _ => ⟨entries, rfl⟩, fun _ => ⟨_, rfl⟩⟩

theorem evaluate_ok_iff {k : Nat} (htake : o'.take = some k) {d : DocId} :
    (∃ matched, (o'.evaluate d).1 = .ok matched) ↔ ∃ entries, o'.materialize.1 = .ok entries := by
  unfold OrderBy.evaluate
  rw [htake]
  rcases o'.materialize with ⟨result, o''⟩
  cases result with
  | error e =>
    constructor
    · rintro ⟨_, h⟩
      cases h
    · rintro ⟨_, h⟩
      cases h
  | ok entries => exact ⟨fun _ => ⟨entries, rfl⟩, fun _ => ⟨_, rfl⟩⟩

theorem fill_refines (hR : Matcher.Follows σ R) (hbatch : 0 < o.batch) {n : Nat} {ids : List DocId}
    (h : Stands o σ R o' rest) (hok : (o'.fill n).1 = .ok ids) :
    Refines (o.service σ) (Stands o σ R) o' rest (.fill n) := by
  obtain ⟨entries, hentries⟩ := fill_ok_iff.mp ⟨ids, hok⟩
  obtain ⟨m, left, todo, hm, rfl, hmat⟩ := h.materialize hR hbatch hentries
  have hfill : o'.fill n = (.ok ((todo.map (·.docId)).take n),
      { o with inner := m, entries := some (o.kept σ), rest := todo.drop n }) := by
    unfold OrderBy.fill
    rw [hmat, ← List.map_take]
  apply refines_fill hfill
  rw [← List.map_drop]
  exact .drained _ hm

theorem evaluate_refines (hR : Matcher.Follows σ R) (hbatch : 0 < o.batch) {d : DocId}
    {matched : Bool} (h : Stands o σ R o' rest) (hok : (o'.evaluate d).1 = .ok matched) :
    Refines (o.service σ) (Stands o σ R) o' rest (.evaluate d) := by
  have hsame : o'.take = o.take := by cases h <;> rfl
  cases htake : o.take with
  | none =>
    obtain ⟨left, hm⟩ := h.inner
    have hinner : o'.evaluate d = (Matcher.evaluate o'.inner d, o') := by
      unfold OrderBy.evaluate
      rw [hsame, htake]
    have hmatched : Matcher.evaluate o'.inner d = .ok matched := by
      rw [hinner] at hok
      exact hok
    apply refines_evaluate _ h
    show o'.evaluate d = _
    rw [hinner, hmatched, hR.evaluate hm hmatched, service]
    simp only [mem_kept_of_none htake]
  | some k =>
    obtain ⟨entries, hentries⟩ := (evaluate_ok_iff (hsame.trans htake)).mp ⟨matched, hok⟩
    obtain ⟨m, left, todo, hm, rfl, hmat⟩ := h.materialize hR hbatch hentries
    apply refines_evaluate _ (.drained todo hm)
    show o'.evaluate d = _
    unfold OrderBy.evaluate
    rw [hsame.trans htake, hmat, service]
    dsimp only
    rw [any_docId]

theorem map_ok {f : α → β} {r : Except ε α} {b : β} (h : r.map f = .ok b) : ∃ a, r = .ok a := by
  cases r with
  | error e => cases h
  | ok a => exact ⟨a, rfl⟩

/-- A call on a stage that does not fail answers as the service of the stage. -/
theorem stands_step (hR : Matcher.Follows σ R) (hbatch : 0 < o.batch) (o' : OrderBy M)
    (rest : List DocId) (c : Call) (a : Answer) (h : Stands o σ R o' rest)
    (hok : (Callable.call o' c).1 = .ok a) : Refines (o.service σ) (Stands o σ R) o' rest c := by
  cases c with
  | fill n =>
    obtain ⟨ids, hids⟩ := map_ok hok
    exact fill_refines hR hbatch h hids
  | evaluate d =>
    obtain ⟨matched, hmatched⟩ := map_ok hok
    exact evaluate_refines hR hbatch h hmatched
  | score ids buffer =>
    obtain ⟨scores, hscores⟩ := map_ok hok
    obtain ⟨left, hm⟩ := h.inner
    obtain ⟨hsize, rfl, -⟩ := hR.score hm (Prod.ext hscores rfl)
    refine refines_score ?_ (h.withInner fun left hleft => ?_)
    · rw [Matcher.checkSlots, if_pos hsize]
      exact hscores
    · obtain ⟨-, -, hm'⟩ := hR.score hleft (Prod.ext hscores rfl)
      exact hm'
  | reset =>
    refine ⟨rfl, ?_⟩
    cases h with
    | fresh hm => exact .fresh hm
    | drained _ hm => exact .drained _ hm

/-! ### Matches that do not fail -/

variable {μ : Meaning}

theorem batchScores_total {m : M} (hm : Matcher.Means μ m rest) (ids : List DocId) :
    ∃ scores, (o.batchScores m ids).1 = .ok scores := by
  have ha := Matcher.means_upholds.answers hm
  unfold batchScores
  split
  · dsimp only
    rw [ha.score_ok Array.size_replicate]
    exact ⟨_, rfl⟩
  · exact ⟨_, rfl⟩

/-- Draining a match that does not fail fails only when a value cannot be read. -/
theorem drainFrom_total (seq : Nat) (entries : Array SortEntry) {m : M}
    (hm : Matcher.Means μ m rest) (hr : o.Readable rest) :
    ∃ found, (o.drainFrom seq entries m).1 = .ok found := by
  have hfill : ∀ {m : M} {rest : List DocId}, Matcher.Means μ m rest → ∃ k m',
      IdSource.fill m o.batch = (.ok (rest.take k), m') ∧ Matcher.Means μ m' (rest.drop k) := by
    intro m rest hm
    obtain ⟨k, m', hf, hm', -⟩ := Matcher.means_upholds.progresses hm o.batch
    exact ⟨k, m', hf, hm'⟩
  fun_induction o.drainFrom seq entries m generalizing rest with
  | case1 seq entries m e m' hf =>
    obtain ⟨_, _, hf', -⟩ := hfill hm
    rw [hf] at hf'
    cases hf'
  | case2 seq entries m m' hf => exact ⟨entries, rfl⟩
  | case3 seq entries m d ids m' hf e m₂ hs =>
    obtain ⟨k, m₁, hf', hm₁⟩ := hfill hm
    obtain ⟨-, rfl⟩ := Prod.mk.inj (hf.symm.trans hf')
    obtain ⟨_, hok⟩ := batchScores_total (o := o) hm₁ (d :: ids)
    rw [hs] at hok
    cases hok
  | case4 seq entries m d ids m' hf scores m₂ hs e hc =>
    obtain ⟨k, m₁, hf', hm₁⟩ := hfill hm
    obtain ⟨hids, rfl⟩ := Prod.mk.inj (hf.symm.trans hf')
    have hread : o.Readable (d :: ids) := by
      intro x hx
      rw [Except.ok.inj hids] at hx
      exact hr x (List.mem_of_mem_take hx)
    obtain ⟨rfl, -⟩ := batchScores_ok Matcher.follows_means hm₁ hs
    rw [collectBatch_of_readable hread] at hc
    cases hc
  | case5 seq entries m d ids m' hf scores m₂ hs kept hc ih =>
    obtain ⟨k, m₁, hf', hm₁⟩ := hfill hm
    obtain ⟨-, rfl⟩ := Prod.mk.inj (hf.symm.trans hf')
    obtain ⟨-, hm₂⟩ := batchScores_ok Matcher.follows_means hm₁ hs
    apply ih hm₂
    intro x hx
    exact hr x (List.mem_of_mem_drop hx)

theorem materialize_total (hr : o.Readable μ.ids)
    (h : Stands o (Match.service μ) (Matcher.Means μ) o' rest) :
    ∃ entries, o'.materialize.1 = .ok entries := by
  cases h with
  | drained _ hm => exact ⟨_, rfl⟩
  | @fresh m hm =>
    let fresh : OrderBy M := { o with inner := m, entries := none, rest := [] }
    obtain ⟨found, hfound⟩ := drainFrom_total (o := fresh) 0 #[] hm hr
    rcases hdrain : fresh.drainFrom 0 #[] m with ⟨result, m'⟩
    rw [hdrain] at hfound
    obtain rfl : result = .ok found := hfound
    refine ⟨fresh.finish found, ?_⟩
    show fresh.materialize.1 = _
    unfold OrderBy.materialize
    dsimp only
    rw [hdrain]

/-- Every call on a stage whose match does not fail and whose values can be read answers as the
service of the stage. -/
theorem stands_step_total (hbatch : 0 < o.batch) (hr : o.Readable μ.ids) (o' : OrderBy M)
    (rest : List DocId) (c : Call) (h : Stands o (Match.service μ) (Matcher.Means μ) o' rest) :
    Refines (o.service (Match.service μ)) (Stands o (Match.service μ) (Matcher.Means μ)) o' rest
      c := by
  obtain ⟨entries, hentries⟩ := materialize_total hr h
  obtain ⟨left, hm⟩ := h.inner
  have ha := Matcher.means_upholds.answers hm
  cases c with
  | fill n =>
    obtain ⟨ids, hids⟩ := fill_ok_iff.mpr ⟨entries, hentries⟩
    exact fill_refines Matcher.follows_means hbatch h hids
  | evaluate d =>
    have hok : ∃ matched, (o'.evaluate d).1 = .ok matched := by
      cases htake : o'.take with
      | some k => exact (evaluate_ok_iff htake).mpr ⟨entries, hentries⟩
      | none =>
        unfold OrderBy.evaluate
        rw [htake]
        exact ⟨_, ha.evaluate d⟩
    obtain ⟨matched, hmatched⟩ := hok
    exact evaluate_refines Matcher.follows_means hbatch h hmatched
  | score ids buffer =>
    exact refines_score (ha.score ids buffer)
      (h.withInner fun _ => Matcher.means_upholds.scored ids buffer)
  | reset => exact stands_step Matcher.follows_means hbatch o' rest .reset .rewound h rfl

/-! ### Runs -/

section

variable (m : M) (comparer : SortComparer) (reader : IndexReader) (take : Option Nat)
  (config : MatchConfig) (selection : Selection)

omit [Matcher M] in
theorem batch_pos : 0 < (ofMatch m comparer reader take config selection).batch :=
  Nat.lt_of_lt_of_le Nat.zero_lt_one (Nat.le_max_right _ _)

/-- A stage over a match that does not fail provides the entries it keeps. -/
theorem provides (hm : Matcher.Means μ m μ.ids)
    (hr : (ofMatch m comparer reader take config selection).Readable μ.ids) :
    let stage := ofMatch m comparer reader take config selection
    Provides (stage.service (Match.service μ)) stage (stage.service (Match.service μ)).ids :=
  ⟨_, stands_step_total (batch_pos m comparer reader take config selection) hr, .fresh hm⟩

def ranking (o : OrderBy M) (σ : Service) : Service where
  ids := (o.served σ).map (·.docId)
  score := σ.score

/-- A stage over a match that serves `σ.ids`, called without failing, serves the first of these in
the order of the comparer, ties in the order of the match. -/
theorem run_ranking (hR : Matcher.Follows σ R) (hm : R m σ.ids) [Std.TransCmp comparer.compare]
    (calls : List Call)
    (hok : ∀ r ∈ (Callable.run (ofMatch m comparer reader take config selection) calls).1,
      ∃ a, r = .ok a) :
    let stage := ofMatch m comparer reader take config selection
    (Callable.run stage calls).1 =
      ((stage.ranking σ).run (stage.ranking σ).ids calls).1 := by
  intro stage
  have hlawful : Std.TransCmp stage.comparer.compare :=
    inferInstanceAs (Std.TransCmp comparer.compare)
  have hranking : stage.service σ = stage.ranking σ := by
    rw [service, ranking, kept_eq_served]
  have hfresh : Stands stage σ R stage (stage.service σ).ids := .fresh hm
  have hstep := stands_step hR (batch_pos m comparer reader take config selection)
  rw [← hranking]
  exact (run_refines_of_ok hstep calls hfresh hok).1

end

def newest : SortComparer where
  name := "Newest"
  needsScores := false
  field := none
  compare a b := compareOn SortEntry.docId b a

instance : Std.TransCmp newest.compare :=
  inferInstanceAs (Std.TransCmp fun a b : SortEntry => compareOn SortEntry.docId b a)

/-- The two newest of three documents. -/
def newestTwo : OrderBy AllMatch :=
  ofMatch { bound := 3 } newest ({} : Index).reader (some 2) {}

theorem run_newestTwo :
    (∀ r ∈ (Callable.run newestTwo [.fill 1, .evaluate 0, .reset, .fill 5]).1, ∃ a, r = .ok a) ∧
      (Callable.run newestTwo [.fill 1, .evaluate 0, .reset, .fill 5]).1 =
        [.ok (.served [2]), .ok (.found false), .ok .rewound, .ok (.served [2, 1])] := by
  let μ := AllMatch.meaning 3
  let calls : List Call := [.fill 1, .evaluate 0, .reset, .fill 5]
  have hm : Matcher.Means μ ({ bound := 3 } : AllMatch) μ.ids := (AllMatch.serves 3).means
  have hread : newestTwo.Readable μ.ids := fun _ _ => rfl
  have hwell : ∀ c ∈ calls, c.WellFormed := by
    decide
  have hok := (provides _ newest _ (some 2) {} .bySorting hm hread).run_ok hwell
  refine ⟨hok, ?_⟩
  have hids : (newestTwo.ranking (Match.service μ)).ids = [2, 1] := by
    cbv
  have hrun := run_ranking _ newest _ (some 2) {} .bySorting Matcher.follows_means hm calls hok
  apply hrun.trans
  show (Service.run (newestTwo.ranking _) (newestTwo.ranking _).ids calls).1 = _
  generalize newestTwo.ranking (Match.service μ) = σ at hids ⊢
  obtain ⟨ids, score⟩ := σ
  obtain rfl : ids = [2, 1] := hids
  rfl

end OrderBy

end Concordance
