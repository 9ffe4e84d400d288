import Concordance.Proofs.Stage

/-!
# Ordering stages that fail

A stage that fails while it drains its match loses the entries found so far, and the match stays
where the failure left it, also when the stage is reset. The next drain that succeeds orders what is
left, and the stage serves that from then on: `OrderBy.run_remaining`.
-/

namespace Concordance

/-- As `Follows`, and a failure may take ids from those the match has left but adds none. -/
structure Matcher.Recovers {M : Type} [Matcher M] (σ : Service) (R : M → List DocId → Prop) :
    Prop extends Matcher.Follows σ R where
  fill_error {m m' : M} {rest : List DocId} {n : Nat} {e : Failure} : R m rest →
    IdSource.fill m n = (.error e, m') → ∃ left, left.Sublist rest ∧ R m' left
  score_error {m m' : M} {rest ids : List DocId} {buffer : Array Float32} {e : Failure} :
    R m rest → Matcher.score m ids buffer = (.error e, m') → R m' rest

theorem Matcher.recovers_means {M : Type} [Matcher M] {μ : Meaning} :
    Recovers (M := M) (Match.service μ) (Means μ) where
  toFollows := follows_means
  fill_error hm hf := by
    obtain ⟨_, _, hf', -⟩ := means_upholds.progresses hm _
    cases hf.symm.trans hf'
  score_error {m m' rest ids buffer e} hm h := by
    have hm' := means_upholds.scored ids buffer hm
    rw [h] at hm'
    exact hm'

/-! ### Runs in which calls may fail -/

namespace Callable

variable {S : Type} [Callable S] {answer : List DocId → Call → Except Failure Answer × List DocId}
  {R : S → List DocId → Prop}

/-- Answers that are failures, which change nothing, or else by `answer`. -/
inductive Admits (answer : List DocId → Call → Except Failure Answer × List DocId) :
    List DocId → List Call → List (Except Failure Answer) → Prop
  | done {rest : List DocId} : Admits answer rest [] []
  | failed {rest : List DocId} {c : Call} {calls : List Call} {e : Failure}
      {answers : List (Except Failure Answer)} :
      Admits answer rest calls answers → Admits answer rest (c :: calls) (.error e :: answers)
  | answered {rest : List DocId} {c : Call} {calls : List Call}
      {answers : List (Except Failure Answer)} :
      Admits answer (answer rest c).2 calls answers →
      Admits answer rest (c :: calls) ((answer rest c).1 :: answers)

/-- One call of an admitted run: it fails and nothing changes, or it answers by `answer`. -/
def Allows (answer : List DocId → Call → Except Failure Answer × List DocId)
    (R : S → List DocId → Prop) (s : S) (rest : List DocId) (c : Call) : Prop :=
  (∃ e, (call s c).1 = .error e ∧ R (call s c).2 rest) ∨
    ((call s c).1 = (answer rest c).1 ∧ R (call s c).2 (answer rest c).2)

theorem Allows.admits {s : S} {rest : List DocId} {c : Call} {calls : List Call}
    {answers : List (Except Failure Answer)} (h : Allows answer R s rest c)
    (hlater : ∀ rest', R (call s c).2 rest' → Admits answer rest' calls answers) :
    Admits answer rest (c :: calls) ((call s c).1 :: answers) := by
  rcases h with ⟨e, he, hstate⟩ | ⟨hanswer, hstate⟩
  · rw [he]
    exact .failed (hlater _ hstate)
  · rw [hanswer]
    exact .answered (hlater _ hstate)

theorem run_admits (step : ∀ s rest c, R s rest → Allows answer R s rest c) (calls : List Call)
    {s : S} {rest : List DocId} (h : R s rest) : Admits answer rest calls (run s calls).1 := by
  induction calls generalizing s rest with
  | nil => exact .done
  | cons c calls ih => exact (step s rest c h).admits fun _ => ih

end Callable

/-- As `Service.answer`, but the members are others than the ids served. -/
def Service.answerAmong (σ : Service) (members rest : List DocId) :
    Call → Except Failure Answer × List DocId
  | .evaluate d => (.ok (.found (decide (d ∈ members))), rest)
  | c => σ.answer rest c

def Service.withIds (σ : Service) (ids : List DocId) : Service := { σ with ids }

namespace OrderBy

variable {M : Type} [Matcher M] {o : OrderBy M} {σ : Service} {R : M → List DocId → Prop}
  {m m' : M} {rest left : List DocId}

/-! ### Draining -/

theorem batchScores_error (hR : Matcher.Recovers σ R) {ids : List DocId} {e : Failure}
    (hm : R m rest) (h : o.batchScores m ids = (.error e, m')) : R m' rest := by
  unfold batchScores at h
  split at h
  · rcases hs : Matcher.score m ids (.replicate ids.length 0) with ⟨result, m₁⟩
    rw [hs] at h
    obtain ⟨hresult, rfl⟩ := Prod.mk.inj h
    cases result with
    | error e' => exact hR.score_error hm hs
    | ok written => cases hresult
  · cases (Prod.mk.inj h).1

/-- A drain that fails leaves the match with some of the ids it had. -/
theorem drainFrom_error (hR : Matcher.Recovers σ R) {seq : Nat} {entries : Array SortEntry}
    {e : Failure} (hm : R m rest) (h : o.drainFrom seq entries m = (.error e, m')) :
    ∃ left, left.Sublist rest ∧ R m' left := by
  fun_induction o.drainFrom seq entries m generalizing rest with
  | case1 seq entries m e₁ m₁ hf =>
    obtain ⟨-, rfl⟩ := Prod.mk.inj h
    exact hR.fill_error hm hf
  | case2 => cases h
  | case3 seq entries m d ids m₁ hf e₁ m₂ hs =>
    obtain ⟨k, -, hm₁, -⟩ := hR.fill hm hf
    obtain ⟨-, rfl⟩ := Prod.mk.inj h
    exact ⟨rest.drop k, List.drop_sublist k rest, batchScores_error hR hm₁ hs⟩
  | case4 seq entries m d ids m₁ hf scores m₂ hs e₁ hc =>
    obtain ⟨k, -, hm₁, -⟩ := hR.fill hm hf
    obtain ⟨-, hm₂⟩ := batchScores_ok hR.toFollows hm₁ hs
    obtain ⟨-, rfl⟩ := Prod.mk.inj h
    exact ⟨rest.drop k, List.drop_sublist k rest, hm₂⟩
  | case5 seq entries m d ids m₁ hf scores m₂ hs kept hc ih =>
    obtain ⟨k, -, hm₁, -⟩ := hR.fill hm hf
    obtain ⟨-, hm₂⟩ := batchScores_ok hR.toFollows hm₁ hs
    obtain ⟨left, hsub, hleft⟩ := ih hm₂ h
    exact ⟨left, hsub.trans (List.drop_sublist k rest), hleft⟩

/-- A drain succeeds only if the values of all documents it meets can be read. -/
theorem readable_of_drainFrom (hR : Matcher.Follows σ R) (hbatch : 0 < o.batch) {seq : Nat}
    {entries found : Array SortEntry} (hm : R m rest)
    (h : o.drainFrom seq entries m = (.ok found, m')) : o.Readable rest := by
  fun_induction o.drainFrom seq entries m generalizing rest with
  | case1 | case3 | case4 => cases h
  | case2 seq entries m m₁ hf =>
    obtain ⟨rfl, -⟩ := hR.exhausted hbatch hm hf
    exact fun d hd => (List.not_mem_nil hd).elim
  | case5 seq entries m d ids m₁ hf scores m₂ hs kept hc ih =>
    obtain ⟨k, hids, hm₁, -⟩ := hR.fill hm hf
    obtain ⟨rfl, hm₂⟩ := batchScores_ok hR hm₁ hs
    have hfront := readable_of_collectBatch hc
    rw [List.map_fst_zip (Nat.le_of_eq (List.length_map _).symm), hids] at hfront
    intro x hx
    rw [← List.take_append_drop k rest] at hx
    rcases List.mem_append.mp hx with hx | hx
    · exact hfront x hx
    · exact ih hm₂ h x hx

/-! ### Calls -/

/-- A stage made as `o` before its match is drained. -/
def waiting (o : OrderBy M) (m : M) : OrderBy M :=
  { o with inner := m, entries := none, rest := [] }

/-- A stage made as `o` with entries found, of which `todo` are still to be served. -/
def serving (o : OrderBy M) (m : M) (entries todo : List SortEntry) : OrderBy M :=
  { o with inner := m, entries := some entries, rest := todo }

/-- A stage made as `o` that was drained when its match had `left` to serve. -/
def Drained (o : OrderBy M) (σ : Service) (R : M → List DocId → Prop) (left : List DocId)
    (o' : OrderBy M) (rest : List DocId) : Prop :=
  ∃ m ids todo, R m ids ∧ rest = todo.map (·.docId) ∧
    o' = o.serving m (o.kept (σ.withIds left)) todo

/-- The ids a stage serves that was drained when its match had `left` to serve. -/
def rankedIds (o : OrderBy M) (σ : Service) (left : List DocId) : List DocId :=
  (o.service (σ.withIds left)).ids

/-- The answers of such a stage. Without a bound it asks its match for members. -/
def answer (o : OrderBy M) (σ : Service) (left : List DocId) :
    List DocId → Call → Except Failure Answer × List DocId :=
  (o.service (σ.withIds left)).answerAmong
    (if o.take.isSome then o.rankedIds σ left else σ.ids)

/-- Whether a call asks for the entries. -/
def needsEntries (o : OrderBy M) : Call → Bool
  | .fill _ => true
  | .evaluate _ => o.take.isSome
  | .score .. | .reset => false

/-- Calls that ask the match, or for nothing at all, are answered by the match in any state. -/
theorem allows_of_match (hR : Matcher.Recovers σ R) {P : OrderBy M → List DocId → Prop}
    (o' : OrderBy M) {ids : List DocId} {c : Call} (hc : o.needsEntries c = false)
    (htake : o'.take = o.take) (hm : R o'.inner ids)
    (hsame : ∀ m, R m ids → P { o' with inner := m } rest)
    (hreset : P o'.reset (o.rankedIds σ left)) : Callable.Allows (o.answer σ left) P o' rest c := by
  cases c with
  | fill n => cases hc
  | evaluate d =>
    have hnone : o.take = none := Option.isNone_iff_eq_none.mp (Option.isSome_eq_false_iff.mp hc)
    have hcall : Callable.call o' (.evaluate d) =
        ((Matcher.evaluate o'.inner d).map .found, o') := by
      show ((o'.evaluate d).1.map _, (o'.evaluate d).2) = _
      unfold OrderBy.evaluate
      rw [htake, hnone]
    have hanswer : o.answer σ left rest (.evaluate d) =
        (.ok (.found (decide (d ∈ σ.ids))), rest) := by
      rw [answer, hnone]
      rfl
    unfold Callable.Allows
    rw [hcall, hanswer]
    cases he : Matcher.evaluate o'.inner d with
    | error e => exact .inl ⟨e, rfl, hsame _ hm⟩
    | ok matched =>
      rw [hR.evaluate hm he]
      exact .inr ⟨rfl, hsame _ hm⟩
  | score slots buffer =>
    rcases hs : Matcher.score o'.inner slots buffer with ⟨result, m'⟩
    have hcall : Callable.call o' (.score slots buffer) =
        (result.map .scored, { o' with inner := m' }) := by
      show ((Matcher.score o'.inner slots buffer).1.map _,
        { o' with inner := (Matcher.score o'.inner slots buffer).2 }) = _
      rw [hs]
    unfold Callable.Allows
    rw [hcall]
    cases result with
    | error e => exact .inl ⟨e, rfl, hsame _ (hR.score_error hm hs)⟩
    | ok scores =>
      obtain ⟨hsize, rfl, hm'⟩ := hR.score hm hs
      refine .inr ⟨?_, hsame _ hm'⟩
      show _ = (Matcher.checkSlots slots buffer).map _
      rw [Matcher.checkSlots, if_pos hsize]
      rfl
  | reset => exact .inr ⟨rfl, hreset⟩

theorem drained_allows (hR : Matcher.Recovers σ R) (o' : OrderBy M) (rest : List DocId) (c : Call)
    (h : Drained o σ R left o' rest) :
    Callable.Allows (o.answer σ left) (Drained o σ R left) o' rest c := by
  obtain ⟨m, ids, todo, hm, rfl, rfl⟩ := h
  let entries := o.kept (σ.withIds left)
  cases hc : o.needsEntries c with
  | false =>
    apply allows_of_match hR (o.serving m entries todo) hc rfl hm
    · exact fun m' hm' => ⟨m', ids, todo, hm', rfl, rfl⟩
    · exact ⟨m, ids, _, hm, rfl, rfl⟩
  | true =>
    cases c with
    | fill n =>
      refine .inr ⟨?_, m, ids, todo.drop n, hm, List.map_drop.symm, rfl⟩
      exact congrArg (Except.ok ∘ Answer.served) List.map_take
    | evaluate d =>
      obtain ⟨k, htake⟩ := Option.isSome_iff_exists.mp hc
      have hcall : Callable.call (o.serving m entries todo) (.evaluate d) =
          (.ok (.found (entries.any (·.docId == d))), o.serving m entries todo) := by
        show ((OrderBy.evaluate _ d).1.map _, (OrderBy.evaluate _ d).2) = _
        unfold OrderBy.evaluate
        rw [show (o.serving m entries todo).take = some k from htake]
        rfl
      have hanswer : o.answer σ left (todo.map (·.docId)) (.evaluate d) =
          (.ok (.found (decide (d ∈ entries.map (·.docId)))), todo.map (·.docId)) := by
        rw [answer, htake]
        rfl
      unfold Callable.Allows
      rw [hcall, hanswer, any_docId]
      exact .inr ⟨rfl, m, ids, todo, hm, rfl, rfl⟩
    | score | reset => cases hc

/-- Draining a stage fails and leaves a part of the match, or leads to entries of all it has. -/
theorem materialize_waiting (hR : Matcher.Recovers σ R) (hbatch : 0 < o.batch) (hm : R m left) :
    (∃ e m' left', (o.waiting m).materialize = (.error e, o.waiting m') ∧
      left'.Sublist left ∧ R m' left') ∨
    (∃ m' ids, o.Readable left ∧ R m' ids ∧
      let entries := o.kept (σ.withIds left)
      (o.waiting m).materialize = (.ok entries, o.serving m' entries entries)) := by
  rcases hdrain : (o.waiting m).drainFrom 0 #[] m with ⟨result, m'⟩
  cases result with
  | error e =>
    obtain ⟨left', hsub, hm'⟩ := drainFrom_error hR hm hdrain
    refine .inl ⟨e, m', left', ?_, hsub, hm'⟩
    unfold OrderBy.materialize
    dsimp only [waiting] at hdrain ⊢
    rw [hdrain]
  | ok found =>
    have hread : (o.waiting m).Readable left := readable_of_drainFrom hR.toFollows hbatch hm hdrain
    obtain ⟨hfound, hm'⟩ := drainFrom_ok (o := o.waiting m) hR.toFollows hbatch hm hdrain
    have hentries : (o.waiting m).finish found = o.kept (σ.withIds left) := by
      rw [hfound]
      rfl
    refine .inr ⟨m', [], hread, hm', ?_⟩
    unfold OrderBy.materialize
    dsimp only [waiting] at hdrain hentries ⊢
    rw [hdrain]
    dsimp only
    rw [hentries]
    rfl

theorem call_error {o' : OrderBy M} {c : Call} {e : Failure} (hc : o.needsEntries c = true)
    (h : o.materialize = (.error e, o')) : Callable.call o c = (.error e, o') := by
  cases c with
  | fill n =>
    show ((o.fill n).1.map _, (o.fill n).2) = _
    unfold OrderBy.fill
    rw [h]
    rfl
  | evaluate d =>
    obtain ⟨k, htake⟩ := Option.isSome_iff_exists.mp hc
    show ((o.evaluate d).1.map _, (o.evaluate d).2) = _
    unfold OrderBy.evaluate
    rw [htake, h]
    rfl
  | score | reset => cases hc

/-- Once a stage is drained, it answers as if it always had been. -/
theorem call_again {o' : OrderBy M} {c : Call} (hc : o.needsEntries c = true)
    (h : o.materialize = o'.materialize) (htake : o'.take = o.take) :
    Callable.call o c = Callable.call o' c := by
  cases c with
  | fill n =>
    show ((o.fill n).1.map _, (o.fill n).2) = ((o'.fill n).1.map _, (o'.fill n).2)
    unfold OrderBy.fill
    rw [h]
  | evaluate d =>
    obtain ⟨k, hk⟩ := Option.isSome_iff_exists.mp hc
    show ((o.evaluate d).1.map _, (o.evaluate d).2) = ((o'.evaluate d).1.map _, (o'.evaluate d).2)
    unfold OrderBy.evaluate
    rw [htake, hk, h]
  | score | reset => cases hc

/-! ### Runs -/

/-- What the answers of a run say when the match of the stage had `ids` to serve at first, and
`left` when the stage was drained. -/
structure Remaining (o : OrderBy M) (σ : Service) (ids : List DocId) (calls : List Call)
    (answers : List (Except Failure Answer)) (left : List DocId) : Prop where
  sublist : left.Sublist ids
  /-- Every call that does not fail is answered from the entries of `left`. -/
  admits : Callable.Admits (o.answer σ left) (o.rankedIds σ left) calls answers
  /-- Nothing is lost while no call for entries fails. -/
  whole : (∀ c e, (c, .error e) ∈ calls.zip answers → o.needsEntries c = false) → left = ids
  /-- Nothing is served while the value of a document left cannot be read. -/
  readable {c : Call} {a : Answer} :
    (c, .ok a) ∈ calls.zip answers → o.needsEntries c = true → o.Readable left

namespace Remaining

variable {ids : List DocId} {c : Call} {calls : List Call}
  {answers : List (Except Failure Answer)}

omit [Matcher M] in
theorem failed {e : Failure} (h : o.Remaining σ left calls answers rest)
    (hsub : left.Sublist ids) (hc : o.needsEntries c = true) :
    o.Remaining σ ids (c :: calls) (.error e :: answers) rest where
  sublist := h.sublist.trans hsub
  admits := .failed h.admits
  whole hall := by
    rw [hall c e List.mem_cons_self] at hc
    cases hc
  readable hmem hneeds := by
    rcases List.mem_cons.mp hmem with heq | hmem
    · cases heq
    · exact h.readable hmem hneeds

omit [Matcher M] in
theorem unasked {r : Except Failure Answer} (h : o.Remaining σ ids calls answers left)
    (hc : o.needsEntries c = false)
    (hadmits : Callable.Admits (o.answer σ left) (o.rankedIds σ left) (c :: calls) (r :: answers)) :
    o.Remaining σ ids (c :: calls) (r :: answers) left where
  sublist := h.sublist
  admits := hadmits
  whole hall := h.whole fun c e hmem => hall c e (List.mem_cons_of_mem _ hmem)
  readable hmem hneeds := by
    rcases List.mem_cons.mp hmem with heq | hmem
    · rw [(Prod.mk.inj heq).1, hc] at hneeds
      cases hneeds
    · exact h.readable hmem hneeds

end Remaining

/-- A run on a stage that is not yet drained, its match having `left` to serve. -/
theorem run_waiting (hR : Matcher.Recovers σ R) (hbatch : 0 < o.batch) (calls : List Call)
    (hm : R m left) :
    ∃ left', o.Remaining σ left calls (Callable.run (o.waiting m) calls).1 left' := by
  -- The stage waits, with ever less left, until a call for entries succeeds. From then on its
  -- entries stay.
  induction calls generalizing m left with
  | nil => exact ⟨left, .refl left, .done, fun _ => rfl, fun hmem => (List.not_mem_nil hmem).elim⟩
  | cons c calls ih =>
    cases hc : o.needsEntries c with
    | false =>
      have hallows : ∀ left', Callable.Allows (o.answer σ left')
          (fun s rest => rest = o.rankedIds σ left' ∧ ∃ m, R m left ∧ s = o.waiting m)
          (o.waiting m) (o.rankedIds σ left') c := fun left' =>
        allows_of_match hR (o.waiting m) hc rfl hm (fun m' hm' => ⟨rfl, m', hm', rfl⟩)
          ⟨rfl, m, hm, rfl⟩
      have hnext : ∃ m', R m' left ∧ (Callable.call (o.waiting m) c).2 = o.waiting m' := by
        rcases hallows left with ⟨_, -, -, hnext⟩ | ⟨-, -, hnext⟩
        · exact hnext
        · exact hnext
      obtain ⟨m', hm', hnext⟩ := hnext
      obtain ⟨left', hlater⟩ := ih hm'
      rw [Callable.run, hnext]
      refine ⟨left', hlater.unasked hc ((hallows left').admits ?_)⟩
      rintro rest ⟨rfl, -⟩
      exact hlater.admits
    | true =>
      rcases materialize_waiting hR hbatch hm with ⟨e, m', left', hmat, hsub, hm'⟩ | h
      · obtain ⟨left'', hlater⟩ := ih hm'
        rw [Callable.run, call_error (o := o.waiting m) hc hmat]
        exact ⟨left'', hlater.failed hsub hc⟩
      · obtain ⟨m', ids, hread, hm', hmat⟩ := h
        let entries := o.kept (σ.withIds left)
        have hdrained : Drained o σ R left (o.serving m' entries entries) (o.rankedIds σ left) :=
          ⟨m', ids, entries, hm', rfl, rfl⟩
        have hcall : Callable.call (o.waiting m) c =
            Callable.call (o.serving m' entries entries) c :=
          call_again (o := o.waiting m) hc hmat rfl
        refine ⟨left, .refl left, ?_, fun _ => rfl, fun _ _ => hread⟩
        rw [Callable.run, hcall]
        exact Callable.run_admits (drained_allows hR) (c :: calls) hdrained

/-- The calls on a new stage that do not fail are all answered from the entries of one part of its
match, which is the whole if no call for entries fails. -/
theorem run_remaining (m : M) (comparer : SortComparer) (reader : IndexReader) (take : Option Nat)
    (config : MatchConfig) (selection : Selection) (hR : Matcher.Recovers σ R) (hm : R m σ.ids)
    (calls : List Call) :
    let stage := ofMatch m comparer reader take config selection
    ∃ left, stage.Remaining σ σ.ids calls (Callable.run stage calls).1 left := by
  intro stage
  exact run_waiting (o := stage) hR (batch_pos m comparer reader take config selection) calls hm

/-- Two documents by a field that cannot be read of the first, one document a batch. -/
def unreadableFirst : OrderBy AllMatch :=
  ofMatch { bound := 2 } (.byField "rank" false)
    { ({} : Index).reader with
      readField := fun d _ =>
        if d = 0 then .error (.reported .storage "read 0") else .ok (some (.integer 1)) }
    none { fillBatchSize := 1 }

theorem run_unreadableFirst :
    (unreadableFirst.evaluate 0).1 = .ok true ∧
      (Callable.run unreadableFirst [.fill 2, .reset, .fill 2]).1 =
        [.error (.reported .storage "read 0"), .ok .rewound, .ok (.served [1])] := by
  constructor
  · rfl
  · cbv

theorem run_remaining_unreadableFirst :
    ∃ left, unreadableFirst.Remaining (Match.service (AllMatch.meaning 2)) [0, 1]
      [.fill 2, .reset, .fill 2]
      [.error (.reported .storage "read 0"), .ok .rewound, .ok (.served [1])] left := by
  have hm : Matcher.Means (AllMatch.meaning 2) ({ bound := 2 } : AllMatch)
      (AllMatch.meaning 2).ids := (AllMatch.serves 2).means
  have hids : (AllMatch.meaning 2).ids = [0, 1] := by
    decide
  have hrun : (Callable.run unreadableFirst [.fill 2, .reset, .fill 2]).1 =
      [.error (.reported .storage "read 0"), .ok .rewound, .ok (.served [1])] := by
    cbv
  rw [← hrun, ← hids]
  exact run_remaining _ (.byField "rank" false) _ none { fillBatchSize := 1 } .bySorting
    Matcher.recovers_means hm _

end OrderBy

end Concordance
