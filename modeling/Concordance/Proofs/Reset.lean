import Concordance.Index.Snapshot
import Concordance.Proofs.Calls
import Concordance.Proofs.QueryMeaning
import Concordance.Proofs.RewindTree
import Concordance.Search.Searcher

/-!
# Resetting matches

The match of a query that is no ordering, once it is reset, cannot be told from a new one, whatever
it was asked before and whatever of that failed: `Searcher.run_reset`. It rewinds, and a new match
is one that resetting does not change.
-/

namespace Concordance

open Matcher (Rewinds)

/-! ### Calls -/

namespace Matcher

variable {M : Type} [Matcher M] {blank : M → M} {m m' : M}

instance callable : Callable M where
  evaluate m d := (Matcher.evaluate m d, m)
  score := Matcher.score

/-- Matches that differ in their buffers only answer every call alike, and so do those they
become. -/
theorem call_congr (h : Rewinds blank) (hm : blank m = blank m') (c : Call) :
    (Callable.call m c).1 = (Callable.call m' c).1 ∧
      blank (Callable.call m c).2 = blank (Callable.call m' c).2 := by
  cases c with
  | fill n =>
    have hfill := (h m).fill n
    rw [hm, (h m').fill n] at hfill
    obtain ⟨hresult, hrest⟩ := Prod.mk.inj hfill
    exact ⟨congrArg (Except.map Answer.served) hresult.symm, hrest.symm⟩
  | evaluate d =>
    have hevaluate := (h m).evaluate d
    rw [hm, (h m').evaluate d] at hevaluate
    exact ⟨congrArg (Except.map Answer.found) hevaluate.symm, hm⟩
  | score ids buffer =>
    obtain ⟨hresult, hrest⟩ := (h m).score ids hm (Eq.refl buffer.size)
    exact ⟨congrArg (Except.map Answer.scored) hresult, hrest⟩
  | reset =>
    have hreset := (h m).reset
    rw [hm, (h m').reset] at hreset
    exact ⟨rfl, hreset.symm⟩

theorem run_congr (h : Rewinds blank) (hm : blank m = blank m') (calls : List Call) :
    (Callable.run m calls).1 = (Callable.run m' calls).1 := by
  induction calls generalizing m m' with
  | nil => rfl
  | cons c calls ih =>
    obtain ⟨hanswer, hrest⟩ := call_congr h hm c
    exact congrArg₂ List.cons hanswer (ih hrest)

/-- No call leaves anything behind that is still there after a reset. -/
theorem reset_call (h : Rewinds blank) (m : M) (c : Call) :
    blank (IdSource.reset (Callable.call m c).2) = blank (IdSource.reset m) := by
  cases c with
  | fill n => exact (h m).filled n
  | evaluate d => rfl
  | score ids buffer => exact (h m).scored ids buffer
  | reset => exact (h m).rewound

theorem reset_run (h : Rewinds blank) (m : M) (calls : List Call) :
    blank (IdSource.reset (Callable.run m calls).2) = blank (IdSource.reset m) := by
  induction calls generalizing m with
  | nil => rfl
  | cons c calls ih => exact (ih _).trans (reset_call h m c)

end Matcher

namespace Match

variable {n : Nat}

theorem run_plain (tree : Tree n) (calls : List Call) :
    Callable.run (plain tree) calls =
      ((Callable.run tree calls).1, plain (Callable.run tree calls).2) := by
  induction calls generalizing tree with
  | nil => rfl
  | cons c calls ih =>
    have hcall : Callable.call (plain tree) c =
        ((Callable.call tree c).1, plain (Callable.call tree c).2) := by
      cases c <;> rfl
    rw [Callable.run, hcall, ih]
    rfl

end Match

/-! ### New matches -/

/-- What a result is when there is one. -/
def Yields (P : α → Prop) (r : Except Failure α) : Prop := ∀ a, r = .ok a → P a

namespace Yields

variable {P : α → Prop} {Q : β → Prop}

theorem ok {a : α} (h : P a) : Yields P (.ok a) := by
  intro b hb
  rw [← Except.ok.inj hb]
  exact h

theorem error {e : Failure} : Yields P (.error e) := by
  intro a ha
  cases ha

theorem bind {r : Except Failure α} {k : α → Except Failure β} (h : Yields P r)
    (hk : ∀ a, P a → Yields Q (k a)) : Yields Q (r.bind k) := by
  cases r with
  | error e => exact .error
  | ok a => exact hk a (h a rfl)

theorem bind_any {r : Except Failure α} {k : α → Except Failure β} (hk : ∀ a, Yields Q (k a)) :
    Yields Q (r.bind k) :=
  bind (P := fun _ => True) (fun _ _ => trivial) fun a _ => hk a

theorem map {r : Except Failure α} {f : α → β} (h : Yields P r) (hf : ∀ a, P a → Q (f a)) :
    Yields Q (r.map f) := by
  cases r with
  | error e => exact .error
  | ok a => exact .ok (hf a (h a rfl))

end Yields

/-- Posting lists are opened by new cursors, which are at their start. -/
def IndexReader.OpensAtStart (reader : IndexReader) : Prop :=
  ∀ field info, Yields (fun cursor => cursor.reset = cursor) (reader.postings field info)

/-- Resetting does not change the source. -/
def IdSource.AtStart {S : Type} [IdSource S] (s : S) : Prop := reset s = s

open IdSource (AtStart)

variable {reader : IndexReader}

namespace TermMatch

theorem atStart {field : String} {term : Bytes} {cursor : PostingCursor}
    (h : cursor.reset = cursor) : AtStart (⟨field, term, some cursor⟩ : TermMatch) :=
  congrArg (fun c => (⟨field, term, some c⟩ : TermMatch)) h

theorem ofTerm_atStart (hr : reader.OpensAtStart) (field : String) (term : Bytes) :
    Yields AtStart (ofTerm reader field term) := by
  unfold ofTerm
  refine Yields.bind_any fun info => ?_
  cases info with
  | none => exact .ok rfl
  | some info => exact (hr field info).bind fun cursor hcursor => .ok (atStart hcursor)

end TermMatch

theorem map_reset_eq {S : Type} [IdSource S] {ms : List S} (h : ∀ m ∈ ms, AtStart m) :
    ms.map IdSource.reset = ms := by
  rw [List.map_congr_left h, List.map_id']

theorem Union.ofList_atStart {M : Type} [IdSource M] {ms : List M} (h : ∀ m ∈ ms, AtStart m)
    (batch : Nat) : AtStart (ofList ms batch) := by
  show (ofList ms batch).reset = ofList ms batch
  have hmatchers : (ofList ms batch).matchers = ms := by
    rw [matchers, ofList, List.map_map]
    exact List.map_id' ms
  rw [reset_eq, hmatchers, map_reset_eq h]
  rfl

/-- A provider that makes new matches, one after the other. -/
def TermProvider.MakesNew {P : Type} [TermProvider P] (I : P → Prop) : Prop :=
  ∀ p, I p → I (next p).2 ∧ Yields (fun found => ∀ m ∈ found, AtStart m) (next p).1

theorem PredicateTerms.makesNew (hr : reader.OpensAtStart) :
    TermProvider.MakesNew fun p : PredicateTerms => p.reader = reader := by
  have hfrom : ∀ (p : PredicateTerms) cursor, p.reader = reader →
      (p.nextFrom cursor).2.reader = reader ∧
        Yields (fun found => ∀ m ∈ found, AtStart m) (p.nextFrom cursor).1 := by
    intro p cursor hp
    unfold nextFrom
    split
    · exact ⟨hp, .error⟩
    · exact ⟨hp, .ok fun m hm => by cases hm⟩
    · rename_i term info cursor hs
      refine ⟨hp, ?_⟩
      rw [hp]
      refine (hr p.field info).map fun postings hpostings m hm => ?_
      rw [← Option.some.inj hm]
      exact TermMatch.atStart hpostings
  intro p hp
  show (p.next.2.reader = reader) ∧ Yields _ p.next.1
  unfold next
  split
  · exact ⟨hp, .ok fun m hm => by cases hm⟩
  · exact hfrom p _ hp
  · exact hfrom p _ hp

theorem ListedTerms.makesNew (hr : reader.OpensAtStart) :
    TermProvider.MakesNew fun p : ListedTerms => p.reader = reader := by
  intro p hp
  refine ⟨hp, ?_⟩
  show Yields _ (p.firstOf p.rest).1
  induction p.rest with
  | nil => exact .ok fun m hm => by cases hm
  | cons term rest ih =>
    have hopen : Yields (fun found => ∀ c ∈ found, c.reset = c) (p.open? term) := by
      unfold open?
      rw [hp]
      refine Yields.bind_any fun info => ?_
      cases info with
      | none => exact .ok fun c hc => by cases hc
      | some info =>
        refine (hr p.field info).bind fun cursor hcursor => .ok fun c hc => ?_
        rw [← Option.some.inj hc]
        exact hcursor
    unfold firstOf
    split
    · exact .error
    · rename_i postings hp
      refine .ok fun m hm => ?_
      rw [← Option.some.inj hm]
      exact TermMatch.atStart (hopen _ hp _ rfl)
    · exact ih

namespace MultiTermMatch

theorem expand_atStart {P : Type} [TermProvider P] {I : P → Prop}
    (hI : TermProvider.MakesNew I) (limit : Option Nat) (taken : Nat) {p : P} (hp : I p) :
    Yields (fun ms => ∀ m ∈ ms, AtStart m) (expand limit taken p) := by
  have hcons : ∀ {p p' : P} {m : TermMatch} {rest : Except Failure (List TermMatch)}, I p →
      TermProvider.next p = (.ok (some m), p') →
      (I p' → Yields (fun ms => ∀ m ∈ ms, AtStart m) rest) →
      Yields (fun ms => ∀ m ∈ ms, AtStart m) (rest.map (m :: ·)) := by
    intro p p' m rest hp hn hrest
    obtain ⟨hp', hm⟩ := hI p hp
    rw [hn] at hp' hm
    exact (hrest hp').map fun ms hms => List.forall_mem_cons.mpr ⟨hm _ rfl m rfl, hms⟩
  fun_induction expand limit taken p with
  | case1 => exact .error
  | case2 => exact .ok fun m hm => by cases hm
  | case3 => exact .error
  | case4 taken p m p' hn most hlimit hlt ih =>
    subst hlimit
    exact hcons hp hn ih
  | case5 taken p m p' hn hlimit ih =>
    subst hlimit
    exact hcons hp hn ih

theorem ofProvider_atStart {P : Type} [TermProvider P] {I : P → Prop}
    (hI : TermProvider.MakesNew I) (config : MatchConfig) {p : P} (hp : I p) :
    Yields AtStart (ofProvider config p) := by
  refine (expand_atStart hI config.maxExpansions 0 hp).map fun terms hterms => ?_
  exact congrArg (fun union => MultiTermMatch.mk _ _ union _ _) (Union.ofList_atStart hterms _)

end MultiTermMatch

theorem Index.reader_opensAtStart (index : Index) : index.reader.OpensAtStart := by
  intro field info
  refine Yields.bind_any fun store => ?_
  unfold FieldIndex.postings
  dsimp only
  split
  · exact .error
  · split
    · exact .error
    · exact .ok rfl

/-! ### Combinations -/

variable {M : Type} [Matcher M]

namespace AndMatch

theorem splitCheapest_atStart {m : M} {rest : List M} (hm : AtStart m)
    (hrest : ∀ x ∈ rest, AtStart x) :
    (∀ x ∈ (splitCheapest m rest).1, AtStart x) ∧ AtStart (splitCheapest m rest).2.1 ∧
      ∀ x ∈ (splitCheapest m rest).2.2, AtStart x := by
  induction rest generalizing m with
  | nil => exact ⟨fun x hx => (List.not_mem_nil hx).elim, hm, hrest⟩
  | cons next rest ih =>
    obtain ⟨hnext, hlater⟩ := List.forall_mem_cons.mp hrest
    obtain ⟨hbefore, hdriver, hafter⟩ := ih hnext hlater
    unfold splitCheapest
    dsimp only
    split
    · exact ⟨fun x hx => (List.not_mem_nil hx).elim, hm, hrest⟩
    · exact ⟨List.forall_mem_cons.mpr ⟨hm, hbefore⟩, hdriver, hafter⟩

theorem ofCons_atStart {m : M} {rest : List M} (hm : AtStart m) (hrest : ∀ x ∈ rest, AtStart x)
    (scoreBatch : Nat) : AtStart (ofCons m rest scoreBatch) := by
  obtain ⟨hbefore, hdriver, hafter⟩ := splitCheapest_atStart hm hrest
  show AndMatch.mk ((splitCheapest m rest).1.map _) (IdSource.reset (splitCheapest m rest).2.1)
    ((splitCheapest m rest).2.2.map _) _ = _
  rw [map_reset_eq hbefore, map_reset_eq hafter, hdriver]
  rfl

end AndMatch

theorem OrMatch.ofList_atStart {ms : List M} (h : ∀ m ∈ ms, AtStart m)
    (fillBatch scoreBatch : Nat) : AtStart (ofList ms fillBatch scoreBatch) :=
  congrArg (fun union => OrMatch.mk union _ _) (Union.ofList_atStart h fillBatch)

/-! ### Compiled queries -/

namespace Searcher

variable {s : Searcher} {n : Nat}

/-- A match as it is made for a query: its tree is at the start, and only that of an ordering is
ordered. -/
structure Made (q : Query) (m : Match n) : Prop where
  atStart : AtStart m.tree
  isOrdered : m.isOrdered = q.isOrdering

theorem made_ofNode {S : Type} [Matcher S] {g : S → Tree n} (hg : Matcher.Embeds g) {q : Query}
    (hq : q.isOrdering = false) {r : Except Failure S} (h : Yields AtStart r) :
    Yields (Made q) (r.map fun m => Match.plain (g m)) :=
  h.map fun m hm => ⟨(hg.reset m).trans (congrArg g hm), hq.symm⟩

theorem term_made (hr : s.reader.OpensAtStart) (field value : String) :
    Yields (Made (n := n) (.term field value)) (s.term field (utf8 value)) :=
  made_ofNode (Tree.embeds_term n) rfl (TermMatch.ofTerm_atStart hr field (utf8 value))

theorem expand_made {P : Type} [TermProvider P] {I : P → Prop} (hI : TermProvider.MakesNew I)
    {p : P} (hp : I p) (score : Option ScoreFunction) {q : Query} (hq : q.isOrdering = false) :
    Yields (Made (n := n) q) (s.expand p score) := by
  refine (MultiTermMatch.ofProvider_atStart hI s.config hp).map fun m hm => ?_
  refine ⟨?_, hq.symm⟩
  apply ((Tree.embeds_multiTerm n).reset _).trans
  apply congrArg (fun m => (Tree.ofNode (.multiTerm m) : Tree n))
  cases score with
  | none => exact hm
  | some function => exact congrArg (fun m => MultiTermMatch.withScoring m function _) hm

theorem multiTerm_made (hr : s.reader.OpensAtStart) (field : String)
    (predicate : TermPredicate Bytes) (score : Option ScoreFunction) {q : Query}
    (hq : q.isOrdering = false) : Yields (Made (n := n) q) (s.multiTerm field predicate score) := by
  refine Yields.bind (P := fun p => p.reader = s.reader) ?_ fun p hp =>
    expand_made (PredicateTerms.makesNew hr) hp score hq
  exact Yields.map (P := fun _ => True) (fun _ _ => trivial) fun _ _ => rfl

theorem oneOf_made (hr : s.reader.OpensAtStart) (field : String) (terms : List Bytes)
    (score : Option ScoreFunction) {q : Query} (hq : q.isOrdering = false) :
    Yields (Made (n := n) q) (s.oneOf field terms score) := by
  refine Yields.bind (P := fun p => p.reader = s.reader) ?_ fun p hp =>
    expand_made (ListedTerms.makesNew hr) hp score hq
  unfold ListedTerms.ofField
  split
  · exact .ok rfl
  · exact .error

theorem child_atStart {m : Match n} (hm : AtStart m.tree) (parent : String) :
    Yields AtStart (m.child parent) := by
  cases m with
  | plain tree => exact .ok hm
  | ordered stage => exact .error

theorem children_atStart {ms : List (Match n)} (hms : ∀ m ∈ ms, AtStart m.tree) (parent : String) :
    Yields (fun trees => ∀ tree ∈ trees, AtStart tree) (Match.children parent ms) := by
  induction ms with
  | nil => exact .ok fun tree htree => (List.not_mem_nil htree).elim
  | cons m ms ih =>
    obtain ⟨hm, hms⟩ := List.forall_mem_cons.mp hms
    exact (child_atStart hm parent).bind fun tree htree =>
      (ih hms).map fun trees htrees => List.forall_mem_cons.mpr ⟨htree, htrees⟩

theorem and_made {qs : List Query} {ms : List (Match n)} (hms : ∀ m ∈ ms, AtStart m.tree) :
    Yields (Made (.and qs)) (Match.and s.config ms) := by
  cases ms with
  | nil => exact .error
  | cons m ms =>
    obtain ⟨hm, hms⟩ := List.forall_mem_cons.mp hms
    refine (child_atStart hm "AndMatch").bind fun first hfirst =>
      (children_atStart hms "AndMatch").map fun others hothers => ⟨?_, rfl⟩
    exact congrArg Node.and (AndMatch.ofCons_atStart hfirst hothers _)

theorem or_made {qs : List Query} {ms : List (Match n)} (hms : ∀ m ∈ ms, AtStart m.tree) :
    Yields (Made (.or qs)) (Match.or s.config ms) := by
  refine (children_atStart hms "OrMatch").map fun trees htrees => ⟨?_, rfl⟩
  exact congrArg Node.or (OrMatch.ofList_atStart htrees _ _)

theorem andNot_made {base exclusion : Query} {m excluded : Match n} (hm : AtStart m.tree)
    (hx : AtStart excluded.tree) :
    Yields (Made (.andNot base exclusion)) (Match.andNot m excluded) := by
  refine (child_atStart hm "AndNotMatch").bind fun tree htree =>
    (child_atStart hx "AndNotMatch").map fun removed hremoved => ⟨?_, rfl⟩
  exact congrArg Node.andNot (congrArg₂ AndNotMatch.mk htree hremoved)

theorem boost_made {m : Match n} (hm : AtStart m.tree) (boost : Boost) {q : Query}
    (hq : q.isOrdering = false) :
    Yields (Made q) ((m.child "BoostMatch").map fun inner =>
      Match.plain (n := n + 1) (Node.boost { inner, boost })) :=
  (child_atStart hm "BoostMatch").map fun _ htree =>
    ⟨congrArg Node.boost (congrArg (BoostMatch.mk · boost) htree), hq.symm⟩

theorem orderBy_made {m : Match n} (hm : AtStart m.tree) (comparer : SortComparer)
    (take : Option Nat) {q : Query} (hq : q.isOrdering = true) :
    Yields (Made q) (s.orderBy m comparer take) := by
  unfold orderBy Match.orderBy
  split
  · exact .error
  · split
    · exact .error
    · cases m with
      | plain tree => exact .ok ⟨hm, hq.symm⟩
      | ordered stage => exact .error

mutual

theorem compile_made (hr : s.reader.OpensAtStart) :
    (q : Query) → (n : Nat) → (h : q.depth ≤ n) → Yields (Made q) (s.compile q n h)
  | .term field value, n, h => by
    rw [compile]
    exact term_made hr field value
  | .multiTerm field predicate score, n, h => by
    rw [compile]
    exact multiTerm_made hr field _ _ rfl
  | .oneOf field values score, n, h => by
    rw [compile]
    exact oneOf_made hr field _ _ rfl
  | .all, n, h => by
    rw [compile]
    exact .ok ⟨(Tree.embeds_all n).reset _, rfl⟩
  | .and children, n + 1, h => by
    rw [compile]
    exact (compileAll_made hr children n _).bind fun _ hms => and_made hms
  | .or children, n + 1, h => by
    rw [compile]
    exact (compileAll_made hr children n _).bind fun _ hms => or_made hms
  | .andNot base exclusion, n + 1, h => by
    rw [compile]
    exact (compile_made hr base n _).bind fun _ hm =>
      (compile_made hr exclusion n _).bind fun _ hx => andNot_made hm.atStart hx.atStart
  | .boost child factor, n + 1, h => by
    rw [compile]
    refine (compile_made hr child n _).bind fun m hm => ?_
    unfold Match.boost
    split
    · exact .error
    · exact boost_made hm.atStart (.constant factor) rfl
  | .boostBy child function, n + 1, h => by
    rw [compile]
    exact (compile_made hr child n _).bind fun m hm => boost_made hm.atStart _ rfl
  | .orderByScore child take ascending, n, h => by
    rw [compile]
    refine (compile_made hr child n _).bind fun m hm => ?_
    exact Yields.bind_any fun take =>
      orderBy_made hm.atStart _ take rfl
  | .orderByField child field descending take, n, h => by
    rw [compile]
    refine (compile_made hr child n _).bind fun m hm => ?_
    exact Yields.bind_any fun take =>
      orderBy_made hm.atStart _ take rfl

theorem compileAll_made (hr : s.reader.OpensAtStart) :
    (qs : List Query) → (n : Nat) → (h : Query.depths qs ≤ n) →
    Yields (fun ms => ∀ m ∈ ms, AtStart (Match.tree m)) (s.compileAll qs n h)
  | [], n, h => by
    rw [compileAll]
    exact .ok fun m hm => (List.not_mem_nil hm).elim
  | q :: qs, n, h => by
    rw [compileAll]
    exact (compile_made hr q n _).bind fun m hm =>
      (compileAll_made hr qs n _).map fun ms hms => List.forall_mem_cons.mpr ⟨hm.atStart, hms⟩

end

/-- The match of a query that is no ordering, once it is reset, answers all later calls as the new
match does, whatever it was asked before and whatever of that failed. -/
theorem run_reset (hr : s.reader.OpensAtStart) {q : Query} (hq : q.isOrdering = false)
    {m : Match q.depth} (hm : s.search q = .ok m) (calls later : List Call) :
    (Callable.run (Callable.run m (calls ++ [.reset])).2 later).1 = (Callable.run m later).1 := by
  obtain ⟨hstart, hordered⟩ := compile_made hr q q.depth (Nat.le_refl _) m hm
  rw [hq] at hordered
  cases m with
  | ordered stage => cases hordered
  | plain tree =>
    -- The tree that was reset may still have other buffers than the new one.
    have htree : Tree.blank _ (Callable.run tree (calls ++ [.reset])).2 = Tree.blank _ tree := by
      rw [Callable.run_append]
      apply (Matcher.reset_run (Tree.rewinds q.depth) tree calls).trans
      exact congrArg (Tree.blank q.depth) hstart
    rw [Match.run_plain, Match.run_plain, Match.run_plain]
    exact Matcher.run_congr (Tree.rewinds q.depth) htree later

/-- Four documents, and a term of three of them in two blocks. The last byte of the postings is
lost. -/
def truncated : Index where
  fields := [("tag", {
    dictionary := ⟨#[(utf8 "x", ⟨0, 2, 0, 2, 3⟩)]⟩
    store := { data := #[0, 2], skips := #[⟨0, 0, 1⟩, ⟨2, 1, 2⟩] } })]
  documents := #[{ id := "a" }, { id := "b" }, { id := "c" }, { id := "d" }]

/-- The union of a boosted term and of a difference that removes it. -/
def boostedOrRest : Query :=
  .or [.boostBy (.term "tag" "x") .idf, .andNot .all (.term "tag" "x")]

/-- A fill fails in the middle of a block, another one at its end, and nothing is served after that
until the match is reset. -/
theorem run_reset_truncated :
    let s : Searcher := { reader := truncated.reader, config := { fillBatchSize := 1 } }
    s.reader.OpensAtStart ∧ boostedOrRest.isOrdering = false ∧ ∃ m, s.search boostedOrRest = .ok m ∧
      (∃ e, (Callable.run m [.fill 1, .fill 5, .fill 5, .fill 5]).1 =
        [.ok (.served [0]), .error e, .error e, .ok (.served [])]) ∧
      (Callable.run (Callable.run m ([.fill 1, .fill 5, .fill 5, .fill 5] ++ [.reset])).2
          [.fill 1, .score [0, 1] #[7, 7], .evaluate 1, .fill 5]).1 =
        (Callable.run m [.fill 1, .score [0, 1] #[7, 7], .evaluate 1, .fill 5]).1 := by
  intro s
  have hr : s.reader.OpensAtStart := truncated.reader_opensAtStart
  have hanswers : (s.search boostedOrRest).map
      (fun m => (Callable.run m [.fill 1, .fill 5, .fill 5, .fill 5]).1) =
        .ok [.ok (.served [0]), .error .varintUnfinished, .error .varintUnfinished,
          .ok (.served [])] := by
    decide +kernel
  cases hm : s.search boostedOrRest with
  | error e =>
    rw [hm] at hanswers
    cases hanswers
  | ok m =>
    rw [hm] at hanswers
    exact ⟨hr, rfl, m, rfl, ⟨_, Except.ok.inj hanswers⟩, run_reset hr rfl hm _ _⟩

end Searcher

end Concordance
