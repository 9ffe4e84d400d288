import Concordance.Proofs.Recoding
import Concordance.Proofs.Search

/-!
# Searching over coded terms

A search over a reader that keeps the terms of an index in a coded form fails as the search over the
index does, or makes a match that cannot be told from the one over the index:
`Searcher.search_recoded`.
-/

namespace Concordance

/-! ### Results that agree -/

/-- The same failure, or results that are related. -/
inductive Alike (R : α → β → Prop) : Except Failure α → Except Failure β → Prop
  | ok {a : α} {b : β} : R a b → Alike R (.ok a) (.ok b)
  | error (e : Failure) : Alike R (.error e) (.error e)

namespace Alike

variable {R : α → β → Prop} {S : γ → δ → Prop}

theorem bind {r : Except Failure α} {r' : Except Failure β} {k : α → Except Failure γ}
    {k' : β → Except Failure δ} (h : Alike R r r') (hk : ∀ a b, R a b → Alike S (k a) (k' b)) :
    Alike S (r.bind k) (r'.bind k') := by
  cases h with
  | ok h => exact hk _ _ h
  | error e => exact .error e

theorem map_same {r : Except Failure α} {f : α → γ} {g : α → δ} (h : ∀ a, S (f a) (g a)) :
    Alike S (r.map f) (r.map g) := by
  cases r with
  | ok a => exact .ok (h a)
  | error e => exact .error e

theorem bind_same {r : Except Failure α} {k : α → Except Failure γ} {k' : α → Except Failure δ}
    (h : ∀ a, Alike S (k a) (k' a)) : Alike S (r.bind k) (r.bind k') := by
  cases r with
  | ok a => exact h a
  | error e => exact .error e

theorem imp {r : Except Failure α} {r' : Except Failure β} {S : α → β → Prop} (h : Alike R r r')
    (hS : ∀ a b, R a b → S a b) : Alike S r r' := by
  cases h with
  | ok h => exact .ok (hS _ _ h)
  | error e => exact .error e

end Alike

/-! ### Stages that read through another reader -/

namespace OrderBy

variable {M : Type} [Matcher M]

/-- The stage that reads values through another reader. -/
def through (o : OrderBy M) (reader : IndexReader) : OrderBy M := { o with reader }

variable {reader : IndexReader} {o : OrderBy M}

omit [Matcher M] in
theorem collectBatch_through (h : o.reader.readField = reader.readField) (seq : Nat)
    (entries : Array SortEntry) (found : List (DocId × Float32)) :
    (o.through reader).collectBatch seq entries found = o.collectBatch seq entries found := by
  have hread : (o.through reader).readValue = o.readValue := by
    unfold readValue
    rw [h]
    rfl
  induction found generalizing seq entries with
  | nil => rfl
  | cons entry found ih =>
    unfold collectBatch
    rw [hread]
    cases o.readValue entry.1 with
    | error e => rfl
    | ok value => exact ih _ _

theorem drainFrom_through (h : o.reader.readField = reader.readField) (seq : Nat)
    (entries : Array SortEntry) (m : M) :
    (o.through reader).drainFrom seq entries m = o.drainFrom seq entries m := by
  fun_induction o.drainFrom seq entries m with
  | case1 seq entries m e m₁ hf => exact drainFrom_of_fill_error hf
  | case2 seq entries m m₁ hf => exact drainFrom_of_drained hf
  | case3 seq entries m d ids m₁ hf e m₂ hs => exact drainFrom_of_score_error hf hs
  | case4 seq entries m d ids m₁ hf scores m₂ hs e hc =>
    exact drainFrom_of_collect_error hf hs ((collectBatch_through h _ _ _).trans hc)
  | case5 seq entries m d ids m₁ hf scores m₂ hs kept hc ih =>
    have hkept := (collectBatch_through h _ _ _).trans hc
    exact (drainFrom_of_collect (o := o.through reader) hf hs hkept).trans ih

theorem materialize_through (h : o.reader.readField = reader.readField) :
    (o.through reader).materialize = (o.materialize.1, o.materialize.2.through reader) ∧
      o.materialize.2.reader = o.reader := by
  have hentries : (o.through reader).entries = o.entries := rfl
  have hdrain : (o.through reader).drainFrom 0 #[] (o.through reader).inner = _ :=
    drainFrom_through h 0 #[] o.inner
  unfold materialize
  rw [hentries, hdrain]
  cases o.entries with
  | some entries => exact ⟨rfl, rfl⟩
  | none => rcases o.drainFrom 0 #[] o.inner with ⟨_ | found, inner⟩ <;> exact ⟨rfl, rfl⟩

theorem fill_through (h : o.reader.readField = reader.readField) (n : Nat) :
    (o.through reader).fill n = ((o.fill n).1, (o.fill n).2.through reader) ∧
      (o.fill n).2.reader = o.reader := by
  obtain ⟨hmaterialize, hreader⟩ := materialize_through h
  unfold fill
  rw [hmaterialize]
  generalize o.materialize = step at hreader ⊢
  obtain ⟨_ | entries, o'⟩ := step <;> exact ⟨rfl, hreader⟩

theorem evaluate_through (h : o.reader.readField = reader.readField) (d : DocId) :
    (o.through reader).evaluate d = ((o.evaluate d).1, (o.evaluate d).2.through reader) ∧
      (o.evaluate d).2.reader = o.reader := by
  have htake : (o.through reader).take = o.take := rfl
  obtain ⟨hmaterialize, hreader⟩ := materialize_through h
  unfold evaluate
  rw [htake, hmaterialize]
  cases o.take with
  | none => exact ⟨rfl, rfl⟩
  | some k =>
    generalize o.materialize = step at hreader ⊢
    obtain ⟨_ | entries, o'⟩ := step <;> exact ⟨rfl, hreader⟩

/-- No call shows through which reader a stage reads, when both read the same values. -/
theorem call_through (h : o.reader.readField = reader.readField) (c : Call) :
    Callable.call (o.through reader) c =
        ((Callable.call o c).1, (Callable.call o c).2.through reader) ∧
      (Callable.call o c).2.reader = o.reader := by
  cases c with
  | reset => exact ⟨rfl, rfl⟩
  | score ids buffer => exact ⟨rfl, rfl⟩
  | fill n =>
    obtain ⟨hfill, hreader⟩ := fill_through h n
    exact ⟨congrArg (fun step => (step.1.map Answer.served, step.2)) hfill, hreader⟩
  | evaluate d =>
    obtain ⟨hevaluate, hreader⟩ := evaluate_through h d
    exact ⟨congrArg (fun step => (step.1.map Answer.found, step.2)) hevaluate, hreader⟩

theorem run_through (h : o.reader.readField = reader.readField) (calls : List Call) :
    Callable.run (o.through reader) calls =
      ((Callable.run o calls).1, (Callable.run o calls).2.through reader) := by
  induction calls generalizing o with
  | nil => rfl
  | cons c calls ih =>
    obtain ⟨hcall, hreader⟩ := call_through h c
    rw [Callable.run, hcall, ih (hreader ▸ h)]
    rfl

end OrderBy

/-! ### Matches of both searches -/

namespace Match

variable {n : Nat} {reader : IndexReader} {m m' : Match n}

/-- The same match, or an ordering that reads the same values through another reader. -/
inductive Rereads (reader : IndexReader) : Match n → Match n → Prop
  | plain (tree : Tree n) : Rereads reader (.plain tree) (.plain tree)
  | ordered (stage : OrderBy (Tree n)) : stage.reader.readField = reader.readField →
      Rereads reader (.ordered stage) (.ordered (stage.through reader))

theorem Rereads.child (h : Rereads reader m m') (parent : String) :
    m'.child parent = m.child parent := by
  cases h <;> rfl

theorem Rereads.children {ms ms' : List (Match n)} (h : List.Forall₂ (Rereads reader) ms ms')
    (parent : String) : children parent ms' = children parent ms := by
  induction h with
  | nil => rfl
  | cons h _ ih =>
    unfold Match.children
    rw [h.child, ih]

theorem run_ordered (stage : OrderBy (Tree n)) (calls : List Call) :
    Callable.run (Match.ordered stage) calls =
      ((Callable.run stage calls).1, .ordered (Callable.run stage calls).2) := by
  induction calls generalizing stage with
  | nil => rfl
  | cons c calls ih =>
    rw [Callable.run, call_ordered, ih]
    rfl

theorem Rereads.run (h : Rereads reader m m') (calls : List Call) :
    (Callable.run m' calls).1 = (Callable.run m calls).1 ∧
      (Callable.run m' calls).2.cost = (Callable.run m calls).2.cost ∧
      (Callable.run m' calls).2.inspect = (Callable.run m calls).2.inspect := by
  cases h with
  | plain tree => exact ⟨rfl, rfl, rfl⟩
  | ordered stage hread =>
    rw [run_ordered, run_ordered, OrderBy.run_through hread]
    exact ⟨rfl, rfl, rfl⟩

theorem Rereads.orderBy {plain : IndexReader} (h : Rereads reader m m')
    (hfield : ∀ field, reader.hasField field = plain.hasField field)
    (hread : plain.readField = reader.readField) (comparer : SortComparer) (take : Option Nat)
    (config : MatchConfig) :
    Alike (Rereads reader) (m.orderBy comparer plain take config)
      (m'.orderBy comparer reader take config) := by
  unfold Match.orderBy
  by_cases htake : take = some 0
  · rw [if_pos htake, if_pos htake]
    exact .error _
  · rw [if_neg htake, if_neg htake, funext hfield]
    cases comparer.field.filter (!plain.hasField ·) with
    | some field => exact .error _
    | none =>
      cases h with
      | plain tree => exact .ok (.ordered _ hread)
      | ordered stage => exact .error _

end Match

namespace Searcher

open Match (Rereads)

variable {reader : IndexReader} {index : Index} {w : IndexWriter} {config : MatchConfig} {n : Nat}

theorem term_recoded (hr : reader.Recodes index) (field : String) (term : Bytes) :
    Alike (Rereads (n := n) reader) ((index.searcher config).term field term)
      (({ reader, config } : Searcher).term field term) := by
  unfold Searcher.term
  show Alike _ ((TermMatch.ofTerm index.reader field term).map _) _
  rw [TermMatch.ofTerm_recoded hr]
  exact .map_same fun m => .plain _

theorem expand_recoded (hr : reader.Recodes index) {P : Type} [TermProvider P] {R : P → P → Prop}
    (hR : TermProvider.Mirrors R) {p q : P} (h : R p q) (score : Option ScoreFunction) :
    Alike (Rereads (n := n) reader) ((index.searcher config).expand p score)
      (({ reader, config } : Searcher).expand q score) := by
  unfold Searcher.expand
  rw [MultiTermMatch.ofProvider_mirrors hR _ h, hr.docCount]
  exact .map_same fun m => .plain _

theorem multiTerm_recoded (hr : reader.Recodes index) (hw : w.commit = .ok index) (field : String)
    (predicate : TermPredicate Bytes) (score : Option ScoreFunction) :
    Alike (Rereads (n := n) reader) ((index.searcher config).multiTerm field predicate score)
      (({ reader, config } : Searcher).multiTerm field predicate score) := by
  unfold Searcher.multiTerm
  show Alike _ ((PredicateTerms.ofField index.reader field predicate).bind _)
    ((PredicateTerms.ofField reader field predicate).bind _)
  cases hlist : index.reader.terms field with
  | error e =>
    rw [PredicateTerms.ofField, PredicateTerms.ofField, hlist, hr.unknown hlist]
    exact .error e
  | ok list =>
    obtain ⟨coded, hcodes⟩ := hr.exists_codes hw hlist
    obtain ⟨p, q, hp, hq, hpq⟩ := PredicateTerms.recoded_ofField hcodes predicate
    rw [hp, hq]
    exact expand_recoded hr (PredicateTerms.mirrors hr hcodes) hpq score

theorem oneOf_recoded (hr : reader.Recodes index) (field : String) (terms : List Bytes)
    (score : Option ScoreFunction) :
    Alike (Rereads (n := n) reader) ((index.searcher config).oneOf field terms score)
      (({ reader, config } : Searcher).oneOf field terms score) := by
  unfold Searcher.oneOf
  show Alike _ ((ListedTerms.ofField index.reader field terms).bind _)
    ((ListedTerms.ofField reader field terms).bind _)
  unfold ListedTerms.ofField
  rw [hr.hasField]
  split
  · exact expand_recoded hr (ListedTerms.mirrors hr) ⟨rfl, rfl⟩ score
  · exact .error _

theorem and_recoded {ms ms' : List (Match n)} (h : List.Forall₂ (Rereads reader) ms ms') :
    Alike (Rereads reader) (Match.and config ms) (Match.and config ms') := by
  cases h with
  | nil => exact .error _
  | cons hm hms =>
    unfold Match.and
    dsimp only
    rw [hm.child, Rereads.children hms]
    exact .bind_same fun first => .bind_same fun others => .ok (.plain _)

theorem or_recoded {ms ms' : List (Match n)} (h : List.Forall₂ (Rereads reader) ms ms') :
    Alike (Rereads reader) (Match.or config ms) (Match.or config ms') := by
  unfold Match.or
  rw [Rereads.children h]
  exact .bind_same fun trees => .ok (.plain _)

theorem andNot_recoded {base base' exclusion exclusion' : Match n} (h : Rereads reader base base')
    (hx : Rereads reader exclusion exclusion') :
    Alike (Rereads reader) (Match.andNot base exclusion) (Match.andNot base' exclusion') := by
  unfold Match.andNot
  rw [h.child, hx.child]
  exact .bind_same fun base => .bind_same fun exclusion => .ok (.plain _)

theorem boost_recoded {m m' : Match n} (h : Rereads reader m m') (factor : Float32) :
    Alike (Rereads reader) (m.boost factor) (m'.boost factor) := by
  unfold Match.boost
  rw [h.child]
  split
  · exact .error _
  · exact .map_same fun inner => .plain _

theorem boostBy_recoded {m m' : Match n} (h : Rereads reader m m') (function : ScoreFunction)
    (totalDocs : UInt64) :
    Alike (Rereads reader) (m.boostBy function totalDocs) (m'.boostBy function totalDocs) := by
  unfold Match.boostBy
  rw [h.child]
  exact .map_same fun inner => .plain _

theorem orderBy_recoded (hr : reader.Recodes index) {m m' : Match n} (h : Rereads reader m m')
    (comparer : SortComparer) (take : Option Int64) :
    Alike (Rereads reader)
      ((positiveTake take).bind fun take => (index.searcher config).orderBy m comparer take)
      ((positiveTake take).bind fun take =>
        ({ reader, config } : Searcher).orderBy m' comparer take) := by
  refine .bind_same fun take => h.orderBy hr.hasField ?_ comparer take config
  exact funext fun d => funext fun field => (hr.readField d field).symm

mutual

theorem compile_recoded (hr : reader.Recodes index) (hw : w.commit = .ok index) :
    (q : Query) → (n : Nat) → (h : q.depth ≤ n) →
    Alike (Rereads reader) ((index.searcher config).compile q n h)
      (({ reader, config } : Searcher).compile q n h)
  | .term field value, n, h => by
    rw [compile, compile]
    exact term_recoded hr field _
  | .multiTerm field predicate score, n, h => by
    rw [compile, compile]
    exact multiTerm_recoded hr hw field _ _
  | .oneOf field values score, n, h => by
    rw [compile, compile]
    exact oneOf_recoded hr field _ _
  | .all, n, h => by
    rw [compile, compile]
    unfold allEntries
    rw [hr.docCount]
    exact .ok (.plain _)
  | .and children, n + 1, h => by
    rw [compile, compile]
    exact (compileAll_recoded hr hw children n _).bind fun _ _ hms => and_recoded hms
  | .or children, n + 1, h => by
    rw [compile, compile]
    exact (compileAll_recoded hr hw children n _).bind fun _ _ hms => or_recoded hms
  | .andNot base exclusion, n + 1, h => by
    rw [compile, compile]
    exact (compile_recoded hr hw base n _).bind fun _ _ hm =>
      (compile_recoded hr hw exclusion n _).bind fun _ _ hx => andNot_recoded hm hx
  | .boost child factor, n + 1, h => by
    rw [compile, compile]
    exact (compile_recoded hr hw child n _).bind fun _ _ hm => boost_recoded hm factor
  | .boostBy child function, n + 1, h => by
    rw [compile, compile, hr.docCount]
    exact (compile_recoded hr hw child n _).bind fun _ _ hm => boostBy_recoded hm _ _
  | .orderByScore child take ascending, n, h => by
    rw [compile, compile]
    exact (compile_recoded hr hw child n _).bind fun _ _ hm => orderBy_recoded hr hm _ take
  | .orderByField child field descending take, n, h => by
    rw [compile, compile]
    exact (compile_recoded hr hw child n _).bind fun _ _ hm => orderBy_recoded hr hm _ take

theorem compileAll_recoded (hr : reader.Recodes index) (hw : w.commit = .ok index) :
    (qs : List Query) → (n : Nat) → (h : Query.depths qs ≤ n) →
    Alike (List.Forall₂ (Rereads reader)) ((index.searcher config).compileAll qs n h)
      (({ reader, config } : Searcher).compileAll qs n h)
  | [], n, h => by
    rw [compileAll, compileAll]
    exact .ok .nil
  | q :: qs, n, h => by
    rw [compileAll, compileAll]
    exact (compile_recoded hr hw q n _).bind fun _ _ hm =>
      (compileAll_recoded hr hw qs n _).bind fun _ _ hms => .ok (.cons hm hms)

end

/-- Over a reader that keeps the terms of a committed index in a coded form a query is refused as it
is over the index, or its match answers, costs and is inspected as the match over the index,
whatever the two are called for. -/
theorem search_recoded (hr : reader.Recodes index) (hw : w.commit = .ok index)
    (config : MatchConfig) (q : Query) :
    Alike
      (fun m m' : Match q.depth => ∀ calls : List Call,
        (Callable.run m' calls).1 = (Callable.run m calls).1 ∧
          (Callable.run m' calls).2.cost = (Callable.run m calls).2.cost ∧
          (Callable.run m' calls).2.inspect = (Callable.run m calls).2.inspect)
      ((index.searcher config).search q) (({ reader, config } : Searcher).search q) :=
  (compile_recoded hr hw q q.depth (Nat.le_refl _)).imp fun _ _ h => h.run

end Searcher

/-! ### A mark in front of every term -/

def unmark? : Bytes → Option Bytes
  | [] => none
  | b :: term => if b = 35 then some term else none

/-- The terms of a list with a mark in front. What has no mark is sought before all terms or behind
them. -/
def TermList.marked (list : TermList) : TermList where
  size := list.size
  entry i := (list.entry i).map fun e => (35 :: e.1, e.2)
  lowerBound code :=
    match unmark? code with
    | some term => list.lowerBound term
    | none => if code < [35] then 0 else list.lowerBound [255]

/-- The reader of an index that has a mark in front of every term. -/
def Index.markedReader (index : Index) : IndexReader where
  docCount := index.docCount
  hasField := index.reader.hasField
  terms field := (index.reader.terms field).map (·.marked)
  lookup field code :=
    match unmark? code with
    | some term => index.reader.lookup field term
    | none => .ok none
  postings := index.reader.postings
  decodeTerm code := (unmark? code).getD code
  encodeTerm term := 35 :: term
  externalId := index.reader.externalId
  readField := index.reader.readField

theorem TermList.coded_marked (list : TermList) : TermList.Coded (35 :: ·) list list.marked where
  size := rfl
  entry i j hij := by
    obtain rfl : i = j := Fin.ext hij
    rfl

theorem IndexWriter.markedReader_recodes {w : IndexWriter} {index : Index}
    (hw : w.commit = .ok index) : index.markedReader.Recodes index where
  docCount := rfl
  hasField _ := rfl
  decode _ := rfl
  increasing hlt := List.cons_lt_cons_iff.mpr (.inr ⟨rfl, hlt⟩)
  unknown h := congrArg (Except.map _) h
  terms {field list} h := by
    refine ⟨list.marked, congrArg (Except.map _) h, list.coded_marked, fun term => ?_⟩
    refine list.coded_marked.firstAt ?_ (firstAt_of_commit hw h term)
    exact fun hlt => List.cons_lt_cons_iff.mpr (.inr ⟨rfl, hlt⟩)
  lookup _ _ := rfl
  postings _ _ := rfl
  readField _ _ := rfl

/-- The documents with a term that starts with a prefix, of those with another term. -/
theorem Searcher.search_recoded_marked : ∃ index, IndexWriter.tagged.commit = .ok index ∧
    index.markedReader.Recodes index ∧ ∃ m,
      ({ reader := index.markedReader } : Searcher).search
          (.and [.multiTerm "id" (.startsWith "b") none, .term "tag" "x"]) = .ok m ∧
        (Callable.run m [.fill 5, .evaluate 0, .reset, .fill 1]).1 =
          [.ok (.served [1]), .ok (.found false), .ok .rewound, .ok (.served [1])] := by
  obtain ⟨index, h⟩ := IndexWriter.exists_tagged
  let q : Query := .and [.multiTerm "id" (.startsWith "b") none, .term "tag" "x"]
  have hr := IndexWriter.markedReader_recodes h.commit
  have hnone : q.faults IndexWriter.tagged.catalog none = [] := by
    cbv
  obtain ⟨m, hm⟩ := (committed_reports h {} q).ok_iff.mpr hnone
  have hselected : IndexWriter.tagged.selected q = [1] := by
    cbv
  have hsearch := search_recoded hr h.commit {} q
  rw [hm] at hsearch
  cases hmarked : ({ reader := index.markedReader } : Searcher).search q with
  | error e =>
    rw [hmarked] at hsearch
    cases hsearch
  | ok m' =>
    rw [hmarked] at hsearch
    cases hsearch with
    | ok hsame =>
      refine ⟨index, h.commit, hr, m', hmarked, ?_⟩
      rw [(hsame _).1, run_selected h {} rfl hm, hselected]
      rfl

end Concordance
