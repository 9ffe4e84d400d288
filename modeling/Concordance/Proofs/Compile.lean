import Concordance.Proofs.QueryMeaning
import Concordance.Search.Searcher

/-!
# Compiling queries

Over a reader that holds a catalog, the match of a query stands for the meaning of the query, and
making it fails with the first of the query's mistakes: `Searcher.compile_reports`.
-/

namespace Concordance

open Matcher (Means Serves)

/-! ### Results that report mistakes -/

/-- A result that fails with the first of some mistakes and is good when there are none. -/
def Reports (faults : List Failure) (P : α → Prop) (r : Except Failure α) : Prop :=
  match faults with
  | [] => ∃ a, r = .ok a ∧ P a
  | e :: _ => r = .error e

namespace Reports

variable {faults more : List Failure} {P : α → Prop} {Q : β → Prop}

theorem ok {a : α} (h : P a) : Reports [] P (.ok a) := ⟨a, rfl, h⟩

theorem error {e : Failure} : Reports (e :: faults) P (.error e) := rfl

theorem bind {r : Except Failure α} {k : α → Except Failure β} (h : Reports faults P r)
    (hk : ∀ a, P a → Reports more Q (k a)) : Reports (faults ++ more) Q (r.bind k) := by
  cases faults with
  | nil =>
    obtain ⟨a, rfl, ha⟩ := h
    exact hk a ha
  | cons e faults =>
    obtain rfl : r = .error e := h
    rfl

theorem map {r : Except Failure α} {f : α → β} (h : Reports faults P r)
    (hf : ∀ a, P a → Q (f a)) : Reports faults Q (r.map f) := by
  cases faults with
  | nil =>
    obtain ⟨a, rfl, ha⟩ := h
    exact ⟨f a, rfl, hf a ha⟩
  | cons e faults =>
    obtain rfl : r = .error e := h
    rfl

theorem imp {P' : α → Prop} {r : Except Failure α} (h : Reports faults P r)
    (hP : ∀ a, P a → P' a) : Reports faults P' r := by
  cases faults with
  | nil =>
    obtain ⟨a, rfl, ha⟩ := h
    exact ⟨a, rfl, hP a ha⟩
  | cons e faults => exact h

theorem ok_iff {r : Except Failure α} (h : Reports faults P r) :
    (∃ a, r = .ok a) ↔ faults = [] := by
  cases faults with
  | nil =>
    obtain ⟨a, rfl, -⟩ := h
    exact iff_of_true ⟨a, rfl⟩ rfl
  | cons e faults =>
    obtain rfl : r = .error e := h
    refine iff_of_false ?_ (List.cons_ne_nil e faults)
    rintro ⟨a, ha⟩
    cases ha

theorem of_ok {a : α} (h : Reports faults P (.ok a)) : P a := by
  cases faults with
  | nil =>
    obtain ⟨b, hb, hp⟩ := h
    rw [Except.ok.inj hb]
    exact hp
  | cons e faults => cases h

theorem of_error {e : Failure} (h : Reports faults P (.error e)) : faults.head? = some e := by
  cases faults with
  | nil =>
    obtain ⟨a, ha, -⟩ := h
    cases ha
  | cons first faults =>
    rw [Except.error.inj h]
    rfl

/-- Two results that report the same mistakes are equal when there is but one good result. -/
theorem unique {r r' : Except Failure α} (h : Reports faults P r) (h' : Reports faults P r')
    (hP : ∀ a b, P a → P b → a = b) : r = r' := by
  cases faults with
  | nil =>
    obtain ⟨a, rfl, ha⟩ := h
    obtain ⟨b, rfl, hb⟩ := h'
    rw [hP a b ha hb]
  | cons e faults =>
    obtain rfl : r = .error e := h
    obtain rfl : r' = .error e := h'
    rfl

/-- A test before the rest of a construction. -/
theorem guard {e : Failure} {b : Bool} {r : Except Failure α}
    (h : b = false → Reports faults P r) :
    Reports ((if b then [e] else []) ++ faults) P (if b then .error e else r) := by
  cases b with
  | true => rfl
  | false => exact h rfl

end Reports

namespace Searcher

variable {s : Searcher} {c : Catalog} {n : Nat}

/-- The match of a query: a tree, or for an ordering a stage that has not been asked for ids over the
tree of what it orders. -/
def Compiled (s : Searcher) (c : Catalog) (q : Query) : Match n → Prop
  | .plain tree => q.isOrdering = false ∧ Serves (q.meaning c) tree (q.meaning c).ids
  | .ordered stage => ∃ tree comparer take,
      q.ordering? = some (comparer, take) ∧
      (∀ field ∈ comparer.field, c.hasField field = true) ∧
      (∀ k ∈ take, 0 < k) ∧
      stage = .ofMatch tree comparer s.reader (take.map fun k => k.toInt.toNat) s.config ∧
      Serves (q.meaning c) tree (q.meaning c).ids

/-! ### Matches without children -/

theorem term_reports (hr : s.reader.Holds c) (field value : String) :
    Reports (Query.fieldFaults c field) (Compiled (n := n) s c (.term field value))
      (s.term field (utf8 value)) := by
  unfold Query.fieldFaults Catalog.hasField term TermMatch.ofTerm
  cases ht : c.table field with
  | none =>
    rw [(hr.unknown ht).2]
    rfl
  | some t =>
    have hfind : c.find? field (utf8 value) = t.find? (utf8 value) := by
      rw [Catalog.find?, ht]
      rfl
    cases hf : t.find? (utf8 value) with
    | none =>
      rw [hr.absent ht hf]
      refine ⟨_, rfl, rfl, (Tree.embeds_term n).serves ?_⟩
      rw [Query.meaning, hfind, hf]
      exact TermMatch.serves .nil ⟨rfl, rfl⟩
    | some e =>
      obtain ⟨info, hlookup, hopens⟩ := hr.present ht hf
      obtain ⟨cursor, blocks, hopen, hdocs, hreads⟩ := hopens
      rw [hlookup]
      simp only [bind, Except.bind, hopen, pure, Except.pure]
      refine ⟨_, rfl, rfl, (Tree.embeds_term n).serves ?_⟩
      rw [Query.meaning, hfind, hf]
      exact TermMatch.serves e.ascending ⟨blocks, hdocs, hreads⟩

theorem name_map (f : α → β) (p : TermPredicate α) : (p.map f).name = p.name := by
  cases p <;> rfl

/-- A match that stands for what some terms gather. -/
def Gathered (c : Catalog) (score : Option ScoreFunction) (entries : List TermDocs) (m : Match n) :
    Prop :=
  ∃ tree, m = .plain tree ∧ Serves (c.gather (score.map (·, c.docCount)) entries) tree
    (c.gather (score.map (·, c.docCount)) entries).ids

theorem Gathered.compiled {q : Query} {score : Option ScoreSpec} {entries : List TermDocs}
    {m : Match n} (h : Gathered c (score.map (·.function)) entries m) (hq : q.isOrdering = false)
    (hm : q.meaning c = c.gather (Query.scoring c score) entries) : Compiled s c q m := by
  obtain ⟨tree, rfl, hs⟩ := h
  have hscoring : (score.map (·.function)).map (·, c.docCount) = Query.scoring c score :=
    Option.map_map ..
  rw [hscoring, ← hm] at hs
  exact ⟨hq, hs⟩

/-- The match of the terms that a provider enumerates. -/
theorem expand_reports (hr : s.reader.Holds c) {P : Type} [TermProvider P]
    {R : P → List TermDocs → Prop} {operation field : String}
    (he : TermProvider.Enumerates field R)
    (hd : ∀ {p rest}, R p rest →
      (TermProvider.inspect p).operation = operation ∧ TermProvider.field p = field)
    {p : P} {entries : List TermDocs} (hp : R p entries)
    (hb : ∀ e ∈ entries, ∀ d ∈ e.docs, d < c.docCount) (score : Option ScoreFunction) :
    Reports (Query.limitFaults s.config.maxExpansions operation field entries.length)
      (Gathered (n := n) c score entries) (s.expand p score) := by
  have hx := MultiTermMatch.expand_enumerates he hd hp
    s.config.maxExpansions 0 (by simp)
  rw [Nat.zero_add] at hx
  unfold Query.limitFaults expand MultiTermMatch.ofProvider
  split at hx
  · obtain ⟨ms, hms, hreads⟩ := hx
    rename_i hall
    rw [if_pos hall, hms]
    refine ⟨_, rfl, _, rfl, (Tree.embeds_multiTerm n).serves ?_⟩
    refine MultiTermMatch.serves (Catalog.gathers hb) hreads s.config.fillBatchSize ?_ ?_ ?_
    · cases score <;> rfl
    · cases score with
      | none => rfl
      | some function =>
        show some (function, s.reader.docCount) = some (function, c.docCount)
        rw [hr.docCount]
    · cases score <;> rfl
  · rename_i hall
    rw [if_neg hall, hx]
    rfl

theorem multiTerm_reports (hr : s.reader.Holds c) (field : String)
    (predicate : TermPredicate String) (score : Option ScoreSpec) :
    Reports (Query.ownFaults c s.config.maxExpansions (.multiTerm field predicate score))
      (Compiled (n := n) s c (.multiTerm field predicate score))
      (s.multiTerm field (predicate.map utf8) (score.map (·.function))) := by
  have hb : ∀ e ∈ Query.matching c field predicate, ∀ d ∈ e.docs, d < c.docCount :=
    fun e he _ hd => Catalog.lt_docCount (List.mem_of_mem_filter he) hd
  refine (Reports.bind (P := fun p => ∃ t, c.table field = some t ∧
    PredicateTerms.Stands s.reader field (predicate.map utf8) t p
      ((predicate.map utf8).select t.entries)) ?_ ?_ : Reports (Query.fieldFaults c field ++ _) _ _)
  · unfold Query.fieldFaults Catalog.hasField
    cases ht : c.table field with
    | none =>
      rw [PredicateTerms.ofField, (hr.unknown ht).1]
      exact .error
    | some t =>
      obtain ⟨p, hp, hstands⟩ := PredicateTerms.stands_ofField hr ht
      exact ⟨p, hp, t, rfl, hstands⟩
  · rintro p ⟨t, ht, hstands⟩
    have hentries : Query.matching c field predicate = (predicate.map utf8).select t.entries := by
      rw [Query.matching, Catalog.terms, ht]
    refine (expand_reports hr (PredicateTerms.enumerates hr ht) (fun {p rest} h => ⟨?_, h.field_eq⟩)
      (hentries ▸ hstands) hb _).imp fun m hm => hm.compiled rfl (by rw [Query.meaning])
    rw [← name_map utf8, ← h.predicate_eq]
    show p.inspect.operation = _
    unfold PredicateTerms.inspect
    cases p.predicate.operand? <;> rfl

/-- The match of a list of terms, which are looked up one after the other. -/
theorem oneOf_gathers (hr : s.reader.Holds c) (field : String) (terms : List Bytes)
    (score : Option ScoreFunction) :
    Reports (Query.fieldFaults c field ++ Query.limitFaults s.config.maxExpansions "In" field
        (terms.filterMap (c.find? field)).length)
      (Gathered (n := n) c score (terms.filterMap (c.find? field))) (s.oneOf field terms score) := by
  have hb : ∀ e ∈ terms.filterMap (c.find? field), ∀ d ∈ e.docs, d < c.docCount := by
    intro e he d hd
    obtain ⟨term, -, hf⟩ := List.mem_filterMap.mp he
    obtain ⟨t, ht, hf⟩ := Option.bind_eq_some_iff.mp hf
    exact c.bounded ht e (TermTable.find?_eq_some.mp hf).1 d hd
  refine Reports.bind (P := fun p => ∃ t, c.table field = some t ∧
    ListedTerms.Stands s.reader field terms t p (ListedTerms.select t terms)) ?_ ?_
  · unfold Query.fieldFaults Catalog.hasField
    cases ht : c.table field with
    | none =>
      have hfield : s.reader.hasField field = false := by
        rw [hr.hasField, Catalog.hasField, ht]
        rfl
      rw [ListedTerms.ofField, hfield]
      exact .error
    | some t =>
      obtain ⟨p, hp, hstands⟩ := ListedTerms.stands_ofField hr ht terms
      exact ⟨p, hp, t, rfl, hstands⟩
  · rintro p ⟨t, ht, hstands⟩
    have hfind : c.find? field = t.find? := by
      funext term
      rw [Catalog.find?, ht]
      rfl
    have hentries : terms.filterMap (c.find? field) = ListedTerms.select t terms := by
      rw [hfind]
      rfl
    exact expand_reports hr (ListedTerms.enumerates hr ht) (fun h => ⟨rfl, h.field_eq⟩)
      (hentries ▸ hstands) hb score

theorem oneOf_reports (hr : s.reader.Holds c) (field : String) (values : List String)
    (score : Option ScoreSpec) :
    Reports (Query.ownFaults c s.config.maxExpansions (.oneOf field values score))
      (Compiled (n := n) s c (.oneOf field values score))
      (s.oneOf field (values.map utf8) (score.map (·.function))) := by
  have hgathers := oneOf_gathers (n := n) hr field (values.map utf8) (score.map (·.function))
  refine hgathers.imp fun m hm => hm.compiled rfl ?_
  rw [Query.meaning, Query.listed]

theorem all_compiled (hr : s.reader.Holds c) : Compiled (n := n) s c .all s.allEntries := by
  refine ⟨rfl, (Tree.embeds_all n).serves ?_⟩
  rw [hr.docCount]
  exact AllMatch.serves c.docCount

/-! ### Children -/

/-- The meanings of queries and the trees that stand for them. -/
abbrev Trees (c : Catalog) (qs : List Query) (trees : List (Tree n)) : Prop :=
  List.Forall₂ (fun ν tree => Means ν tree ν.ids) (Query.meanings c qs) trees

theorem operation_inspect {M : Type} [Matcher M] (stage : OrderBy M) :
    stage.inspect.operation = "OrderByMatch" := by
  unfold OrderBy.inspect
  cases stage.take <;> rfl

theorem child_reports {q : Query} {m : Match n} (h : Compiled s c q m) (parent : String) :
    Reports (Query.childFaults parent q)
      (fun tree => Serves (q.meaning c) tree (q.meaning c).ids) (m.child parent) := by
  unfold Query.childFaults
  cases m with
  | plain tree =>
    obtain ⟨hq, hs⟩ := h
    rw [hq]
    exact .ok hs
  | ordered stage =>
    obtain ⟨tree, comparer, take, hq, -⟩ := h
    rw [Query.isOrdering, hq]
    show Except.error (Failure.orderedChild parent stage.inspect.operation) = Except.error _
    rw [operation_inspect]

theorem children_reports {qs : List Query} {ms : List (Match n)}
    (h : List.Forall₂ (Compiled s c) qs ms) (parent : String) :
    Reports (qs.flatMap (Query.childFaults parent)) (Trees c qs) (Match.children parent ms) := by
  induction h with
  | nil => exact .ok .nil
  | cons hm _ ih =>
    rw [List.flatMap_cons]
    apply (child_reports hm parent).bind
    intro tree htree
    exact ih.map fun trees htrees => .cons htree.means htrees

/-! ### Combinations -/

theorem and_reports {qs : List Query} {ms : List (Match n)}
    (h : List.Forall₂ (Compiled s c) qs ms) :
    Reports (Query.ownFaults c s.config.maxExpansions (.and qs)) (Compiled s c (.and qs))
      (Match.and s.config ms) := by
  cases h with
  | nil => exact .error
  | @cons q m qs ms hm hms =>
    refine ((child_reports hm "AndMatch").bind fun first hfirst => ?_ : Reports
      (Query.childFaults "AndMatch" q ++ qs.flatMap (Query.childFaults "AndMatch")) _ _)
    apply (children_reports hms "AndMatch").map
    intro others hothers
    refine ⟨rfl, Node.embeds_and.serves ?_⟩
    exact AndMatch.serves (Catalog.intersects (Query.covers_meaning c q)) hfirst.means hothers _

theorem or_reports {qs : List Query} {ms : List (Match n)} (h : List.Forall₂ (Compiled s c) qs ms) :
    Reports (Query.ownFaults c s.config.maxExpansions (.or qs)) (Compiled s c (.or qs))
      (Match.or s.config ms) := by
  unfold Match.or
  apply (children_reports h "OrMatch").map
  intro trees htrees
  refine ⟨rfl, Node.embeds_or.serves ?_⟩
  exact OrMatch.serves (Catalog.unites (Query.covers_meanings c qs)) htrees _ _

theorem andNot_reports {base exclusion : Query} {m excluded : Match n} (hm : Compiled s c base m)
    (hx : Compiled s c exclusion excluded) :
    Reports (Query.ownFaults c s.config.maxExpansions (.andNot base exclusion))
      (Compiled s c (.andNot base exclusion)) (Match.andNot m excluded) := by
  unfold Match.andNot
  apply (child_reports hm "AndNotMatch").bind
  intro tree htree
  apply (child_reports hx "AndNotMatch").map
  intro removed hremoved
  refine ⟨rfl, Node.embeds_andNot.serves ?_⟩
  exact AndNotMatch.serves htree.means ⟨_, hremoved.means⟩

theorem boost_reports {child : Query} {m : Match n} (h : Compiled s c child m) (factor : Float32) :
    Reports (Query.ownFaults c s.config.maxExpansions (.boost child factor))
      (Compiled s c (.boost child factor)) (m.boost factor) := by
  unfold Match.boost
  refine Reports.guard fun _ => (child_reports h "BoostMatch").map fun tree htree => ?_
  exact ⟨rfl, Node.embeds_boost.serves (BoostMatch.serves (.constant factor) htree)⟩

theorem boostBy_reports (hr : s.reader.Holds c) {child : Query} {m : Match n}
    (h : Compiled s c child m) (function : ScoreSpec) :
    Reports (Query.ownFaults c s.config.maxExpansions (.boostBy child function))
      (Compiled s c (.boostBy child function))
      (m.boostBy function.function s.reader.docCount) := by
  unfold Match.boostBy
  apply (child_reports h "BoostMatch").map
  intro tree htree
  rw [hr.docCount]
  exact ⟨rfl, Node.embeds_boost.serves (BoostMatch.serves _ htree)⟩

/-! ### Orderings -/

theorem positiveTake_reports (take : Option Int64) :
    Reports (Query.takeFaults take)
      (fun bound => bound = take.map (fun k => k.toInt.toNat) ∧ ∀ k ∈ take, 0 < k)
      (positiveTake take) := by
  cases take with
  | none => exact .ok ⟨rfl, fun k hk => by simp at hk⟩
  | some k =>
    unfold Query.takeFaults positiveTake
    dsimp only
    by_cases hk : k ≤ 0
    · rw [if_pos hk, if_pos hk]
      exact .error
    · rw [if_neg hk, if_neg hk]
      refine .ok ⟨rfl, fun k' hk' => ?_⟩
      rw [← Option.some.inj hk']
      exact Int64.not_le.mp hk

theorem toNat_pos_of_pos {k : Int64} (h : 0 < k) : 0 < k.toInt.toNat := by
  have := Int64.lt_iff_toInt_lt.mp h
  rw [Int64.toInt_zero] at this
  omega

/-- The stage over a match, once the bound and the field have passed. -/
theorem stage_reports {child q : Query} {m : Match n} (h : Compiled s c child m)
    {comparer : SortComparer} {take : Option Int64} (hq : q.ordering? = some (comparer, take))
    (hm : q.meaning c = child.meaning c) (htake : ∀ k ∈ take, 0 < k)
    (hfield : ∀ field ∈ comparer.field, c.hasField field = true) :
    Reports (if child.isOrdering then [Failure.orderedTwice] else []) (Compiled s c q)
      (match m with
        | .plain tree => .ok (.ordered (.ofMatch tree comparer s.reader
            (take.map fun k => k.toInt.toNat) s.config))
        | .ordered _ => .error .orderedTwice) := by
  cases m with
  | plain tree =>
    obtain ⟨hchild, hs⟩ := h
    rw [hchild]
    refine .ok ⟨tree, comparer, take, hq, hfield, htake, rfl, ?_⟩
    rw [hm]
    exact hs
  | ordered stage =>
    obtain ⟨_, _, _, hchild, _⟩ := h
    rw [Query.isOrdering, hchild]
    rfl

theorem orderBy_reports (hr : s.reader.Holds c) {child q : Query} {m : Match n}
    (h : Compiled s c child m) {comparer : SortComparer} {take : Option Int64}
    (hq : q.ordering? = some (comparer, take)) (hm : q.meaning c = child.meaning c) :
    Reports (Query.orderFaults c child comparer.field take) (Compiled s c q)
      ((positiveTake take).bind fun bound => s.orderBy m comparer bound) := by
  unfold Query.orderFaults
  rw [List.append_assoc]
  refine (positiveTake_reports take).bind ?_
  rintro _ ⟨rfl, htake⟩
  unfold orderBy Match.orderBy
  have hpos : take.map (fun k => k.toInt.toNat) ≠ some 0 := by
    intro hzero
    obtain ⟨k, hk, hk0⟩ := Option.map_eq_some_iff.mp hzero
    have := toNat_pos_of_pos (htake k hk)
    omega
  rw [if_neg hpos]
  have hrest := stage_reports h hq hm htake
  cases hfield : comparer.field with
  | none =>
    rw [hfield] at hrest
    exact hrest fun field hf => by simp at hf
  | some field =>
    rw [hfield] at hrest
    rw [Option.filter_some, hr.hasField]
    dsimp only
    cases hknown : c.hasField field with
    | true =>
      apply hrest
      intro field' hf
      rw [← Option.some.inj hf]
      exact hknown
    | false => exact .error

/-! ### Whole queries -/

mutual

/-- Making the match of a query finds the first of its mistakes, and without one the match stands
for what the query stands for. -/
theorem compile_reports (hr : s.reader.Holds c) : (q : Query) → (n : Nat) → (h : q.depth ≤ n) →
    Reports (q.faults c s.config.maxExpansions) (Compiled s c q) (s.compile q n h)
  | .term field value, n, h => by
    rw [compile, Query.faults, Query.nodes, List.flatMap_singleton]
    exact term_reports hr field value
  | .multiTerm field predicate score, n, h => by
    rw [compile, Query.faults, Query.nodes, List.flatMap_singleton]
    exact multiTerm_reports hr field predicate score
  | .oneOf field values score, n, h => by
    rw [compile, Query.faults, Query.nodes, List.flatMap_singleton]
    exact oneOf_reports hr field values score
  | .all, n, h => by
    rw [compile, Query.faults, Query.nodes, List.flatMap_singleton]
    exact .ok (all_compiled hr)
  | .and children, n + 1, h => by
    rw [compile, Query.faults, Query.nodes, List.flatMap_append, List.flatMap_singleton]
    exact (compileAll_reports hr children n _).bind fun _ hms => and_reports hms
  | .or children, n + 1, h => by
    rw [compile, Query.faults, Query.nodes, List.flatMap_append, List.flatMap_singleton]
    exact (compileAll_reports hr children n _).bind fun _ hms => or_reports hms
  | .andNot base exclusion, n + 1, h => by
    rw [compile, Query.faults, Query.nodes, List.flatMap_append, List.flatMap_append,
      List.flatMap_singleton, List.append_assoc]
    exact (compile_reports hr base n _).bind fun _ hm =>
      (compile_reports hr exclusion n _).bind fun _ hx => andNot_reports hm hx
  | .boost child factor, n + 1, h => by
    rw [compile, Query.faults, Query.nodes, List.flatMap_append, List.flatMap_singleton]
    exact (compile_reports hr child n _).bind fun _ hm => boost_reports hm factor
  | .boostBy child function, n + 1, h => by
    rw [compile, Query.faults, Query.nodes, List.flatMap_append, List.flatMap_singleton]
    exact (compile_reports hr child n _).bind fun _ hm => boostBy_reports hr hm function
  | .orderByScore child take ascending, n, h => by
    rw [compile, Query.faults, Query.nodes, List.flatMap_append, List.flatMap_singleton]
    apply (compile_reports hr child n _).bind
    intro _ hm
    have horder := orderBy_reports hr hm (q := .orderByScore child take ascending) rfl
      (by rw [Query.meaning])
    cases ascending <;> exact horder
  | .orderByField child field descending take, n, h => by
    rw [compile, Query.faults, Query.nodes, List.flatMap_append, List.flatMap_singleton]
    exact (compile_reports hr child n _).bind fun _ hm =>
      orderBy_reports hr hm (q := .orderByField child field descending take) rfl
        (by rw [Query.meaning])

theorem compileAll_reports (hr : s.reader.Holds c) :
    (qs : List Query) → (n : Nat) → (h : Query.depths qs ≤ n) →
    Reports ((Query.nodesOfAll qs).flatMap (Query.ownFaults c s.config.maxExpansions))
      (fun ms => List.Forall₂ (Compiled s c) qs ms) (s.compileAll qs n h)
  | [], n, h => by
    rw [compileAll]
    exact .ok .nil
  | q :: qs, n, h => by
    rw [compileAll, Query.nodesOfAll, List.flatMap_append]
    apply (compile_reports hr q n _).bind
    intro m hm
    exact (compileAll_reports hr qs n _).map fun ms hms => .cons hm hms

end

theorem search_reports (hr : s.reader.Holds c) (q : Query) :
    Reports (q.faults c s.config.maxExpansions) (Compiled s c q) (s.search q) :=
  compile_reports hr q q.depth (Nat.le_refl _)

end Searcher

end Concordance
