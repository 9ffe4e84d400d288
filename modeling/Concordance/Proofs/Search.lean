import Mathlib
import Concordance.Proofs.Collect
import Concordance.Proofs.Commit
import Concordance.Proofs.Compile
import Concordance.Proofs.Documents
import Concordance.Proofs.QueryScore
import Concordance.Proofs.Soundness
import Concordance.Proofs.Stage

/-!
# Searching a committed index

What a search answers is told from the documents alone: which documents a query selects
(`Searcher.run_selected`) and how it scores them (`Searcher.run_score`). Mistakes of a query are
found while it is compiled and no call fails afterwards (`Searcher.search_checks`).
-/

namespace Concordance

/-! ### Compiled matches -/

namespace Searcher

variable {s : Searcher} {c : Catalog} {q : Query} {n : Nat} {m : Match n}

/-- The match of a query provides the scores of the query and, unless it orders them, its ids. -/
theorem Compiled.provides (h : Compiled s c q m)
    (hread : ∀ d field, ∃ value, s.reader.readField d field = .ok value) :
    ∃ σ : Service, σ.score = (fun d => q.score c d) ∧
      (q.isOrdering = false → σ.ids = (q.meaning c).ids) ∧ Provides σ m σ.ids := by
  have hscore : (q.meaning c).score = fun d => q.score c d := by
    funext d
    exact Query.score_meaning c d q
  cases m with
  | plain tree =>
    obtain ⟨-, hs⟩ := h
    exact ⟨Match.service (q.meaning c), hscore, fun _ => rfl, Match.provides_plain hs⟩
  | ordered stage =>
    obtain ⟨tree, comparer, take, hq, -, -, rfl, hs⟩ := h
    let stage := OrderBy.ofMatch tree comparer s.reader (take.map fun k => k.toInt.toNat) s.config
    have hreadable : stage.Readable (q.meaning c).ids := by
      intro d _
      obtain ⟨value, hvalue⟩ := OrderBy.exists_readValue (o := stage) d hread
      exact OrderBy.readValue_of_ok hvalue
    refine ⟨_, hscore, ?_, Match.provides_ordered
      (OrderBy.provides tree comparer s.reader _ s.config .bySorting hs.means hreadable)⟩
    intro hplain
    rw [Query.isOrdering, hq] at hplain
    cases hplain

end Searcher

/-! ### Committed indexes -/

def Index.searcher (index : Index) (config : MatchConfig) : Searcher where
  reader := index.reader
  config

namespace IndexWriter

def selected (w : IndexWriter) (q : Query) : List DocId :=
  (AllMatch.below w.docCount).filter fun d =>
    w.documents[d.toNat]?.any (q.selects w.config.idField)

variable {w : IndexWriter} {index : Index}

theorem ids_meaning (hs : w.documents.size < UInt32.size) (q : Query) :
    (q.meaning w.catalog).ids = w.selected q := by
  have hselected : Ascending (w.selected q) := (AllMatch.ascending_below _).filter _
  apply (q.meaning w.catalog).ascending.eq_of_mem_iff hselected
  intro d
  rw [mem_meaning hs, selected, List.mem_filter, AllMatch.mem_below, Option.any_eq_true]
  constructor
  · rintro ⟨doc, hdoc, hselects⟩
    exact ⟨lt_docCount hs hdoc, doc, hdoc, hselects⟩
  · rintro ⟨-, doc, hdoc, hselects⟩
    exact ⟨doc, hdoc, hselects⟩

end IndexWriter

/-- Two documents, the second of which has a tag. -/
def IndexWriter.tagged : IndexWriter where
  config := {}
  documents := #[{ id := "a" }, { id := "b", fields := [("tag", .text "x")] }]

theorem IndexWriter.exists_committed {w : IndexWriter} (hvalid : w.config.validate = .ok ())
    (hcount : w.contributions.length < UInt32.size) (hok : w.commit.isOk = true) :
    ∃ index, w.Committed index := by
  cases hcommit : w.commit with
  | error e =>
    rw [hcommit] at hok
    cases hok
  | ok index =>
    exact ⟨index, hvalid, fun _ => Nat.lt_of_le_of_lt postingCount_le hcount, hcommit⟩

theorem IndexWriter.exists_tagged : ∃ index, IndexWriter.tagged.Committed index := by
  have hcount : IndexWriter.tagged.contributions.length < UInt32.size := by
    cbv
  have hok : IndexWriter.tagged.commit.isOk = true := by
    cbv
  exact exists_committed rfl hcount hok

namespace Searcher

variable {w : IndexWriter} {index : Index} {q : Query} {m : Match q.depth}

theorem committed_reports (h : w.Committed index) (config : MatchConfig) (q : Query) :
    Reports (q.faults w.catalog config.maxExpansions)
      (Compiled (index.searcher config) w.catalog q) ((index.searcher config).search q) :=
  search_reports (s := index.searcher config) h.reader_holds q

theorem provides_of_search (h : w.Committed index) {config : MatchConfig}
    (hm : (index.searcher config).search q = .ok m) :
    ∃ σ : Service, σ.score = (fun d => q.score w.catalog d) ∧
      (q.isOrdering = false → σ.ids = w.selected q) ∧ Provides σ m σ.ids := by
  have hreports := committed_reports h config q
  rw [hm] at hreports
  rw [← IndexWriter.ids_meaning h.size_lt]
  exact hreports.of_ok.provides fun d field => ⟨_, rfl⟩

/-- However its calls are mixed, the match of a query without an ordering serves the documents that
the query selects, in order. -/
theorem run_selected (h : w.Committed index) (config : MatchConfig) (hq : q.isOrdering = false)
    (hm : (index.searcher config).search q = .ok m) (calls : List Call) :
    (Callable.run m calls).1 =
      (Service.run ⟨w.selected q, fun d => q.score w.catalog d⟩ (w.selected q) calls).1 := by
  obtain ⟨σ, hscore, hids, hprovides⟩ := provides_of_search h hm
  rw [(hprovides.run calls).1, ← hscore, ← hids hq]

/-- All documents that do not have the tag. -/
theorem run_selected_untagged : ∃ index m,
    IndexWriter.tagged.Committed index ∧
      (Query.andNot .all (.term "tag" "x")).isOrdering = false ∧
      (index.searcher {}).search (.andNot .all (.term "tag" "x")) = .ok m ∧
      (Callable.run m [.fill 0, .fill 1, .evaluate 1, .fill 5]).1 =
        [.ok (.served []), .ok (.served [0]), .ok (.found false), .ok (.served [])] := by
  obtain ⟨index, h⟩ := IndexWriter.exists_tagged
  let q : Query := .andNot .all (.term "tag" "x")
  have hnone : q.faults IndexWriter.tagged.catalog none = [] := by
    cbv
  obtain ⟨m, hm⟩ := (committed_reports h {} q).ok_iff.mpr hnone
  have hselected : IndexWriter.tagged.selected q = [0] := by
    cbv
  refine ⟨index, m, h, rfl, hm, ?_⟩
  rw [run_selected h {} rfl hm, hselected]
  rfl

/-- Whatever a match was called for before, it scores ids one by one as the query does. -/
theorem run_score (h : w.Committed index) (config : MatchConfig)
    (hm : (index.searcher config).search q = .ok m) (calls : List Call) (ids : List DocId)
    (buffer : Array Float32) (hsize : buffer.size = ids.length) :
    (Callable.score (Callable.run m calls).2 ids buffer).1 =
      .ok (ids.map fun d => q.score w.catalog d).toArray := by
  obtain ⟨σ, hscore, -, hprovides⟩ := provides_of_search h hm
  rw [(hprovides.run calls).2.score hsize, hscore]

def taggedFirst : Query :=
  .orderByScore (.or [.all, .multiTerm "tag" (.startsWith "x") (some (.constant 2))]) none false

theorem run_score_taggedFirst : ∃ index m,
    IndexWriter.tagged.Committed index ∧ (index.searcher {}).search taggedFirst = .ok m ∧
      (#[7, 7, 7] : Array Float32).size = ([1, 0, 1] : List DocId).length ∧
      (Callable.score (Callable.run m [.fill 1]).2 [1, 0, 1] #[7, 7, 7]).1 =
        .ok ([1, 0, 1].map fun d => taggedFirst.score IndexWriter.tagged.catalog d).toArray := by
  obtain ⟨index, h⟩ := IndexWriter.exists_tagged
  have hnone : taggedFirst.faults IndexWriter.tagged.catalog none = [] := by
    cbv
  obtain ⟨m, hm⟩ := (committed_reports h {} taggedFirst).ok_iff.mpr hnone
  exact ⟨index, m, h, hm, rfl, run_score h {} hm [.fill 1] [1, 0, 1] #[7, 7, 7] rfl⟩

/-- A query is compiled when all its parts are sound. Otherwise the first part that is not, children
before their parents, is reported as a mistake of the configuration. Once the query is compiled, no
well-formed call fails, nor does collecting what is left then. -/
theorem search_checks (h : w.Committed index) (config : MatchConfig) (q : Query) :
    ((∃ m, (index.searcher config).search q = .ok m) ↔
        ∀ node ∈ q.nodes, node.Sound w.catalog config.maxExpansions) ∧
      (∀ e, (index.searcher config).search q = .error e →
        ∃ front node back, q.nodes = front ++ node :: back ∧
          (∀ other ∈ front, other.Sound w.catalog config.maxExpansions) ∧
          ¬ node.Sound w.catalog config.maxExpansions ∧
          (node.ownFaults w.catalog config.maxExpansions).head? = some e ∧
          e.isConfiguration = true ∧
          e.kind = if node.termField?.all w.catalog.hasField then .query else .field) ∧
      ∀ m, (index.searcher config).search q = .ok m → ∀ calls : List Call,
        (∀ c ∈ calls, c.WellFormed) →
          (∀ r ∈ (Callable.run m calls).1, ∃ a, r = .ok a) ∧
            ∀ limit, ∃ results,
              ((index.searcher config).collect limit (Callable.run m calls).2).1 = .ok results := by
  have hreports := committed_reports h config q
  refine ⟨?_, ?_, ?_⟩
  · rw [hreports.ok_iff]
    exact Query.faults_eq_nil
  · intro e he
    rw [he] at hreports
    obtain ⟨front, node, back, hnodes, hfront, hnode, hown⟩ := Query.first_fault hreports.of_error
    refine ⟨front, node, back, hnodes, hfront, hnode, hown, ?_, Query.kind_ownFaults hown⟩
    unfold Failure.isConfiguration
    rw [Query.kind_ownFaults hown]
    split <;> rfl
  · intro m hm calls hcalls
    obtain ⟨σ, -, -, hprovides⟩ := provides_of_search h hm
    exact ⟨hprovides.run_ok hcalls, collect_total (fun _ => rfl) (hprovides.run calls).2⟩

/-- A sound query is compiled and then called; one with an unknown field is refused. -/
theorem search_checks_tagged : ∃ index,
    IndexWriter.tagged.Committed index ∧
      (∃ m, (index.searcher {}).search taggedFirst = .ok m ∧
        (∀ r ∈ (Callable.run m [.fill 1, .evaluate 7, .reset]).1, ∃ a, r = .ok a) ∧
          ∃ results, ((index.searcher {}).collect (some 1)
            (Callable.run m [.fill 1, .evaluate 7, .reset]).2).1 = .ok results) ∧
      ∃ e, (index.searcher {}).search (.or [.all, .term "name" "x"]) = .error e ∧
        e.isConfiguration = true := by
  obtain ⟨index, h⟩ := IndexWriter.exists_tagged
  refine ⟨index, h, ?_, ?_⟩
  · obtain ⟨hsound, -, hcalls⟩ := search_checks h {} taggedFirst
    have hnone : taggedFirst.faults IndexWriter.tagged.catalog none = [] := by
      cbv
    obtain ⟨m, hm⟩ := hsound.mpr (Query.faults_eq_nil.mp hnone)
    obtain ⟨hanswers, hcollect⟩ := hcalls m hm [.fill 1, .evaluate 7, .reset] (by decide)
    exact ⟨m, hm, hanswers, hcollect (some 1)⟩
  · obtain ⟨hsound, herror, -⟩ := search_checks h {} (.or [.all, .term "name" "x"])
    have hsome : (Query.or [.all, .term "name" "x"]).faults IndexWriter.tagged.catalog none =
        [.unknownField "name"] := by
      cbv
    cases hs : (index.searcher {}).search (.or [.all, .term "name" "x"]) with
    | ok m =>
      have hnone := Query.faults_eq_nil.mpr (hsound.mp ⟨m, hs⟩)
      rw [hsome] at hnone
      cases hnone
    | error e =>
      obtain ⟨_, _, _, _, _, _, _, hconfiguration, -⟩ := herror e hs
      exact ⟨e, rfl, hconfiguration⟩

end Searcher

end Concordance
