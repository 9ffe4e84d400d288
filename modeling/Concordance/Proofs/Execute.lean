import Concordance.Proofs.Search

/-!
# Executing queries

What a query gives over a committed index is told from the documents and the query: the ids its
match serves, in order, each with its score and the id of its document. No batch size and no block
size is part of that, so none shows in the results: `Searcher.execute_results`.
-/

namespace Concordance

/-! ### What an ordering stage keeps -/

namespace OrderBy

variable {M N : Type} {o : OrderBy M} {σ : Service}

theorem mem_retainBest {k : Nat} {entries : Array SortEntry} {e : SortEntry}
    (h : e ∈ (o.retainBest k entries).toList) : e ∈ entries.toList := by
  unfold retainBest Selection.retainBest at h
  split at h
  · have hselected := List.mem_of_mem_take h
    exact (o.selection.perm_select _ _ _).mem_iff.mp hselected
  · exact h

theorem mem_collect {entries : Array SortEntry} {e new : SortEntry}
    (h : e ∈ (o.collect entries new).toList) : e ∈ entries.toList ∨ e = new := by
  have hpush : e ∈ (entries.push new).toList := by
    unfold collect at h
    dsimp only at h
    split at h
    · split at h
      · exact mem_retainBest h
      · exact h
    · exact h
  rw [Array.toList_push, List.mem_append, List.mem_singleton] at hpush
  exact hpush

theorem mem_foldl_collect {found : List SortEntry} {entries : Array SortEntry} {e : SortEntry}
    (h : e ∈ (found.foldl o.collect entries).toList) : e ∈ entries.toList ∨ e ∈ found := by
  induction found generalizing entries with
  | nil => exact Or.inl h
  | cons first found ih =>
    rcases ih h with h | h
    · rcases mem_collect h with h | rfl
      · exact Or.inl h
      · exact Or.inr List.mem_cons_self
    · exact Or.inr (List.mem_cons_of_mem _ h)

/-- A stage serves ids of its match only. -/
theorem docId_mem_of_kept {e : SortEntry} (h : e ∈ o.kept σ) : e.docId ∈ σ.ids := by
  have hfound : e ∈ ((o.entriesFrom σ 0 σ.ids).foldl o.collect #[]).toList := by
    unfold kept finish SortComparer.sort at h
    rw [List.mem_mergeSort] at h
    split at h
    · exact mem_retainBest h
    · exact h
  rcases mem_foldl_collect hfound with hnone | hmem
  · cases hnone
  · obtain ⟨⟨d, i⟩, hd, rfl⟩ := List.mem_map.mp hmem
    exact List.mem_of_getElem? (List.mk_mem_zipIdx_iff_getElem?.mp hd)

/-- What is kept depends neither on the match, apart from what it serves, nor on the batches. -/
theorem kept_congr {o' : OrderBy N} (hcomparer : o.comparer = o'.comparer)
    (hselection : o.selection = o'.selection) (htake : o.take = o'.take)
    (hread : o.reader.readField = o'.reader.readField) : o.kept σ = o'.kept σ := by
  have hbest : o.retainBest = o'.retainBest := by
    unfold retainBest
    rw [hcomparer, hselection]
  have hcollect : o.collect = o'.collect := by
    unfold collect
    rw [htake, hbest]
  have hentries : o.entriesFrom σ = o'.entriesFrom σ := by
    unfold entriesFrom scoreOf valueOf readValue
    rw [hcomparer, hread]
  unfold kept finish
  rw [hcomparer, htake, hbest, hcollect, hentries]

end OrderBy

/-! ### What a query serves -/

/-- The ids that the match of a query serves, in the order of the query, and their scores. -/
def Query.service (c : Catalog) (reader : IndexReader) (q : Query) : Service where
  ids :=
    match q.ordering? with
    | none => (q.meaning c).ids
    | some (comparer, take) =>
        ((OrderBy.ofMatch NoMatch.mk comparer reader (take.map fun k => k.toInt.toNat) {}).kept
          (Match.service (q.meaning c))).map (·.docId)
  score d := q.score c d

namespace Query

variable {c : Catalog} {q : Query}

theorem service_congr {reader reader' : IndexReader} (h : reader.readField = reader'.readField) :
    q.service c reader = q.service c reader' := by
  unfold service
  cases q.ordering? with
  | none => rfl
  | some order =>
    let stage (r : IndexReader) :=
      OrderBy.ofMatch NoMatch.mk order.1 r (order.2.map fun k => k.toInt.toNat) {}
    have hkept : ∀ σ, (stage reader).kept σ = (stage reader').kept σ :=
      fun _ => OrderBy.kept_congr rfl rfl rfl h
    exact congrArg (fun ids => Service.mk (List.map (·.docId) ids) _) (hkept _)

theorem mem_meaning_of_service {reader : IndexReader} {d : DocId}
    (h : d ∈ (q.service c reader).ids) : d ∈ (q.meaning c).ids := by
  unfold service at h
  dsimp only at h
  split at h
  · exact h
  · obtain ⟨e, he, rfl⟩ := List.mem_map.mp h
    exact OrderBy.docId_mem_of_kept he

end Query

namespace Searcher

variable {s : Searcher} {c : Catalog} {q : Query} {n : Nat} {m : Match n}

/-- The match of a query provides what the query serves, whatever the configuration. -/
theorem Compiled.provides_service (h : Compiled s c q m)
    (hread : ∀ d field, ∃ value, s.reader.readField d field = .ok value) :
    Provides (q.service c s.reader) m (q.service c s.reader).ids := by
  have hscore : (q.meaning c).score = fun d => q.score c d := by
    funext d
    exact Query.score_meaning c d q
  cases m with
  | plain tree =>
    obtain ⟨hplain, hs⟩ := h
    have hnone : q.ordering? = none :=
      Option.isNone_iff_eq_none.mp (Option.isSome_eq_false_iff.mp hplain)
    have hservice : q.service c s.reader = Match.service (q.meaning c) := by
      rw [Query.service, hnone, Match.service, hscore]
    rw [hservice]
    exact Match.provides_plain hs
  | ordered stage =>
    obtain ⟨tree, comparer, take, hq, -, -, rfl, hs⟩ := h
    let bound := take.map fun k => k.toInt.toNat
    let stage := OrderBy.ofMatch tree comparer s.reader bound s.config
    have hreadable : stage.Readable (q.meaning c).ids := by
      intro d _
      obtain ⟨value, hvalue⟩ := OrderBy.exists_readValue (o := stage) d hread
      exact OrderBy.readValue_of_ok hvalue
    have hservice : q.service c s.reader = stage.service (Match.service (q.meaning c)) := by
      rw [Query.service, hq, OrderBy.service, Match.service, hscore]
      rfl
    rw [hservice]
    exact Match.provides_ordered
      (OrderBy.provides tree comparer s.reader bound s.config .bySorting hs.means hreadable)

end Searcher

/-! ### Results told from the documents -/

namespace IndexWriter

variable {w : IndexWriter} {index : Index} {q : Query}

/-- What the match of a query serves over the index of a writer. -/
def service (w : IndexWriter) (q : Query) : Service :=
  q.service w.catalog ({ documents := w.documents } : Index).reader

/-- The results of a query: hits of the first ids served, and the number of all of them. -/
def results (w : IndexWriter) (q : Query) (limit : Option Nat) : SearchResults :=
  .ofHits ((Searcher.wanted limit (w.service q).ids).map
    (Searcher.hit (fun d => w.documents[d.toNat]?.map (·.id)) (w.service q))) (w.service q).ids.length

/-- The block size of the posting lists is no part of the catalog and of the results. -/
theorem results_congr {w' : IndexWriter} (hdocs : w'.documents = w.documents)
    (hid : w'.config.idField = w.config.idField) :
    w'.catalog = w.catalog ∧ w'.results = w.results := by
  obtain ⟨⟨idField, blockSize⟩, documents⟩ := w
  obtain ⟨⟨idField', blockSize'⟩, documents'⟩ := w'
  obtain rfl : documents' = documents := hdocs
  obtain rfl : idField' = idField := hid
  exact ⟨rfl, rfl⟩

theorem Committed.service_eq (h : w.Committed index) (q : Query) :
    q.service w.catalog index.reader = w.service q := by
  apply Query.service_congr
  obtain ⟨fields, documents⟩ := index
  obtain rfl : documents = w.documents := (commit_ok h.commit).1
  rfl

theorem Committed.externalId_eq (h : w.Committed index) (d : DocId) :
    index.reader.externalId d = .ok (w.documents[d.toNat]?.map (·.id)) := by
  rw [← (commit_ok h.commit).1]
  rfl

/-- Every id that is served is that of a document. -/
theorem Committed.exists_doc (h : w.Committed index) {d : DocId} (hd : d ∈ (w.service q).ids) :
    ∃ doc, w.documents[d.toNat]? = some doc := by
  obtain ⟨doc, hdoc, -⟩ := (mem_meaning h.size_lt q).mp (Query.mem_meaning_of_service hd)
  exact ⟨doc, hdoc⟩

end IndexWriter

theorem MatchConfig.fillBatchSize_pos {config : MatchConfig} (h : config.validate = .ok ()) :
    0 < config.fillBatchSize := by
  unfold validate at h
  split at h
  · cases h
  · omega

namespace Searcher

variable {w : IndexWriter} {index : Index} {config : MatchConfig} {q : Query}

theorem provides_service (h : w.Committed index) {m : Match q.depth}
    (hm : (index.searcher config).search q = .ok m) :
    Provides (w.service q) m (w.service q).ids := by
  have hreports := committed_reports h config q
  rw [hm] at hreports
  rw [← h.service_eq]
  exact hreports.of_ok.provides_service fun d field => ⟨_, rfl⟩

/-- A query is executed to its results unless it has a mistake, the first of which is reported. -/
theorem execute_reports (h : w.Committed index) (hconfig : config.validate = .ok ()) (q : Query)
    (limit : Option Nat) :
    Reports (q.faults w.catalog config.maxExpansions) (· = w.results q limit)
      ((index.searcher config).execute q limit) := by
  have hreports := committed_reports h config q
  unfold execute
  cases hm : (index.searcher config).search q with
  | error e =>
    rw [hm] at hreports
    have hfirst := hreports.of_error
    cases hfaults : q.faults w.catalog config.maxExpansions with
    | nil =>
      rw [hfaults] at hfirst
      cases hfirst
    | cons first more =>
      rw [hfaults] at hfirst
      rw [← Option.some.inj hfirst]
      exact .error
  | ok m =>
    rw [hreports.ok_iff.mp ⟨m, hm⟩]
    exact ⟨_, collect_provides h.externalId_eq (MatchConfig.fillBatchSize_pos hconfig) limit
      (provides_service h hm), rfl⟩

/-- The results of a query are the first ids its match serves, each with its score and the id of its
document, and the number of all ids. They are the same in batches and blocks of any other size. -/
theorem execute_results (h : w.Committed index) (hconfig : config.validate = .ok ()) (q : Query) :
    (∀ m, (index.searcher config).search q = .ok m → ∃ σ : Service,
      (∀ calls, (Callable.run m calls).1 = (σ.run σ.ids calls).1) ∧
        (∀ d slot, (Callable.score m [d] #[slot]).1 = .ok #[σ.score d]) ∧
        ∀ limit, ∃ results, (index.searcher config).execute q limit = .ok results ∧
          results.totalHits = σ.ids.length ∧
          List.Forall₂ (fun d hit => hit.docId = d ∧ hit.score = σ.score d ∧
              ∃ doc, w.documents[d.toNat]? = some doc ∧ hit.externalId = some doc.id)
            (wanted limit σ.ids) results.hits) ∧
      ∀ (w' : IndexWriter) (index' : Index) (config' : MatchConfig), w'.Committed index' →
        w'.documents = w.documents → w'.config.idField = w.config.idField →
        config'.validate = .ok () → config'.maxExpansions = config.maxExpansions →
        ∀ limit, (index'.searcher config').execute q limit =
          (index.searcher config).execute q limit := by
  refine ⟨?_, ?_⟩
  · intro m hm
    have hprovides := provides_service h hm
    refine ⟨w.service q, fun calls => (hprovides.run calls).1, fun d slot => hprovides.score rfl, ?_⟩
    intro limit
    have hreports := execute_reports h hconfig q limit
    rw [(committed_reports h config q).ok_iff.mp ⟨m, hm⟩] at hreports
    obtain ⟨_, hexecute, rfl⟩ := hreports
    refine ⟨_, hexecute, rfl, List.forall₂_map_right_iff.mpr (List.forall₂_same.mpr ?_)⟩
    intro d hd
    have hserved : d ∈ (w.service q).ids := by
      cases limit with
      | none => exact hd
      | some most => exact List.mem_of_mem_take hd
    obtain ⟨doc, hdoc⟩ := h.exists_doc hserved
    exact ⟨rfl, rfl, doc, hdoc, congrArg (Option.map _) hdoc⟩
  · intro w' index' config' h' hdocs hid hconfig' hmax limit
    obtain ⟨hcatalog, hresults⟩ := IndexWriter.results_congr hdocs hid
    have hreports := execute_reports h hconfig q limit
    have hreports' := execute_reports h' hconfig' q limit
    rw [hcatalog, hresults, hmax] at hreports'
    exact Reports.unique hreports' hreports fun a b ha hb => ha.trans hb.symm

/-- An ordered query in batches and blocks of one, and in those of the usual sizes. -/
theorem execute_results_taggedFirst :
    let single : IndexWriter := { IndexWriter.tagged with config.postingBlockSize := 1 }
    let small : MatchConfig := { fillBatchSize := 1, scoreBatchSize := 1 }
    ∃ index index', IndexWriter.tagged.Committed index ∧ single.Committed index' ∧
      ({} : MatchConfig).validate = .ok () ∧ small.validate = .ok () ∧
      (∃ m, (index.searcher {}).search taggedFirst = .ok m ∧ ∃ σ : Service,
        (Callable.run m [.fill 2]).1 = [.ok (.served (σ.ids.take 2))] ∧
          ∃ results, (index.searcher {}).execute taggedFirst (some 1) = .ok results ∧
            results.totalHits = σ.ids.length ∧ results.hits.map (·.docId) = σ.ids.take 1) ∧
      (index'.searcher small).execute taggedFirst (some 1) =
        (index.searcher {}).execute taggedFirst (some 1) := by
  intro single small
  obtain ⟨index, h⟩ := IndexWriter.exists_tagged
  have hcount : single.contributions.length < UInt32.size := by
    cbv
  have hok : single.commit.isOk = true := by
    cbv
  obtain ⟨index', h'⟩ := IndexWriter.exists_committed rfl hcount hok
  have hnone : taggedFirst.faults IndexWriter.tagged.catalog none = [] := by
    cbv
  obtain ⟨m, hm⟩ := (committed_reports h {} taggedFirst).ok_iff.mpr hnone
  have hvalid : ({} : MatchConfig).validate = .ok () := rfl
  obtain ⟨hserved, hsame⟩ := execute_results h hvalid taggedFirst
  obtain ⟨σ, hrun, -, hexecute⟩ := hserved m hm
  obtain ⟨results, hresults, htotal, hhits⟩ := hexecute (some 1)
  refine ⟨index, index', h, h', rfl, rfl, ⟨m, hm, σ, hrun _, results, hresults, htotal, ?_⟩,
    hsame single index' small h' rfl rfl rfl rfl (some 1)⟩
  exact (map_eq_of_forall₂ hhits fun d hit hd => hd.1).trans (List.map_id _)

end Searcher

end Concordance
