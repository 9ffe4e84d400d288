import Concordance.Proofs.DocumentFrequency
import Concordance.Proofs.Execute

/-!
# Lists that repeat a term

A list of terms is taken as it stands: a term that is listed twice is opened, counted and scored
twice. So a list has the documents of the list without repetitions, but may have too many terms where
the other has not, and gives a higher score to the documents that have a repeated term:
`Searcher.oneOf_repeated`.
-/

namespace Concordance

/-! ### Lists without repetitions -/

section

variable {α : Type} [BEq α]

theorem length_eraseDups_le : (xs : List α) → xs.eraseDups.length ≤ xs.length
  | [] => Nat.le_refl _
  | x :: xs => by
    have hlength := List.length_filter_le (fun y => !y == x) xs
    have ih := length_eraseDups_le (xs.filter fun y => !y == x)
    rw [List.eraseDups_cons, List.length_cons, List.length_cons]
    omega
termination_by xs => xs.length
decreasing_by exact Nat.lt_succ_of_le hlength

variable [LawfulBEq α]

theorem filter_eraseDups (p : α → Bool) : (xs : List α) →
    xs.eraseDups.filter p = (xs.filter p).eraseDups
  | [] => rfl
  | x :: xs => by
    have hlength := List.length_filter_le (fun y => !y == x) xs
    have ih := filter_eraseDups p (xs.filter fun y => !y == x)
    rw [List.filter_filter] at ih
    rw [List.eraseDups_cons]
    by_cases hx : p x = true
    · rw [List.filter_cons_of_pos hx, List.filter_cons_of_pos hx, List.eraseDups_cons, ih,
        List.filter_filter]
      simp only [Bool.and_comm]
    · rw [List.filter_cons_of_neg hx, List.filter_cons_of_neg hx, ih]
      refine congrArg List.eraseDups (List.filter_congr fun y _ => ?_)
      by_cases hy : y = x
      · simp [hy, hx]
      · simp [hy]
termination_by xs => xs.length
decreasing_by exact Nat.lt_succ_of_le hlength

theorem eraseDups_of_nodup {xs : List α} (h : xs.Nodup) : xs.eraseDups = xs := by
  induction xs with
  | nil => rfl
  | cons x xs ih =>
    obtain ⟨hx, hxs⟩ := List.nodup_cons.mp h
    have hothers : xs.filter (fun y => !y == x) = xs :=
      List.filter_eq_self.mpr fun y hy => by simpa using ne_of_mem_of_not_mem hy hx
    rw [List.eraseDups_cons, hothers, ih hxs]

end

/-! ### Services that score some documents alike -/

/-- Whether a call asks for the scores of no other documents than some. -/
def Call.ScoresOnly (p : DocId → Prop) : Call → Prop
  | score ids _ => ∀ d ∈ ids, p d
  | _ => True

namespace Service

variable {σ σ' : Service} {p : DocId → Prop}

theorem answer_congr (hids : σ.ids = σ'.ids) (hscore : ∀ d, p d → σ.score d = σ'.score d) {c : Call}
    (h : c.ScoresOnly p) (rest : List DocId) : σ.answer rest c = σ'.answer rest c := by
  cases c with
  | score ids buffer =>
    have hscores : ids.map σ.score = ids.map σ'.score :=
      List.map_congr_left fun d hd => hscore d (h d hd)
    rw [answer, answer, hscores]
  | evaluate d => rw [answer, answer, hids]
  | reset => rw [answer, answer, hids]
  | fill n => rfl

theorem run_congr (hids : σ.ids = σ'.ids) (hscore : ∀ d, p d → σ.score d = σ'.score d)
    {calls : List Call} (h : ∀ c ∈ calls, c.ScoresOnly p) (rest : List DocId) :
    σ.run rest calls = σ'.run rest calls := by
  induction calls generalizing rest with
  | nil => rfl
  | cons c calls ih =>
    rw [run, run, answer_congr hids hscore (h c List.mem_cons_self),
      ih fun c hc => h c (List.mem_cons_of_mem _ hc)]

end Service

/-! ### What a list of terms serves -/

namespace IndexWriter

variable {w : IndexWriter} {index : Index} {field : String}

/-- The terms of a list that a field has, as often as they are listed. -/
def known (w : IndexWriter) (field : String) (terms : List Bytes) : List Bytes :=
  terms.filter (w.contributed field).contains

/-- The terms of a list that a document has, as often as they are listed. -/
def termsHeld (w : IndexWriter) (field : String) (terms : List Bytes) (d : DocId) : List Bytes :=
  terms.filter fun term => decide (d ∈ w.holders field term)

/-- The documents that have a term of a list. The score of a document adds up what a score function
gives for each term it has, once for each time the term is listed. -/
def listing (w : IndexWriter) (field : String) (score : Option ScoreFunction) (terms : List Bytes) :
    Service where
  ids := (AllMatch.below w.docCount).filter fun d => w.termsHeld field terms d ≠ []
  score d :=
    match score with
    | none => neutralScore
    | some function => (w.termsHeld field terms d).foldl
        (fun total term => total + function.score ⟨d, w.docFreq field term, w.docCount⟩) 0

theorem find?_catalog_term (term : Bytes) : (w.catalog.find? field term).map (·.term) =
    if term ∈ w.contributed field then some term else none := by
  unfold Catalog.find? catalog
  by_cases hempty : (w.contributed field).isEmpty
  · simp [List.isEmpty_iff.mp hempty]
  · simp only [if_neg hempty]
    exact find?_table term

theorem terms_found (terms : List Bytes) :
    (terms.filterMap (w.catalog.find? field)).map (·.term) = w.known field terms := by
  rw [known, List.map_filterMap, ← List.filterMap_eq_filter]
  refine List.filterMap_congr fun term _ => ?_
  rw [find?_catalog_term]
  simp [Option.guard]

theorem docs_found {terms : List Bytes} {e : TermDocs}
    (he : e ∈ terms.filterMap (w.catalog.find? field)) : e.docs = w.holders field e.term := by
  obtain ⟨term, -, hfound⟩ := List.mem_filterMap.mp he
  obtain ⟨hmem, -⟩ := find?_catalog.mp hfound
  rw [terms_catalog] at hmem
  exact (mem_table hmem).2

theorem termsHeld_eq (terms : List Bytes) (d : DocId) :
    w.termsHeld field terms d =
      ((terms.filterMap (w.catalog.find? field)).filter fun e => decide (d ∈ e.docs)).map
        (·.term) := by
  have hknown : w.termsHeld field terms d =
      (w.known field terms).filter fun term => decide (d ∈ w.holders field term) := by
    rw [known, List.filter_filter]
    refine List.filter_congr fun term _ => ?_
    by_cases hd : d ∈ w.holders field term
    · obtain ⟨-, doc, hdoc, hterm⟩ := mem_holders.mp hd
      have hcontributed : term ∈ w.contributed field :=
        mem_contributed.mpr ⟨doc, Array.mem_toList_iff.mpr (Array.mem_of_getElem? hdoc), hterm⟩
      simp [hd, hcontributed]
    · simp [hd]
  rw [hknown, ← terms_found, List.filter_map]
  refine congrArg (List.map _) (List.filter_congr fun e he => ?_)
  rw [docs_found he]
  rfl

/-! ### Without repetitions -/

theorem length_known_eraseDups_le (w : IndexWriter) {terms : List Bytes} :
    (w.known field terms.eraseDups).length ≤ (w.known field terms).length := by
  rw [known, filter_eraseDups]
  exact length_eraseDups_le _

theorem ids_listing_eraseDups (w : IndexWriter) (field : String) (score : Option ScoreFunction)
    (terms : List Bytes) :
    (w.listing field score terms.eraseDups).ids = (w.listing field score terms).ids := by
  refine List.filter_congr fun d _ => ?_
  rw [termsHeld, filter_eraseDups, ← termsHeld]
  cases w.termsHeld field terms d with
  | nil => rfl
  | cons term more => simp [List.eraseDups_cons]

theorem score_listing_eraseDups (w : IndexWriter) {score : Option ScoreFunction}
    {terms : List Bytes} {d : DocId} (h : score = none ∨ (w.termsHeld field terms d).Nodup) :
    (w.listing field score terms).score d = (w.listing field score terms.eraseDups).score d := by
  rcases h with rfl | hnodup
  · rfl
  · have hheld : w.termsHeld field terms.eraseDups d = w.termsHeld field terms d := by
      rw [termsHeld, filter_eraseDups]
      exact eraseDups_of_nodup hnodup
    simp only [listing, hheld]

/-- What the terms that are found gather is what the list serves. -/
theorem service_gather (score : Option ScoreFunction) (terms : List Bytes) :
    Match.service (w.catalog.gather (score.map (·, w.catalog.docCount))
      (terms.filterMap (w.catalog.find? field))) = w.listing field score terms := by
  have hids : (w.catalog.gather (score.map (·, w.catalog.docCount))
      (terms.filterMap (w.catalog.find? field))).ids = (w.listing field score terms).ids := by
    refine List.filter_congr fun d _ => ?_
    rw [Bool.eq_iff_iff, decide_eq_true_iff, List.any_eq_true, termsHeld_eq, Ne,
      List.map_eq_nil_iff, List.filter_eq_nil_iff]
    simp only [not_forall, not_not, exists_prop]
  have hscore : MultiTermMatch.termScore (score.map (·, w.catalog.docCount))
      (terms.filterMap (w.catalog.find? field)) = (w.listing field score terms).score := by
    funext d
    cases score with
    | none => rfl
    | some function =>
      unfold MultiTermMatch.termScore listing
      simp only [Option.map_some, termsHeld_eq, List.foldl_map]
      refine List.foldl_ext _ _ _ fun total e he => ?_
      rw [docFreq, ← docs_found (List.mem_of_mem_filter he)]
      rfl
  rw [Match.service, hids]
  exact congrArg (Service.mk _) hscore

end IndexWriter

/-! ### Matches of lists -/

namespace Searcher

variable {w : IndexWriter} {index : Index} {n : Nat}

theorem limitFaults_of_le {limit : Option Nat} {operation field : String} {few many : Nat}
    (hle : few ≤ many) (h : Query.limitFaults limit operation field many = []) :
    Query.limitFaults limit operation field few = [] := by
  cases limit with
  | none => rfl
  | some most =>
    unfold Query.limitFaults at h ⊢
    simp only [Option.all_some, decide_eq_true_iff] at h ⊢
    by_cases hmany : many ≤ most
    · exact if_pos (Nat.le_trans hle hmany)
    · rw [if_neg hmany] at h
      cases h

/-- The match of a list is made unless the field is unknown or has too many of the terms, counted as
often as they are listed. -/
theorem listing_reports (h : w.Committed index) (config : MatchConfig) (field : String)
    (terms : List Bytes) (score : Option ScoreFunction) :
    Reports (Query.fieldFaults w.catalog field ++
        Query.limitFaults config.maxExpansions "In" field (w.known field terms).length)
      (fun m : Match n => Provides (w.listing field score terms) m (w.listing field score terms).ids)
      ((index.searcher config).oneOf field terms score) := by
  have hgathers := oneOf_gathers (s := index.searcher config) (n := n) h.reader_holds field terms score
  have hcount : (terms.filterMap (w.catalog.find? field)).length = (w.known field terms).length := by
    rw [← IndexWriter.terms_found, List.length_map]
  rw [hcount] at hgathers
  refine hgathers.imp ?_
  rintro m ⟨tree, rfl, hs⟩
  rw [← IndexWriter.service_gather]
  exact Match.provides_plain hs

/-- A list is compared with the list of its first occurrences, over a committed index: one with fewer
than `2 ^ 32` postings in each field. Both fail alike for an unknown field. Each is refused when it
has more terms of the field than the limit, counted as often as they are listed, so the shorter list
is made whenever the other is. Then both serve the same documents, and answer all calls alike that
ask for scores without a score function or of documents that have no term listed twice. In general
the score of a document has a summand for each occurrence of each of its terms. -/
theorem oneOf_repeated (h : w.Committed index) (config : MatchConfig) (field : String)
    (terms : List Bytes) (score : Option ScoreFunction) :
    let listed : List Bytes → Except Failure (Match n) := fun terms =>
      (index.searcher config).oneOf field terms score
    (index.reader.hasField field = false →
      ∀ terms, listed terms = .error (.unknownField field)) ∧
    (index.reader.hasField field = true → ∀ terms,
      if config.maxExpansions.all ((w.known field terms).length ≤ ·) then ∃ m, listed terms = .ok m
      else listed terms = .error (.tooManyTerms "In" field (config.maxExpansions.getD 0))) ∧
    (∀ m, listed terms = .ok m → ∃ m', listed terms.eraseDups = .ok m') ∧
    (∀ m m', listed terms = .ok m → listed terms.eraseDups = .ok m' →
      ∀ calls, (∀ c ∈ calls, c.ScoresOnly fun d => score = none ∨ (w.termsHeld field terms d).Nodup) →
        (Callable.run m calls).1 = (Callable.run m' calls).1) ∧
    ∀ terms m, listed terms = .ok m → ∀ calls,
      (Callable.run m calls).1 =
        ((w.listing field score terms).run (w.listing field score terms).ids calls).1 := by
  intro listed
  have hreports := fun terms => listing_reports (n := n) h config field terms score
  have hprovides : ∀ {terms m}, listed terms = .ok m →
      Provides (w.listing field score terms) m (w.listing field score terms).ids := by
    intro terms m hm
    have hlisting := hreports terms
    rw [show (index.searcher config).oneOf field terms score = .ok m from hm] at hlisting
    exact hlisting.of_ok
  refine ⟨?_, ?_, ?_, ?_, fun terms m hm calls => ((hprovides hm).run calls).1⟩
  · intro hfield terms
    have hlisting := hreports terms
    rw [h.reader_holds.hasField] at hfield
    rw [Query.fieldFaults, hfield, if_neg Bool.false_ne_true] at hlisting
    exact hlisting
  · intro hfield terms
    have hlisting := hreports terms
    rw [h.reader_holds.hasField] at hfield
    rw [Query.fieldFaults, hfield, if_pos rfl, List.nil_append, Query.limitFaults] at hlisting
    by_cases hfits : config.maxExpansions.all ((w.known field terms).length ≤ ·) = true
    · rw [if_pos hfits] at hlisting ⊢
      exact hlisting.ok_iff.mpr rfl
    · rw [if_neg hfits] at hlisting ⊢
      exact hlisting
  · intro m hm
    obtain ⟨hfield, hfits⟩ := List.append_eq_nil_iff.mp ((hreports terms).ok_iff.mp ⟨m, hm⟩)
    refine (hreports terms.eraseDups).ok_iff.mpr (List.append_eq_nil_iff.mpr ⟨hfield, ?_⟩)
    exact limitFaults_of_le w.length_known_eraseDups_le hfits
  · intro m m' hm hm' calls hcalls
    have hids := w.ids_listing_eraseDups field score terms
    rw [((hprovides hm).run calls).1, ((hprovides hm').run calls).1, hids]
    exact congrArg Prod.fst (Service.run_congr hids.symm (fun d => w.score_listing_eraseDups) hcalls _)

/-- A list of one term twice over two documents, one of which has the term. -/
theorem oneOf_repeated_twice : ∃ index, IndexWriter.tagged.Committed index ∧
    ∃ m m' : Match 0,
      (index.searcher {}).oneOf "tag" [utf8 "x", utf8 "x"] (some (.constant 1)) = .ok m ∧
      (index.searcher {}).oneOf "tag" [utf8 "x", utf8 "x"].eraseDups (some (.constant 1)) = .ok m' ∧
      (Callable.run m [.fill 5, .evaluate 1, .score [0] #[7], .reset, .fill 1]).1 =
        (Callable.run m' [.fill 5, .evaluate 1, .score [0] #[7], .reset, .fill 1]).1 := by
  obtain ⟨index, h⟩ := IndexWriter.exists_tagged
  obtain ⟨-, hmade, hshorter, hsame, -⟩ :=
    oneOf_repeated (n := 0) h {} "tag" [utf8 "x", utf8 "x"] (some (.constant 1))
  obtain ⟨m, hm⟩ : ∃ m, _ := hmade (IndexWriter.hasField_tagged h) [utf8 "x", utf8 "x"]
  obtain ⟨m', hm'⟩ := hshorter m hm
  refine ⟨index, h, m, m', hm, hm', hsame m m' hm hm' _ ?_⟩
  simp only [List.forall_mem_cons, List.not_mem_nil, false_implies, implies_true, and_true,
    Call.ScoresOnly, true_and]
  exact .inr (by decide +kernel)

/-- A score function that gives one counts how often the terms of a document are listed. -/
theorem exists_scored_tagged {index : Index} (h : IndexWriter.tagged.Committed index)
    (terms : List Bytes) : ∃ m : Match 0,
      (index.searcher {}).oneOf "tag" terms (some (.constant 1)) = .ok m ∧
      (Callable.run m [.score [1] #[0]]).1 = [.ok (.scored
        #[(IndexWriter.tagged.termsHeld "tag" terms 1).foldl (fun total _ => total + 1) 0])] := by
  have hfield : Query.fieldFaults IndexWriter.tagged.catalog "tag" = [] := by
    cbv
  have hreports := listing_reports (n := 0) h {} "tag" terms (some (.constant 1))
  rw [hfield] at hreports
  obtain ⟨m, hm, hprovides⟩ := hreports
  refine ⟨m, hm, ?_⟩
  rw [(hprovides.run _).1]
  rfl

/-- With a limit of one term a list of one term twice is refused, and without a limit the term is
scored twice. -/
theorem oneOf_twice : ∃ index, IndexWriter.tagged.Committed index ∧
    ({ maxExpansions := some 1 } : MatchConfig).validate = .ok () ∧
    (index.searcher { maxExpansions := some 1 }).oneOf (n := 0) "tag" [utf8 "x", utf8 "x"] none =
      .error (.tooManyTerms "In" "tag" 1) ∧
    (∃ m, (index.searcher { maxExpansions := some 1 }).oneOf (n := 0) "tag"
      [utf8 "x", utf8 "x"].eraseDups none = .ok m) ∧
    ({} : MatchConfig).validate = .ok () ∧
    ∃ m m' : Match 0,
      (index.searcher {}).oneOf "tag" [utf8 "x", utf8 "x"] (some (.constant 1)) = .ok m ∧
      (index.searcher {}).oneOf "tag" [utf8 "x", utf8 "x"].eraseDups (some (.constant 1)) = .ok m' ∧
      (Callable.run m [.score [1] #[0]]).1 = [.ok (.scored #[2])] ∧
      (Callable.run m' [.score [1] #[0]]).1 = [.ok (.scored #[1])] := by
  obtain ⟨index, h⟩ := IndexWriter.exists_tagged
  have hlimited (terms : List Bytes) :=
    listing_reports (n := 0) h { maxExpansions := some 1 } "tag" terms none
  obtain ⟨m, hm, hscores⟩ := exists_scored_tagged h [utf8 "x", utf8 "x"]
  obtain ⟨m', hm', hscores'⟩ := exists_scored_tagged h [utf8 "x", utf8 "x"].eraseDups
  have hmany : Query.fieldFaults IndexWriter.tagged.catalog "tag" ++
      Query.limitFaults (some 1) "In" "tag"
        (IndexWriter.tagged.known "tag" [utf8 "x", utf8 "x"]).length =
      [.tooManyTerms "In" "tag" 1] := by
    cbv
  have hfew : Query.fieldFaults IndexWriter.tagged.catalog "tag" ++
      Query.limitFaults (some 1) "In" "tag"
        (IndexWriter.tagged.known "tag" [utf8 "x", utf8 "x"].eraseDups).length = [] := by
    cbv
  have htwice : IndexWriter.tagged.termsHeld "tag" [utf8 "x", utf8 "x"] 1 =
      [utf8 "x", utf8 "x"] := by
    cbv
  have honce : IndexWriter.tagged.termsHeld "tag" [utf8 "x", utf8 "x"].eraseDups 1 =
      [utf8 "x"] := by
    cbv
  have htwo : (0 : Float32) + 1 + 1 = 2 := by
    decide
  have hone : (0 : Float32) + 1 = 1 := by
    decide
  refine ⟨index, h, rfl, ?_, (hlimited _).ok_iff.mpr hfew, rfl, m, m', hm, hm', ?_, ?_⟩
  · have hrefused := hlimited [utf8 "x", utf8 "x"]
    rw [hmany] at hrefused
    exact hrefused
  · rw [hscores, htwice, ← htwo]
    rfl
  · rw [hscores', honce, ← hone]
    rfl

end Searcher

end Concordance
