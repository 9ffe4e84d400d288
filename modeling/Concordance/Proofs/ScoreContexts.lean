import Mathlib
import Concordance.Proofs.Cost

/-!
# What score functions are told

Scoring a document applies score functions, each told how many documents the scored term or match
has. When the document is matched that number is never zero, so that what a function would give for
no documents shows in no score: `Searcher.run_cost`, together with what costs promise.
-/

namespace Concordance

namespace Query

/-! ### Applications of score functions -/

/-- Whether a child is asked for its score of a document. -/
def adds (c : Catalog) (d : DocId) (checked : Bool) (q : Query) : Bool :=
  q.isScored && (!checked || decide (d ∈ (q.meaning c).ids))

def termApplications (c : Catalog) (d : DocId) (score : Option ScoreSpec)
    (entries : List TermDocs) : List (ScoreSpec × ScoreContext) :=
  match score with
  | none => []
  | some spec => (entries.filter fun e => decide (d ∈ e.docs)).map fun e =>
      (spec, ⟨d, UInt64.ofNat e.docs.length, c.docCount⟩)

mutual

/-- The score functions that are applied to score a document, each with what it is told. -/
def applications (c : Catalog) (d : DocId) : Query → List (ScoreSpec × ScoreContext)
  | term .. | all => []
  | multiTerm field predicate score => termApplications c d score (matching c field predicate)
  | oneOf field values score => termApplications c d score (listed c field values)
  | and children => applicationsOfAll c d false children
  | or children => applicationsOfAll c d true children
  | andNot base _ => base.applications c d
  | boost child _ => child.applications c d
  | boostBy child function =>
      child.applications c d ++ [(function, ⟨d, (child.meaning c).cost, c.docCount⟩)]
  | orderByScore child _ _ | orderByField child _ _ _ => child.applications c d

def applicationsOfAll (c : Catalog) (d : DocId) (checked : Bool) :
    List Query → List (ScoreSpec × ScoreContext)
  | [] => []
  | q :: rest =>
      if q.adds c d checked then q.applications c d ++ applicationsOfAll c d checked rest
      else applicationsOfAll c d checked rest

end

def scoringWith (value : ScoreSpec → ScoreContext → Float32) (c : Catalog)
    (score : Option ScoreSpec) : Option (ScoreFunction × UInt64) :=
  score.map fun spec => ({ spec.function with score := value spec }, c.docCount)

mutual

/-- The score of a document as it would be by other values of the score functions. -/
def scoreWith (value : ScoreSpec → ScoreContext → Float32) (c : Catalog) (d : DocId) :
    Query → Float32
  | term .. | all => neutralScore
  | multiTerm field predicate score =>
      MultiTermMatch.termScore (scoringWith value c score) (matching c field predicate) d
  | oneOf field values score =>
      MultiTermMatch.termScore (scoringWith value c score) (listed c field values) d
  | and children => total (scoresWith value c d false children)
  | or children => total (scoresWith value c d true children)
  | andNot base _ => base.scoreWith value c d
  | boost child factor => child.scoreWith value c d * factor
  | boostBy child function =>
      child.scoreWith value c d * value function ⟨d, (child.meaning c).cost, c.docCount⟩
  | orderByScore child _ _ | orderByField child _ _ _ => child.scoreWith value c d

def scoresWith (value : ScoreSpec → ScoreContext → Float32) (c : Catalog) (d : DocId)
    (checked : Bool) : List Query → List Float32
  | [] => []
  | q :: rest =>
      if q.adds c d checked then q.scoreWith value c d :: scoresWith value c d checked rest
      else scoresWith value c d checked rest

end

variable {c : Catalog} {d : DocId} {checked : Bool} {limit : Option Nat}
  {value value' : ScoreSpec → ScoreContext → Float32}

theorem scores_eq_map (qs : List Query) :
    scores c d checked qs = (qs.filter (adds c d checked)).map (score c d) := by
  induction qs with
  | nil => rfl
  | cons q qs ih =>
    rw [scores, List.filter_cons, ih]
    show (if q.adds c d checked = true then _ else _) = _
    split <;> rfl

theorem scoresWith_eq_map (qs : List Query) :
    scoresWith value c d checked qs =
      (qs.filter (adds c d checked)).map (scoreWith value c d) := by
  induction qs with
  | nil => rfl
  | cons q qs ih =>
    rw [scoresWith, List.filter_cons, ih]
    split <;> rfl

theorem applicationsOfAll_eq_flatMap (qs : List Query) :
    applicationsOfAll c d checked qs =
      (qs.filter (adds c d checked)).flatMap (applications c d) := by
  induction qs with
  | nil => rfl
  | cons q qs ih =>
    rw [applicationsOfAll, List.filter_cons, ih]
    split <;> rfl

/-! ### Scores by other values -/

theorem scoreWith_function (q : Query) :
    q.scoreWith (fun spec => spec.function.score) c d = q.score c d := by
  induction q using children_induction with
  | step q ih =>
    cases q with
    | term | all => rw [scoreWith, score]
    | multiTerm field predicate function | oneOf field values function =>
      rw [scoreWith, score]
      rfl
    | and children | or children =>
      rw [scoreWith, score, scoresWith_eq_map, scores_eq_map]
      exact congrArg total (List.map_congr_left fun child hchild =>
        ih child (List.mem_of_mem_filter hchild))
    | andNot base exclusion =>
      rw [scoreWith, score]
      exact ih base List.mem_cons_self
    | boost child factor | boostBy child function =>
      rw [scoreWith, score, ih child List.mem_cons_self]
    | orderByScore child take ascending =>
      rw [scoreWith, score]
      exact ih child List.mem_cons_self
    | orderByField child field descending take =>
      rw [scoreWith, score]
      exact ih child List.mem_cons_self

theorem termScore_congr {score : Option ScoreSpec} {entries : List TermDocs}
    (h : ∀ a ∈ termApplications c d score entries, value a.1 a.2 = value' a.1 a.2) :
    MultiTermMatch.termScore (scoringWith value c score) entries d =
      MultiTermMatch.termScore (scoringWith value' c score) entries d := by
  cases score with
  | none => rfl
  | some spec =>
    refine List.foldl_ext _ _ _ fun sum e he => ?_
    have hvalue := h _ (List.mem_map_of_mem he)
    exact congrArg (sum + ·) hvalue

/-- Only the values that are applied show in a score. -/
theorem scoreWith_congr {q : Query}
    (h : ∀ a ∈ q.applications c d, value a.1 a.2 = value' a.1 a.2) :
    q.scoreWith value c d = q.scoreWith value' c d := by
  induction q using children_induction with
  | step q ih =>
    cases q with
    | term | all => rw [scoreWith, scoreWith]
    | multiTerm field predicate function | oneOf field values function =>
      rw [applications] at h
      rw [scoreWith, scoreWith]
      exact termScore_congr h
    | and children | or children =>
      rw [applications, applicationsOfAll_eq_flatMap] at h
      rw [scoreWith, scoreWith, scoresWith_eq_map, scoresWith_eq_map]
      refine congrArg total (List.map_congr_left fun child hchild => ?_)
      exact ih child (List.mem_of_mem_filter hchild) fun a ha =>
        h a (List.mem_flatMap.mpr ⟨child, hchild, ha⟩)
    | andNot base exclusion =>
      rw [applications] at h
      rw [scoreWith, scoreWith]
      exact ih base List.mem_cons_self h
    | boost child factor =>
      rw [applications] at h
      rw [scoreWith, scoreWith, ih child List.mem_cons_self h]
    | boostBy child function =>
      rw [applications] at h
      obtain ⟨hchild, hfunction⟩ := List.forall_mem_append.mp h
      rw [scoreWith, scoreWith, ih child List.mem_cons_self hchild,
        List.forall_mem_singleton.mp hfunction]
    | orderByScore child take ascending =>
      rw [applications] at h
      rw [scoreWith, scoreWith]
      exact ih child List.mem_cons_self h
    | orderByField child field descending take =>
      rw [applications] at h
      rw [scoreWith, scoreWith]
      exact ih child List.mem_cons_self h

/-! ### Counts of documents -/

theorem docFreq_of_termApplications {score : Option ScoreSpec} {entries : List TermDocs}
    (hb : ∀ e ∈ entries, ∀ d ∈ e.docs, d < c.docCount) :
    ∀ a ∈ termApplications c d score entries, 1 ≤ a.2.docFreq := by
  intro a ha
  cases score with
  | none => exact (List.not_mem_nil ha).elim
  | some spec =>
    obtain ⟨e, he, rfl⟩ := List.mem_map.mp ha
    obtain ⟨he, hd⟩ := List.mem_filter.mp he
    rw [UInt64.le_iff_toNat_le, Catalog.toNat_length_docs (hb e he)]
    exact List.length_pos_of_mem (of_decide_eq_true hd)

/-- What has a document does not cost nothing. -/
theorem one_le_cost_meaning {q : Query} (hq : q.isOrdering = false)
    (hsound : ∀ node ∈ q.nodes, node.Sound c limit) (hfit : ∀ node ∈ q.nodes, node.SumFits c)
    (hd : d ∈ (q.meaning c).ids) : 1 ≤ (q.meaning c).cost := by
  rw [UInt64.le_iff_toNat_le, toNat_cost_meaning q hq hsound hfit]
  exact Nat.le_trans (List.length_pos_of_mem hd) (length_ids_le q hq hsound)

/-- A document that a query has is scored by no function that is told of no documents. -/
theorem one_le_docFreq {q : Query} (hsound : ∀ node ∈ q.nodes, node.Sound c limit)
    (hfit : ∀ node ∈ q.nodes, node.SumFits c) (hd : d ∈ (q.meaning c).ids) :
    ∀ a ∈ q.applications c d, 1 ≤ a.2.docFreq := by
  induction q using children_induction with
  | step q ih =>
    obtain ⟨hparts, hown⟩ := forall_nodes.mp hsound
    have hfits := (forall_nodes.mp hfit).1
    have hrest : ∀ child ∈ q.children, d ∈ (child.meaning c).ids →
        ∀ a ∈ child.applications c d, 1 ≤ a.2.docFreq :=
      fun child hchild => ih child hchild (hparts child hchild) (hfits child hchild)
    cases q with
    | term | all =>
      rw [applications]
      exact fun _ ha => (List.not_mem_nil ha).elim
    | multiTerm field predicate function =>
      rw [applications]
      exact docFreq_of_termApplications fun e he d hd =>
        Catalog.lt_docCount (List.mem_of_mem_filter he) hd
    | oneOf field values function =>
      rw [applications]
      refine docFreq_of_termApplications fun e he => ?_
      obtain ⟨term, -, hf⟩ := List.mem_filterMap.mp he
      exact Catalog.lt_docCount_of_find? hf
    | and children =>
      rw [applications, applicationsOfAll_eq_flatMap, List.forall_mem_flatMap]
      intro child hadds
      have hchild := List.mem_of_mem_filter hadds
      rw [meaning, meanings_eq_map] at hd
      have hall := List.all_eq_true.mp (c.mem_having.mp hd).2
      exact hrest child hchild (of_decide_eq_true (hall _ (List.mem_map_of_mem hchild)))
    | or children =>
      rw [applications, applicationsOfAll_eq_flatMap, List.forall_mem_flatMap]
      intro child hadds
      obtain ⟨hchild, hadds⟩ := List.mem_filter.mp hadds
      rw [adds, Bool.not_true, Bool.false_or, Bool.and_eq_true] at hadds
      exact hrest child hchild (of_decide_eq_true hadds.2)
    | andNot base exclusion =>
      rw [applications]
      rw [meaning] at hd
      exact hrest base List.mem_cons_self (List.mem_of_mem_filter hd)
    | boostBy child function =>
      rw [meaning] at hd
      rw [applications, List.forall_mem_append, List.forall_mem_singleton]
      exact ⟨hrest child List.mem_cons_self hd,
        one_le_cost_meaning (hown.children_plain child List.mem_cons_self)
          (hparts child List.mem_cons_self) (hfits child List.mem_cons_self) hd⟩
    | boost child factor | orderByScore child take ascending
    | orderByField child field descending take =>
      rw [applications]
      rw [meaning] at hd
      exact hrest child List.mem_cons_self hd

/-- What functions give for no documents shows in no score of a document that a query has. -/
theorem scoreWith_eq_score {q : Query} (hsound : ∀ node ∈ q.nodes, node.Sound c limit)
    (hfit : ∀ node ∈ q.nodes, node.SumFits c) (hd : d ∈ (q.meaning c).ids)
    (hvalue : ∀ spec ctx, 1 ≤ ctx.docFreq → value spec ctx = spec.function.score ctx) :
    q.scoreWith value c d = q.score c d := by
  rw [← scoreWith_function]
  exact scoreWith_congr fun a ha => hvalue a.1 a.2 (one_le_docFreq hsound hfit hd a ha)

end Query

/-! ### Runs -/

namespace Searcher

variable {w : IndexWriter} {index : Index} {q : Query} {m : Match q.depth}

/-- The cost of a match is the same at every point of a run, bounds the number of ids that are
served, and is told by the query: `Query.cost`, which takes the least cost of the parts of an
intersection and no more than the bound of an ordering. Each part of the query, compiled alone, has
its cost too. A score function is never told of no documents when a matched document is scored, so
that the scores are the same whatever the functions give for that case. -/
theorem run_cost (h : w.Committed index) (config : MatchConfig)
    (hm : (index.searcher config).search q = .ok m)
    (hfit : ∀ node ∈ q.nodes, node.SumFits w.catalog) :
    (∀ calls, (Callable.run m calls).2.cost = m.cost ∧
        (Callable.run m calls).1 = ((w.service q).run (w.service q).ids calls).1) ∧
      (w.service q).ids.length ≤ m.cost.toNat ∧
      m.cost.toNat = q.cost w.catalog ∧
      (∀ node ∈ q.nodes,
        (∃ part, (index.searcher config).search node = .ok part ∧
          part.cost.toNat = node.cost w.catalog) ∧
        ∀ d ∈ w.selected node, ∀ a ∈ node.applications w.catalog d, 1 ≤ a.2.docFreq) ∧
      ∀ value : ScoreSpec → ScoreContext → Float32,
        (∀ spec ctx, 1 ≤ ctx.docFreq → value spec ctx = spec.function.score ctx) →
        ∀ calls ids (buffer : Array Float32), (∀ d ∈ ids, d ∈ w.selected q) →
          buffer.size = ids.length →
          (Callable.score (Callable.run m calls).2 ids buffer).1 =
            .ok (ids.map fun d => q.scoreWith value w.catalog d).toArray := by
  have hreports := committed_reports h config q
  have hsound := Query.faults_eq_nil.mp (hreports.ok_iff.mp ⟨m, hm⟩)
  rw [hm] at hreports
  have hcost := hreports.of_ok.toNat_cost hsound hfit
  refine ⟨fun calls => ⟨m.cost_run calls, ((provides_service h hm).run calls).1⟩, ?_, hcost, ?_, ?_⟩
  · rw [hcost]
    exact Query.length_service_le _ hsound
  · intro node hnode
    have hsubset := Query.nodes_subset hnode
    have hsound' := fun part hpart => hsound part (hsubset hpart)
    have hfit' := fun part hpart => hfit part (hsubset hpart)
    refine ⟨?_, fun d hd => ?_⟩
    · have hpart := committed_reports h config node
      rw [Query.faults_eq_nil.mpr hsound'] at hpart
      obtain ⟨part, hpart, hcompiled⟩ := hpart
      exact ⟨part, hpart, hcompiled.toNat_cost hsound' hfit'⟩
    · rw [← IndexWriter.ids_meaning h.size_lt] at hd
      exact Query.one_le_docFreq hsound' hfit' hd
  · intro value hvalue calls ids buffer hids hsize
    have hscores : (ids.map fun d => q.scoreWith value w.catalog d) =
        ids.map fun d => q.score w.catalog d := by
      refine List.map_congr_left fun d hd => Query.scoreWith_eq_score hsound hfit ?_ hvalue
      rw [IndexWriter.ids_meaning h.size_lt]
      exact hids d hd
    rw [hscores]
    exact run_score h config hm calls ids buffer hsize

/-- The documents of a tag, which are found twice, and of them at most five. -/
def taggedTwice : Query :=
  .orderByScore (.or [.boostBy (.term "tag" "x") .termFrequency,
    .and [.all, .multiTerm "tag" (.startsWith "x") (some .termFrequency)]]) (some 5) false

/-- Each of the two parts counts the one document of the tag, so that the match costs two. -/
theorem run_cost_taggedTwice : ∃ index m,
    IndexWriter.tagged.Committed index ∧ (index.searcher {}).search taggedTwice = .ok m ∧
      (∀ node ∈ taggedTwice.nodes, node.SumFits IndexWriter.tagged.catalog) ∧
      m.cost.toNat = 2 ∧ (Callable.run m [.fill 1, .evaluate 0, .reset]).2.cost = m.cost ∧
      (∀ a ∈ taggedTwice.applications IndexWriter.tagged.catalog 1, 1 ≤ a.2.docFreq) ∧
      ∀ zero : Float32, (Callable.score (Callable.run m [.fill 1]).2 [1] #[7]).1 =
        .ok #[taggedTwice.scoreWith
          (fun spec ctx => if ctx.docFreq = 0 then zero else spec.function.score ctx)
          IndexWriter.tagged.catalog 1] := by
  obtain ⟨index, h⟩ := IndexWriter.exists_tagged
  have hnone : taggedTwice.faults IndexWriter.tagged.catalog none = [] := by
    cbv
  obtain ⟨m, hm⟩ := (committed_reports h {} taggedTwice).ok_iff.mpr hnone
  have hfit : ∀ node ∈ taggedTwice.nodes, node.SumFits IndexWriter.tagged.catalog := by
    decide +kernel
  have htwo : taggedTwice.cost IndexWriter.tagged.catalog = 2 := by
    cbv
  have hselected : IndexWriter.tagged.selected taggedTwice = [1] := by
    cbv
  have hself : taggedTwice ∈ taggedTwice.nodes := by
    rw [Query.nodes_eq]
    exact List.mem_append_right _ List.mem_cons_self
  obtain ⟨hcalls, -, hcost, hparts, hscore⟩ := run_cost h {} hm hfit
  rw [hselected] at hscore
  refine ⟨index, m, h, hm, hfit, hcost.trans htwo, (hcalls _).1, (hparts _ hself).2 1 ?_, ?_⟩
  · rw [hselected]
    exact List.mem_cons_self
  · intro zero
    refine hscore _ (fun spec ctx hpos => if_neg fun hzero => ?_) [.fill 1] [1] #[7]
      (fun _ hd => hd) rfl
    rw [hzero] at hpos
    exact absurd hpos (by decide)

end Searcher

end Concordance
