import Concordance.Proofs.Execute

/-!
# The maximum score

The maximum score of some results is the maximum of zero and the scores of the hits. It bounds all
of them, and is one of them exactly when some score is not negative: `Searcher.execute_maxScore`.
-/

namespace Concordance

/-! ### The order of floats -/

namespace Single

open Float.Model (UnpackedFloat)

/-- Where a float stands: by its sign and kind, then its exponent, then its significand. -/
def place : UnpackedFloat → Int × Int × Int
  | .infinity .negative => (-2, 0, 0)
  | .finite .negative significand exponent _ => (-1, -exponent, -significand)
  | .zero _ => (0, 0, 0)
  | .finite .positive significand exponent _ => (1, exponent, significand)
  | .infinity .positive => (2, 0, 0)
  | .notANumber => (3, 0, 0)

def order : UnpackedFloat → UnpackedFloat → Ordering :=
  compareLex (compareOn fun x => (place x).1)
    (compareLex (compareOn fun x => (place x).2.1) (compareOn fun x => (place x).2.2))

instance : Std.TransCmp order :=
  inferInstanceAs (Std.TransCmp (compareLex _ (compareLex _ _)))

theorem order_swap (x y : UnpackedFloat) : order x y = (order y x).swap := Std.OrientedCmp.eq_swap

theorem compare_neg (a b : Int) : compare (-a) (-b) = (compare a b).swap := by
  rcases Int.lt_trichotomy a b with hlt | rfl | hlt
  · rw [Int.compare_eq_lt.mpr hlt]
    exact Int.compare_eq_gt.mpr (Int.neg_lt_neg hlt)
  · have hself : ∀ c : Int, compare c c = .eq := fun c => Int.compare_eq_eq.mpr rfl
    rw [hself, hself]
    rfl
  · rw [Int.compare_eq_gt.mpr hlt]
    exact Int.compare_eq_lt.mpr (Int.neg_lt_neg hlt)

theorem compare_natCast (a b : Nat) : compare (a : Int) (b : Int) = compare a b := by
  rcases Nat.lt_trichotomy a b with hlt | rfl | hlt
  · rw [Nat.compare_eq_lt.mpr hlt]
    exact Int.compare_eq_lt.mpr (Int.ofNat_lt.mpr hlt)
  · rw [Nat.compare_eq_eq.mpr rfl]
    exact Int.compare_eq_eq.mpr rfl
  · rw [Nat.compare_eq_gt.mpr hlt]
    exact Int.compare_eq_gt.mpr (Int.ofNat_lt.mpr hlt)

theorem order_positive {m n : Nat} {e f : Int} (hm : 0 < m) (hn : 0 < n) :
    order (.finite .positive m e hm) (.finite .positive n f hn) =
      (compare e f).then (compare m n) := by
  rw [← compare_natCast]
  rfl

theorem order_negative {m n : Nat} {e f : Int} (hm : 0 < m) (hn : 0 < n) :
    order (.finite .negative m e hm) (.finite .negative n f hn) =
      ((compare e f).then (compare m n)).swap := by
  rw [Ordering.swap_then, ← compare_natCast, ← compare_neg, ← compare_neg]
  rfl

/-- Floats that are numbers compare by where they stand. -/
theorem compare_eq_order {x y : UnpackedFloat} (hx : x.isNaN = false) (hy : y.isNaN = false) :
    x.compare y = some (order x y) := by
  cases x with
  | notANumber => cases hx
  | infinity s =>
    cases y with
    | notANumber => cases hy
    | infinity t | zero t | finite t n f hn => cases s <;> cases t <;> rfl
  | zero s =>
    cases y with
    | notANumber => cases hy
    | infinity t | zero t | finite t n f hn => cases t <;> rfl
  | finite s m e hm =>
    cases y with
    | notANumber => cases hy
    | infinity t | zero t => cases s <;> cases t <;> rfl
    | finite t n f hn =>
      cases s with
      | negative =>
        cases t with
        | negative => exact congrArg some (order_negative hm hn).symm
        | positive => rfl
      | positive =>
        cases t with
        | negative => rfl
        | positive => exact congrArg some (order_positive hm hn).symm

variable {x y z : Float32}

theorem lt_iff (hx : x.isNaN = false) (hy : y.isNaN = false) :
    x < y ↔ order x.toModel.unpack y.toModel.unpack = .lt := by
  show decide (UnpackedFloat.lt _ _ = true) = true ↔ _
  rw [decide_eq_true_iff, UnpackedFloat.lt, compare_eq_order hx hy]
  simp

theorem le_iff (hx : x.isNaN = false) (hy : y.isNaN = false) :
    x ≤ y ↔ (order x.toModel.unpack y.toModel.unpack).isLE := by
  show decide (UnpackedFloat.le _ _ = true) = true ↔ _
  rw [decide_eq_true_iff, UnpackedFloat.le, compare_eq_order hx hy]
  rfl

theorem beq_iff (hx : x.isNaN = false) (hy : y.isNaN = false) :
    (x == y) = true ↔ order x.toModel.unpack y.toModel.unpack = .eq := by
  show UnpackedFloat.beq _ _ = true ↔ _
  rw [UnpackedFloat.beq, compare_eq_order hx hy]
  simp

theorem le_refl (hx : x.isNaN = false) : x ≤ x := by
  have hself : order x.toModel.unpack x.toModel.unpack = .eq := Std.ReflCmp.compare_self
  rw [le_iff hx hx, hself]
  rfl

theorem le_trans (hx : x.isNaN = false) (hy : y.isNaN = false) (hz : z.isNaN = false)
    (hxy : x ≤ y) (hyz : y ≤ z) : x ≤ z := by
  rw [le_iff hx hy] at hxy
  rw [le_iff hy hz] at hyz
  rw [le_iff hx hz]
  exact Std.TransCmp.isLE_trans hxy hyz

theorem le_of_lt (hx : x.isNaN = false) (hy : y.isNaN = false) (h : x < y) : x ≤ y := by
  rw [lt_iff hx hy] at h
  rw [le_iff hx hy, h]
  rfl

theorem not_lt (hx : x.isNaN = false) (hy : y.isNaN = false) : ¬x < y ↔ y ≤ x := by
  rw [lt_iff hx hy, le_iff hy hx, order_swap]
  cases order y.toModel.unpack x.toModel.unpack <;> decide

theorem beq_iff_le_and_le (hx : x.isNaN = false) (hy : y.isNaN = false) :
    (x == y) = true ↔ x ≤ y ∧ y ≤ x := by
  rw [beq_iff hx hy, le_iff hx hy, le_iff hy hx, order_swap y.toModel.unpack]
  cases order x.toModel.unpack y.toModel.unpack <;> decide

end Single

/-! ### The maximum of scores -/

namespace SearchResults

open Single

/-- One of some floats, and a number, that none of them exceeds. -/
structure Tops (top : Float32) (scores : List Float32) : Prop where
  number : top.isNaN = false
  mem : top ∈ scores
  le : ∀ score ∈ scores, score ≤ top

def higher (best score : Float32) : Float32 := if best < score then score else best

variable {best score top : Float32} {scores : List Float32}

theorem tops_higher (hbest : best.isNaN = false) (hscore : score.isNaN = false) :
    Tops (higher best score) [best, score] := by
  unfold higher
  split
  · rename_i hlt
    exact ⟨hscore, by simp, by simp [le_of_lt hbest hscore hlt, le_refl hscore]⟩
  · rename_i hlt
    exact ⟨hbest, by simp, by simp [(not_lt hbest hscore).mp hlt, le_refl hbest]⟩

theorem tops_foldl (hbest : best.isNaN = false) (hscores : ∀ s ∈ scores, s.isNaN = false) :
    Tops (scores.foldl higher best) (best :: scores) := by
  induction scores generalizing best with
  | nil => exact ⟨hbest, List.mem_singleton_self _, by simpa using le_refl hbest⟩
  | cons first scores ih =>
    obtain ⟨hfirst, hscores⟩ := List.forall_mem_cons.mp hscores
    have hstep := tops_higher hbest hfirst
    have hrest := ih hstep.number hscores
    obtain ⟨hhigher, hmore⟩ := List.forall_mem_cons.mp hrest.le
    have hle : ∀ s ∈ [best, first], s ≤ scores.foldl higher (higher best first) := fun s hs => by
      refine le_trans ?_ hstep.number hrest.number (hstep.le s hs) hhigher
      rcases List.mem_pair.mp hs with rfl | rfl <;> assumption
    refine ⟨hrest.number, ?_, ?_⟩
    · rcases List.mem_cons.mp hrest.mem with heq | hmem
      · rw [List.foldl_cons, heq]
        exact List.mem_append_left scores hstep.mem
      · exact List.mem_cons_of_mem _ (List.mem_cons_of_mem _ hmem)
    · exact List.forall_mem_cons.mpr ⟨hle best (by simp),
        List.forall_mem_cons.mpr ⟨hle first (by simp), hmore⟩⟩

theorem tops_maximum (hscores : ∀ s ∈ scores, s.isNaN = false) :
    Tops (maximum scores) (0 :: scores) := tops_foldl (by decide) hscores

/-- The maximum is a score, unless all scores are negative. -/
theorem maximum_beq_iff (hscores : ∀ s ∈ scores, s.isNaN = false) :
    (∃ s ∈ scores, maximum scores == s) ↔ ∃ s ∈ scores, 0 ≤ s := by
  have htops := tops_maximum hscores
  obtain ⟨hzero, hle⟩ := List.forall_mem_cons.mp htops.le
  constructor
  · rintro ⟨s, hs, heq⟩
    have hmax := (beq_iff_le_and_le htops.number (hscores s hs)).mp heq
    exact ⟨s, hs, le_trans (by decide) htops.number (hscores s hs) hzero hmax.1⟩
  · rintro ⟨s, hs, hsign⟩
    rcases List.mem_cons.mp htops.mem with heq | hmem
    · refine ⟨s, hs, (beq_iff_le_and_le htops.number (hscores s hs)).mpr ⟨?_, hle s hs⟩⟩
      rw [heq]
      exact hsign
    · exact ⟨_, hmem, (beq_iff_le_and_le htops.number htops.number).mpr
        ⟨le_refl htops.number, le_refl htops.number⟩⟩

theorem maximum_of_negative (hscores : ∀ s ∈ scores, s.isNaN = false)
    (hnegative : ∀ s ∈ scores, s < 0) : maximum scores = 0 := by
  have htops := tops_maximum hscores
  rcases List.mem_cons.mp htops.mem with heq | hmem
  · exact heq
  · have hzero : (0 : Float32) ≤ maximum scores := htops.le 0 List.mem_cons_self
    exact absurd (hnegative _ hmem) ((not_lt htops.number (by decide)).mpr hzero)

theorem maxScore_ofHits {hits : List SearchHit} {totalHits : Nat}
    (hnumbers : ∀ hit ∈ hits, hit.score.isNaN = false) :
    (∀ hit ∈ hits, hit.score ≤ (ofHits hits totalHits).maxScore) ∧
      ((∃ hit ∈ hits, (ofHits hits totalHits).maxScore == hit.score) ↔
        ∃ hit ∈ hits, 0 ≤ hit.score) ∧
      ((∀ hit ∈ hits, hit.score < 0) → (ofHits hits totalHits).maxScore = 0) := by
  have hscores : ∀ s ∈ hits.map (·.score), s.isNaN = false := List.forall_mem_map.mpr hnumbers
  have htops := tops_maximum hscores
  refine ⟨fun hit hhit => htops.le _ (List.mem_cons_of_mem _ (List.mem_map_of_mem hhit)), ?_,
    fun hnegative => maximum_of_negative hscores (List.forall_mem_map.mpr hnegative)⟩
  have hiff := maximum_beq_iff hscores
  simp only [List.mem_map, exists_exists_and_eq_and] at hiff
  exact hiff

end SearchResults

/-! ### Executed queries -/

namespace Searcher

variable {s : Searcher} {q : Query} {limit : Option Nat} {results : SearchResults}

theorem exists_ofHits_of_execute (h : s.execute q limit = .ok results) :
    ∃ hits totalHits, SearchResults.ofHits hits totalHits = results := by
  obtain ⟨m, -, hcollect⟩ := bind_eq_ok h
  unfold collect at hcollect
  obtain ⟨⟨hits, totalHits⟩, -, hresults⟩ := map_eq_ok hcollect
  exact ⟨hits, totalHits, hresults⟩

/-- The maximum score of results bounds the scores of all hits. It is that of a hit if some score is
not negative, and otherwise zero. -/
theorem execute_maxScore (h : s.execute q limit = .ok results)
    (hnumbers : ∀ hit ∈ results.hits, hit.score.isNaN = false) :
    (∀ hit ∈ results.hits, hit.score ≤ results.maxScore) ∧
      ((∃ hit ∈ results.hits, results.maxScore == hit.score) ↔
        ∃ hit ∈ results.hits, 0 ≤ hit.score) ∧
      ((∀ hit ∈ results.hits, hit.score < 0) → results.maxScore = 0) := by
  obtain ⟨_, _, rfl⟩ := exists_ofHits_of_execute h
  exact SearchResults.maxScore_ofHits hnumbers

/-- The documents with the tag, each with one score. -/
def taggedScored (score : Float32) : Query :=
  .multiTerm "tag" (.startsWith "x") (some (.constant score))

theorem score_taggedScored (score : Float32) :
    (taggedScored score).score IndexWriter.tagged.catalog 1 = 0 + score := by
  have hone : ((Query.matching IndexWriter.tagged.catalog "tag" (.startsWith "x")).filter
      fun e => decide (1 ∈ e.docs)).length = 1 := by
    cbv
  obtain ⟨e, he⟩ := List.length_eq_one_iff.mp hone
  unfold taggedScored Query.score
  show List.foldl _ 0 (List.filter _ (Query.matching _ _ _)) = 0 + score
  rw [he]
  rfl

theorem exists_execute_taggedScored (score : Float32) : ∃ index m results,
    IndexWriter.tagged.Committed index ∧
      (index.searcher {}).search (taggedScored score) = .ok m ∧
      (index.searcher {}).execute (taggedScored score) none = .ok results ∧
      results.scores = [0 + score] ∧ results.maxScore = SearchResults.maximum [0 + score] := by
  obtain ⟨index, h⟩ := IndexWriter.exists_tagged
  have hnone : (taggedScored score).faults IndexWriter.tagged.catalog none = [] := by
    cbv
  obtain ⟨m, hm⟩ := (committed_reports h {} (taggedScored score)).ok_iff.mpr hnone
  have hvalid : ({} : MatchConfig).validate = .ok () := rfl
  have hreports := execute_reports h hvalid (taggedScored score) none
  rw [hnone] at hreports
  obtain ⟨_, hexecute, rfl⟩ := hreports
  have hselected : IndexWriter.tagged.selected (taggedScored score) = [1] := by
    cbv
  have hids : (IndexWriter.tagged.service (taggedScored score)).ids = [1] :=
    (IndexWriter.ids_meaning h.size_lt _).trans hselected
  have hscores : (IndexWriter.tagged.results (taggedScored score) none).scores = [0 + score] := by
    rw [← score_taggedScored]
    show ((wanted none (IndexWriter.tagged.service (taggedScored score)).ids).map _).map _ = _
    rw [hids]
    rfl
  exact ⟨index, m, _, h, hm, hexecute, hscores, congrArg SearchResults.maximum hscores⟩

/-- The only hit has a negative score. -/
theorem execute_maxScore_negative : ∃ index m results,
    IndexWriter.tagged.Committed index ∧
      (index.searcher {}).search (taggedScored (-1)) = .ok m ∧
      (index.searcher {}).execute (taggedScored (-1)) none = .ok results ∧
      results.scores = [-1] ∧ results.maxScore = 0 := by
  obtain ⟨index, m, results, h, hm, hexecute, hscores, hmax⟩ := exists_execute_taggedScored (-1)
  have hscore : (0 : Float32) + (-1) = -1 := by
    decide
  rw [hscore] at hscores hmax
  exact ⟨index, m, results, h, hm, hexecute, hscores, hmax.trans (by decide)⟩

theorem execute_maxScore_two : ∃ index m results,
    IndexWriter.tagged.Committed index ∧
      (index.searcher {}).search (taggedScored 2) = .ok m ∧
      (index.searcher {}).execute (taggedScored 2) none = .ok results ∧
      (∀ hit ∈ results.hits, hit.score.isNaN = false) ∧
      ∃ hit ∈ results.hits, results.maxScore == hit.score := by
  obtain ⟨index, m, results, h, hm, hexecute, hscores, -⟩ := exists_execute_taggedScored 2
  have hscore : ∀ hit ∈ results.hits, hit.score = 0 + 2 := fun hit hhit =>
    List.mem_singleton.mp (hscores ▸ List.mem_map_of_mem hhit)
  have hnumbers : ∀ hit ∈ results.hits, hit.score.isNaN = false := by
    intro hit hhit
    rw [hscore hit hhit]
    decide
  obtain ⟨hit, hhit, -⟩ : ∃ hit ∈ results.hits, hit.score = 0 + 2 :=
    List.mem_map.mp (hscores.symm ▸ List.mem_singleton_self _ : 0 + 2 ∈ results.scores)
  obtain ⟨-, hattained, -⟩ := execute_maxScore hexecute hnumbers
  refine ⟨index, m, results, h, hm, hexecute, hnumbers, hattained.mpr ⟨hit, hhit, ?_⟩⟩
  rw [hscore hit hhit]
  decide

end Searcher

end Concordance
