import Concordance.Match.MultiTerm
import Concordance.Proofs.Boolean
import Concordance.Proofs.Provider

/-!
# Multi-term matches

A match of the terms that a provider enumerates serves the ids that one of the terms has, and its
score function sees each of those terms in the provider's order: `MultiTermMatch.serves`.
-/

namespace Concordance

open Matcher (Means Answers Serves Stands)

def TermDocs.meaning (e : TermDocs) : Meaning := TermMatch.meaning e.docs e.ascending

theorem TermDocs.exists_meaning {entries : List TermDocs} {d : DocId} :
    (∃ ν ∈ entries.map TermDocs.meaning, d ∈ ν.ids) ↔ ∃ e ∈ entries, d ∈ e.docs := by
  simp only [List.mem_map, exists_exists_and_eq_and]
  rfl

namespace MultiTermMatch

/-! ### Enumerating the terms -/

section Expand

variable {P : Type} [TermProvider P] {limit : Option Nat} {taken : Nat} {p p' : P}

theorem expand_of_error {e : Failure} (h : TermProvider.next p = (.error e, p')) :
    expand limit taken p = .error e := by
  rw [expand]
  split <;> simp_all

theorem expand_of_none (h : TermProvider.next p = (.ok none, p')) : expand limit taken p = .ok [] := by
  rw [expand]
  split <;> simp_all

theorem expand_of_some {m : TermMatch} (h : TermProvider.next p = (.ok (some m), p')) :
    expand limit taken p =
      if limit.all (taken < ·) then (expand limit (taken + 1) p').map (m :: ·)
      else .error (.tooManyTerms (TermProvider.inspect p').operation (TermProvider.field p')
        (limit.getD 0)) := by
  rw [expand]
  split
  · simp_all
  · simp_all
  · rename_i hn
    obtain ⟨hm, rfl⟩ := Prod.mk.inj (h.symm.trans hn)
    obtain rfl := Option.some.inj (Except.ok.inj hm)
    cases limit with
    | none => rfl
    | some most =>
      simp only [Option.all_some, decide_eq_true_iff, Option.getD_some]
      by_cases hlt : taken < most
      · rw [if_pos hlt, if_neg (Nat.not_le.mpr hlt)]
      · rw [if_neg hlt, if_pos (Nat.le_of_not_lt hlt)]

/-- All terms that a provider has still to enumerate are opened, unless the limit is below their
number. -/
theorem expand_enumerates {R : P → List TermDocs → Prop} {operation field : String}
    (he : TermProvider.Enumerates field R)
    (hd : ∀ {p rest}, R p rest →
      (TermProvider.inspect p).operation = operation ∧ TermProvider.field p = field)
    {rest : List TermDocs} (h : R p rest) (limit : Option Nat) (taken : Nat)
    (ht : limit.all (taken ≤ ·) = true) :
    if limit.all (taken + rest.length ≤ ·) then
      ∃ ms, expand limit taken p = .ok ms ∧
        List.Forall₂ (fun e m => TermMatch.Reads e.docs m e.docs) rest ms
    else expand limit taken p = .error (.tooManyTerms operation field (limit.getD 0)) := by
  induction rest generalizing p taken with
  | nil =>
    obtain ⟨p', hn, -⟩ := he h
    rw [List.length_nil, Nat.add_zero, if_pos ht]
    exact ⟨[], expand_of_none hn, .nil⟩
  | cons e rest ih =>
    obtain ⟨m, p', hn, hopened, hr⟩ := he h
    obtain ⟨hoperation, hfield⟩ := hd hr
    have hsum : taken + (e :: rest).length = taken + 1 + rest.length := by
      rw [List.length_cons]
      omega
    rw [expand_of_some hn, hoperation, hfield, hsum]
    by_cases hlt : limit.all (taken < ·) = true
    · have hrest := ih hr _ hlt
      rw [if_pos hlt]
      by_cases hall : limit.all (taken + 1 + rest.length ≤ ·) = true
      · rw [if_pos hall] at hrest ⊢
        obtain ⟨ms, hx, hms⟩ := hrest
        exact ⟨m :: ms, by rw [hx]; rfl, .cons hopened.reads hms⟩
      · rw [if_neg hall] at hrest ⊢
        rw [hrest]
        rfl
    · rw [if_neg hlt, if_neg]
      intro hall
      cases limit with
      | none => exact hlt rfl
      | some most =>
        simp only [Option.all_some, decide_eq_true_iff] at hlt hall
        omega

end Expand

/-! ### Meaning -/

/-- The score of an id: what a function gives for each term that has it, added up from the left. -/
def termScore (scoring : Option (ScoreFunction × UInt64)) (entries : List TermDocs) (d : DocId) :
    Float32 :=
  match scoring with
  | none => neutralScore
  | some (function, totalDocs) =>
      (entries.filter fun e => decide (d ∈ e.docs)).foldl
        (fun total e => total + function.score ⟨d, UInt64.ofNat e.docs.length, totalDocs⟩) 0

structure Gathers (scoring : Option (ScoreFunction × UInt64)) (entries : List TermDocs)
    (μ : Meaning) : Prop where
  mem_iff (d : DocId) : d ∈ μ.ids ↔ ∃ e ∈ entries, d ∈ e.docs
  score : μ.score = termScore scoring entries
  scored : μ.scored = scoring.isSome
  cost : μ.cost = entries.foldl (fun n e => n + UInt64.ofNat e.docs.length) 0

variable {entries : List TermDocs} {scoring : Option (ScoreFunction × UInt64)} {μ : Meaning}

theorem anyTerm_eq (d : DocId) (terms : List TermMatch) :
    anyTerm d terms = Matcher.evaluateAny d terms := by
  induction terms with
  | nil => rfl
  | cons m terms ih => rw [anyTerm, Matcher.evaluateAny, ih]; rfl

theorem addTerm_ok (function : ScoreFunction) (totalDocs : UInt64) {e : TermDocs} {m : TermMatch}
    (h : Answers e.meaning m) (ids : List DocId) (f : DocId → Float32) :
    addTerm function totalDocs m ids (ids.map f) = .ok (ids.map fun d =>
      if d ∈ e.docs then f d + function.score ⟨d, UInt64.ofNat e.docs.length, totalDocs⟩ else f d) := by
  have hdf : m.docFreq = UInt64.ofNat e.docs.length := h.cost
  induction ids with
  | nil => rfl
  | cons d ids ih =>
    have hfound : m.evaluate d = .ok (decide (d ∈ e.docs)) := h.evaluate d
    rw [List.map_cons, addTerm, hfound, hdf, ih]
    simp only [decide_eq_true_iff]
    rfl

theorem addTerms_ok (function : ScoreFunction) (totalDocs : UInt64) {terms : List TermMatch}
    (h : List.Forall₂ (fun e m => Answers (TermDocs.meaning e) m) entries terms) (ids : List DocId)
    (f : DocId → Float32) :
    addTerms function totalDocs ids terms (ids.map f) = .ok (ids.map fun d =>
      (entries.filter fun e => decide (d ∈ e.docs)).foldl
        (fun total e => total + function.score ⟨d, UInt64.ofNat e.docs.length, totalDocs⟩) (f d)) := by
  induction h generalizing f with
  | nil => rfl
  | cons hm _ ih =>
    rw [addTerms, addTerm_ok function totalDocs hm]
    simp only [ih]
    refine congrArg Except.ok (List.map_congr_left fun d _ => ?_)
    rw [List.filter_cons]
    simp only [decide_eq_true_iff]
    split <;> rfl

structure Delivers (scoring : Option (ScoreFunction × UInt64)) (entries : List TermDocs)
    (μ : Meaning) (m : MultiTermMatch) (rest : List DocId) : Prop where
  terms : Union.Unites (entries.map TermDocs.meaning) m.terms rest
  scoring : m.scoring = scoring
  cost : m.cost = μ.cost

theorem delivers_exact : IdSource.Exact (Delivers scoring entries μ) := by
  rintro ⟨field, provider, terms, s, cost⟩ rest ⟨hu, hs, hcost⟩ n
  obtain ⟨terms', hf, hu'⟩ := Union.unites_exact hu n
  refine ⟨⟨field, provider, terms', s, cost⟩, ?_, hu', hs, hcost⟩
  show fill _ n = _
  change terms.fill n = _ at hf
  rw [fill, hf]

theorem score_ok {m : MultiTermMatch} {rest : List DocId} (h : Delivers scoring entries μ m rest)
    (ids : List DocId) (buffer : Array Float32) :
    m.score ids buffer =
      (Matcher.checkSlots ids buffer).map fun _ => (ids.map (termScore scoring entries)).toArray := by
  have hterms := List.forall₂_map_left_iff.mp (Matcher.answers_of_stands h.terms.stands)
  unfold score
  rw [h.scoring]
  cases scoring with
  | none => exact Matcher.neutralScores_eq ids buffer
  | some scoring =>
    obtain ⟨function, totalDocs⟩ := scoring
    unfold Matcher.checkSlots
    by_cases hb : buffer.size = ids.length
    · have hzero : List.replicate buffer.size (0 : Float32) = ids.map fun _ => 0 := by
        rw [hb, List.map_const']
      rw [if_pos hb, hzero]
      simp only [bind, Except.bind, addTerms_ok function totalDocs hterms, pure, Except.pure]
      rfl
    · rw [if_neg hb]
      rfl

theorem delivers_answers (hμ : Gathers scoring entries μ) {m : MultiTermMatch} {rest : List DocId}
    (h : Delivers scoring entries μ m rest) : Answers μ m := by
  have hterms := Matcher.answers_of_stands h.terms.stands
  refine ⟨fun d => ?_, fun ids buffer => ?_, ?_, h.cost⟩
  · show anyTerm d m.terms.matchers = _
    rw [anyTerm_eq, Matcher.evaluateAny_ok hterms]
    exact congrArg Except.ok
      (decide_eq_decide.mpr (TermDocs.exists_meaning.trans (hμ.mem_iff d).symm))
  · rw [hμ.score]
    exact score_ok h ids buffer
  · rw [hμ.scored, ← h.scoring]
    rfl

theorem serves {m : MultiTermMatch} {ms : List TermMatch} (hμ : Gathers scoring entries μ)
    (hms : List.Forall₂ (fun e m => TermMatch.Reads e.docs m e.docs) entries ms) (batch : Nat)
    (hterms : m.terms = .ofList ms batch) (hscoring : m.scoring = scoring)
    (hcost : m.cost = Matcher.totalCost ms) : Serves μ m μ.ids := by
  have hmeans : List.Forall₂ (fun ν m => Means ν m ν.ids) (entries.map TermDocs.meaning) ms :=
    List.forall₂_map_left_iff.mpr
      (hms.imp fun e _ hr => (TermMatch.serves e.ascending hr).means)
  have hmem : ∀ d, d ∈ μ.ids ↔ ∃ ν ∈ entries.map TermDocs.meaning, d ∈ ν.ids := fun d =>
    (hμ.mem_iff d).trans TermDocs.exists_meaning.symm
  have hmerge := Meaning.merges_idsAt μ.ascending hmem
  refine Matcher.serves_of_exact delivers_exact
    (fun h => ⟨Union.unites_reset h.terms hmerge, h.scoring, h.cost⟩) (fun _ _ h => h)
    (delivers_answers hμ) ⟨hterms ▸ Union.unites_ofList hmeans hmerge batch, hscoring, ?_⟩
  rw [hcost, hμ.cost, OrMatch.totalCost_eq
    (hmeans.imp fun _ _ h => Matcher.means_upholds.answers h), List.foldl_map]
  rfl

end MultiTermMatch

end Concordance
