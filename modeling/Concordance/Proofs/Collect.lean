import Concordance.Proofs.Calls
import Concordance.Search.Searcher

/-!
# Collecting results

Collecting a match that answers by a service gives the ids of the service, each with its score and
the caller's id: `Searcher.collect_provides`. How many ids a batch has does not show in the results.
-/

namespace Concordance

namespace Searcher

variable {s : Searcher} {n : Nat} {m : Match n} {σ : Service} {rest : List DocId}
  {names : DocId → Option String}

/-- The hit of an id, a document having the caller's id that `names` tells. -/
def hit (names : DocId → Option String) (σ : Service) (d : DocId) : SearchHit where
  docId := d
  externalId := names d
  score := σ.score d

theorem resolve_eq (hnames : ∀ d, s.reader.externalId d = .ok (names d)) (ids : List DocId) :
    s.resolve (ids.zip (ids.map σ.score)) = .ok (ids.map (hit names σ)) := by
  induction ids with
  | nil => rfl
  | cons d ids ih =>
    rw [List.map_cons, List.zip_cons_cons, resolve, hnames, ih]
    rfl

theorem hitsOf_provides (hnames : ∀ d, s.reader.externalId d = .ok (names d))
    (h : Provides σ m rest) (ids : List DocId) :
    ∃ m', s.hitsOf m ids = (.ok (ids.map (hit names σ)), m') ∧ Provides σ m' rest := by
  unfold hitsOf
  split
  · rename_i hempty
    rw [List.isEmpty_iff.mp hempty]
    exact ⟨m, rfl, h⟩
  · have hscore : (Callable.score m ids (.replicate ids.length 0)).1 =
        .ok (ids.map σ.score).toArray := h.score Array.size_replicate
    refine ⟨_, Prod.ext ?_ rfl, h.scored ids (.replicate ids.length 0)⟩
    show Except.bind (Callable.score m ids _).1 _ = _
    rw [hscore]
    exact resolve_eq hnames ids

/-- What a first batch does not use up of a limit is left for the ids behind it. -/
theorem wanted_append (limit : Option Nat) (front back : List DocId) :
    wanted limit (front ++ back) =
      wanted limit front ++ wanted (limit.map (· - (wanted limit front).length)) back := by
  cases limit with
  | none => rfl
  | some most =>
    have hleft : most - (front.take most).length = most - front.length := by
      rw [List.length_take]
      omega
    show (front ++ back).take most = front.take most ++ back.take (most - (front.take most).length)
    rw [hleft, List.take_append]

/-- Collecting counts the ids a match has left, and makes hits of the first ones. -/
theorem collectHits_provides (hnames : ∀ d, s.reader.externalId d = .ok (names d))
    (hbatch : 0 < s.config.fillBatchSize) (limit : Option Nat) (h : Provides σ m rest) :
    (s.collectHits limit m).1 = .ok ((wanted limit rest).map (hit names σ), rest.length) := by
  fun_induction s.collectHits limit m generalizing rest with
  | case1 limit m e m₁ hf =>
    obtain ⟨_, hfill, -⟩ := h.fill s.config.fillBatchSize
    rw [hf] at hfill
    cases hfill
  | case2 limit m m₁ hf =>
    obtain ⟨_, hfill, -⟩ := h.fill s.config.fillBatchSize
    obtain ⟨hnil, -⟩ := Prod.mk.inj (hfill.symm.trans hf)
    obtain rfl : rest = [] := by
      rcases List.take_eq_nil_iff.mp (Except.ok.inj hnil) with hzero | hnil
      · omega
      · exact hnil
    cases limit <;> simp [wanted]
  | case3 limit m d ids m₁ hf e m₂ hs =>
    obtain ⟨_, hfill, h₁⟩ := h.fill s.config.fillBatchSize
    obtain ⟨-, rfl⟩ := Prod.mk.inj (hfill.symm.trans hf)
    obtain ⟨_, hhits, -⟩ := hitsOf_provides hnames h₁ (wanted limit (d :: ids))
    rw [hs] at hhits
    cases hhits
  | case4 limit m d ids m₁ hf hits m₂ hs e m₃ hrest ih =>
    obtain ⟨_, hfill, h₁⟩ := h.fill s.config.fillBatchSize
    obtain ⟨-, rfl⟩ := Prod.mk.inj (hfill.symm.trans hf)
    obtain ⟨_, hhits, h₂⟩ := hitsOf_provides hnames h₁ (wanted limit (d :: ids))
    obtain ⟨-, rfl⟩ := Prod.mk.inj (hhits.symm.trans hs)
    have hmore := ih h₂
    rw [hrest] at hmore
    cases hmore
  | case5 limit m d ids m₁ hf hits m₂ hs more count m₃ hrest ih =>
    obtain ⟨_, hfill, h₁⟩ := h.fill s.config.fillBatchSize
    obtain ⟨hbatch, rfl⟩ := Prod.mk.inj (hfill.symm.trans hf)
    obtain ⟨_, hhits, h₂⟩ := hitsOf_provides hnames h₁ (wanted limit (d :: ids))
    obtain ⟨hhits, rfl⟩ := Prod.mk.inj (hhits.symm.trans hs)
    have hmore := ih h₂
    rw [hrest] at hmore
    obtain ⟨hmore, hcount⟩ := Prod.mk.inj (Except.ok.inj hmore)
    have hsplit : rest = (d :: ids) ++ rest.drop s.config.fillBatchSize := by
      rw [← Except.ok.inj hbatch, List.take_append_drop]
    rw [← Except.ok.inj hhits, hmore, hcount, ← List.map_append]
    apply congrArg Except.ok
    apply Prod.ext
    · conv => rhs; rw [hsplit, wanted_append]
    · conv => rhs; rw [hsplit, List.length_append]
      rfl

/-- A match is collected into a hit for each of the first ids it has left, whatever the batches. -/
theorem collect_provides (hnames : ∀ d, s.reader.externalId d = .ok (names d))
    (hbatch : 0 < s.config.fillBatchSize) (limit : Option Nat) (h : Provides σ m rest) :
    (s.collect limit m).1 =
      .ok (.ofHits ((wanted limit rest).map (hit names σ)) rest.length) := by
  unfold collect
  dsimp only
  rw [collectHits_provides hnames hbatch limit h]
  rfl

/-- Collecting does not fail, not even in empty batches. -/
theorem collect_total (hnames : ∀ d, s.reader.externalId d = .ok (names d)) (h : Provides σ m rest)
    (limit : Option Nat) : ∃ results, (s.collect limit m).1 = .ok results := by
  rcases Nat.eq_zero_or_pos s.config.fillBatchSize with hzero | hpos
  · obtain ⟨m', hfill, -⟩ := h.fill s.config.fillBatchSize
    have hnil : rest.take s.config.fillBatchSize = [] := by
      rw [hzero, List.take_zero]
    rw [hnil] at hfill
    have hhits : (s.collectHits limit m).1 = .ok ([], 0) := by
      unfold collectHits
      rw [hfill]
    refine ⟨.ofHits [] 0, ?_⟩
    unfold collect
    dsimp only
    rw [hhits]
    rfl
  · exact ⟨_, collect_provides hnames hpos limit h⟩

end Searcher

end Concordance
