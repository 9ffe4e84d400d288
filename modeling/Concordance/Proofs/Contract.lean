import Concordance.Match.Basic
import Concordance.Proofs.Ascending

/-!
# Contracts

What can be relied on when a source or a match is used: a relation between its states and the ids
they still have to serve that every call keeps. A match also has a meaning, which no call changes:
the ids it has, the score it gives an id, and its cost. `Matcher.Means` is the weakest such contract
and `Matcher.Serves` the one that match trees keep.
-/

namespace Concordance

theorem forall₂_trans {R : α → β → Prop} {S : β → γ → Prop} {T : α → γ → Prop} {xs : List α}
    {ys : List β} {zs : List γ} (hxy : List.Forall₂ R xs ys) (hyz : List.Forall₂ S ys zs)
    (h : ∀ x ∈ xs, ∀ y z, R x y → S y z → T x z) : List.Forall₂ T xs zs := by
  induction hxy generalizing zs with
  | nil =>
    cases hyz
    exact .nil
  | cons hr _ ih =>
    cases hyz with
    | cons hs hrest =>
      exact .cons (h _ List.mem_cons_self _ _ hr hs)
        (ih hrest fun x hx => h x (List.mem_cons_of_mem _ hx))

theorem forall₂_mem_right {R : α → β → Prop} {xs : List α} {ys : List β} (h : List.Forall₂ R xs ys)
    {y : β} (hy : y ∈ ys) : ∃ x ∈ xs, R x y := by
  induction h with
  | nil => exact (List.not_mem_nil hy).elim
  | cons hr _ ih =>
    rcases List.mem_cons.mp hy with rfl | hy
    · exact ⟨_, List.mem_cons_self, hr⟩
    · obtain ⟨x, hx, hr⟩ := ih hy
      exact ⟨x, List.mem_cons_of_mem _ hx, hr⟩

theorem map_eq_of_forall₂ {R : α → β → Prop} {f : α → γ} {g : β → γ} {xs : List α} {ys : List β}
    (h : List.Forall₂ R xs ys) (hR : ∀ x y, R x y → g y = f x) : ys.map g = xs.map f := by
  induction h with
  | nil => rfl
  | cons hr _ ih => rw [List.map_cons, List.map_cons, hR _ _ hr, ih]

namespace IdSource

variable {S : Type} [IdSource S]

/-- A batch serves some of the first ids still to come, at least one if there is one. -/
def Progresses (R : S → List DocId → Prop) : Prop :=
  ∀ ⦃s rest⦄, R s rest → ∀ n, ∃ k s',
    fill s n = (.ok (rest.take k), s') ∧ R s' (rest.drop k) ∧ k ≤ n ∧ (0 < n → rest ≠ [] → 0 < k)

/-- As `Progresses`, for batches that ask for ids. Nothing is said of an empty batch. -/
def Feeds (R : S → List DocId → Prop) : Prop :=
  ∀ ⦃s rest⦄, R s rest → ∀ n, 0 < n → ∃ k s',
    fill s n = (.ok (rest.take k), s') ∧ R s' (rest.drop k) ∧ k ≤ n ∧ (rest ≠ [] → 0 < k)

/-- As `Feeds`, for batches that may be longer than was asked for. -/
def Advances (R : S → List DocId → Prop) : Prop :=
  ∀ ⦃s rest⦄, R s rest → ∀ n, 0 < n → ∃ k s',
    fill s n = (.ok (rest.take k), s') ∧ R s' (rest.drop k) ∧ (rest ≠ [] → 0 < k)

/-- A batch serves as many of the ids still to come as it is asked for. -/
def Exact (R : S → List DocId → Prop) : Prop :=
  ∀ ⦃s rest⦄, R s rest → ∀ n, ∃ s', fill s n = (.ok (rest.take n), s') ∧ R s' (rest.drop n)

theorem Progresses.feeds {R : S → List DocId → Prop} (h : Progresses R) : Feeds R := by
  intro s rest hr n hn
  obtain ⟨k, s', hf, hr', hkn, hpos⟩ := h hr n
  exact ⟨k, s', hf, hr', hkn, hpos hn⟩

theorem Feeds.advances {R : S → List DocId → Prop} (h : Feeds R) : Advances R := by
  intro s rest hr n hn
  obtain ⟨k, s', hf, hr', -, hpos⟩ := h hr n hn
  exact ⟨k, s', hf, hr', hpos⟩

theorem Exact.progresses {R : S → List DocId → Prop} (h : Exact R) : Progresses R := by
  intro s rest hr n
  obtain ⟨s', hf, hr'⟩ := h hr n
  exact ⟨n, s', hf, hr', Nat.le_refl n, fun hn _ => hn⟩

end IdSource

/-- What a match stands for, whatever it has served. -/
structure Meaning where
  ids : List DocId
  ascending : Ascending ids
  score : DocId → Float32
  scored : Bool
  cost : UInt64

namespace Matcher

variable {M : Type} [Matcher M]

/-- The calls that do not serve ids answer by a meaning. -/
structure Answers (μ : Meaning) (m : M) : Prop where
  evaluate (d : DocId) : Matcher.evaluate m d = .ok (decide (d ∈ μ.ids))
  score (ids : List DocId) (buffer : Array Float32) :
    (Matcher.score m ids buffer).1 =
      (checkSlots ids buffer).map fun _ => (ids.map μ.score).toArray
  isScored : Matcher.isScored m = μ.scored
  cost : Matcher.cost m = μ.cost

/-- A relation to the ids still to come that every call keeps, the calls answering by a meaning. -/
structure Upholds (μ : Meaning) (R : M → List DocId → Prop) : Prop where
  progresses : IdSource.Progresses R
  reset {m : M} {rest : List DocId} : R m rest → R (IdSource.reset m) μ.ids
  scored {m : M} {rest : List DocId} (ids : List DocId) (buffer : Array Float32) :
    R m rest → R (Matcher.score m ids buffer).2 rest
  answers {m : M} {rest : List DocId} : R m rest → Answers μ m

/-- The match stands for a meaning and has `rest` of its ids still to serve. -/
def Means (μ : Meaning) (m : M) (rest : List DocId) : Prop :=
  ∃ R : M → List DocId → Prop, Upholds μ R ∧ R m rest

/-- As `Means`, and every batch is as large as can be. -/
def Serves (μ : Meaning) (m : M) (rest : List DocId) : Prop :=
  ∃ R : M → List DocId → Prop, Upholds μ R ∧ IdSource.Exact R ∧ R m rest

variable {μ : Meaning}

theorem Serves.means {m : M} {rest : List DocId} (h : Serves μ m rest) : Means μ m rest := by
  obtain ⟨R, hu, _, hr⟩ := h
  exact ⟨R, hu, hr⟩

theorem means_upholds : Upholds μ (Means (M := M) μ) where
  progresses := by
    rintro m rest ⟨R, hu, hr⟩ n
    obtain ⟨k, m', hf, hr', hk⟩ := hu.progresses hr n
    exact ⟨k, m', hf, ⟨R, hu, hr'⟩, hk⟩
  reset := by
    rintro m rest ⟨R, hu, hr⟩
    exact ⟨R, hu, hu.reset hr⟩
  scored := by
    rintro m rest ids buffer ⟨R, hu, hr⟩
    exact ⟨R, hu, hu.scored ids buffer hr⟩
  answers := by
    rintro m rest ⟨R, hu, hr⟩
    exact hu.answers hr

theorem serves_exact : IdSource.Exact (Serves (M := M) μ) := by
  rintro m rest ⟨R, hu, he, hr⟩ n
  obtain ⟨m', hf, hr'⟩ := he hr n
  exact ⟨m', hf, R, hu, he, hr'⟩

theorem serves_upholds : Upholds μ (Serves (M := M) μ) where
  progresses := serves_exact.progresses
  reset := by
    rintro m rest ⟨R, hu, he, hr⟩
    exact ⟨R, hu, he, hu.reset hr⟩
  scored := by
    rintro m rest ids buffer ⟨R, hu, he, hr⟩
    exact ⟨R, hu, he, hu.scored ids buffer hr⟩
  answers := by
    rintro m rest ⟨R, hu, _, hr⟩
    exact hu.answers hr

theorem serves_of_exact {R : M → List DocId → Prop} (he : IdSource.Exact R)
    (hreset : ∀ {m rest}, R m rest → R (IdSource.reset m) μ.ids)
    (hscored : ∀ {m rest} ids buffer, R m rest → R (Matcher.score m ids buffer).2 rest)
    (hanswers : ∀ {m rest}, R m rest → Answers μ m) {m : M} {rest : List DocId} (h : R m rest) :
    Serves μ m rest :=
  ⟨R, ⟨he.progresses, hreset, hscored, hanswers⟩, he, h⟩

theorem Answers.score_ok {m : M} (h : Answers μ m) {ids : List DocId} {buffer : Array Float32}
    (hs : buffer.size = ids.length) :
    (Matcher.score m ids buffer).1 = .ok (ids.map μ.score).toArray := by
  rw [h.score, checkSlots, if_pos hs]
  rfl

/-! ### Matches in any of their states -/

def Stands (μ : Meaning) (m : M) : Prop := ∃ rest, Means μ m rest

/-- Whatever a match stands for and has still to serve, so does another. -/
def Continues (m m' : M) : Prop := ∀ ⦃μ rest⦄, Means μ m rest → Means μ m' rest

variable {μs : List Meaning} {m m' : M} {ms ms' ms'' : List M}

theorem Stands.answers (h : Stands μ m) : Answers μ m := by
  obtain ⟨rest, h⟩ := h
  exact means_upholds.answers h

theorem Stands.reset (h : Stands μ m) : Means μ (IdSource.reset m) μ.ids := by
  obtain ⟨rest, h⟩ := h
  exact means_upholds.reset h

theorem Stands.continues (h : Stands μ m) (hm : Continues m m') : Stands μ m' := by
  obtain ⟨rest, h⟩ := h
  exact ⟨rest, hm h⟩

/-- A match with the right number of slots scores, and goes on as before. -/
theorem Stands.score_ok (h : Stands μ m) {ids : List DocId} {buffer : Array Float32}
    (hs : buffer.size = ids.length) :
    ∃ m', Matcher.score m ids buffer = (.ok (ids.map μ.score).toArray, m') ∧ Continues m m' := by
  refine ⟨(Matcher.score m ids buffer).2, Prod.ext (h.answers.score_ok hs) rfl, ?_⟩
  intro ν rest hm
  exact means_upholds.scored ids buffer hm

theorem continues_refl (ms : List M) : List.Forall₂ Continues ms ms :=
  List.forall₂_same.mpr fun _ _ _ _ h => h

theorem continues_trans (h : List.Forall₂ Continues ms ms')
    (h' : List.Forall₂ Continues ms' ms'') : List.Forall₂ Continues ms ms'' :=
  forall₂_trans h h' fun _ _ _ _ hm hm' _ _ hr => hm' (hm hr)

theorem stands_continues (h : List.Forall₂ Stands μs ms) (hms : List.Forall₂ Continues ms ms') :
    List.Forall₂ Stands μs ms' :=
  forall₂_trans h hms fun _ _ _ _ => Stands.continues

theorem answers_of_stands (h : List.Forall₂ Stands μs ms) : List.Forall₂ Answers μs ms :=
  h.imp fun _ _ => Stands.answers

theorem stands_reset (h : List.Forall₂ Stands μs ms) :
    List.Forall₂ Stands μs (ms.map IdSource.reset) :=
  List.forall₂_map_right_iff.mpr (h.imp fun _ _ hs => ⟨_, hs.reset⟩)

end Matcher

end Concordance
