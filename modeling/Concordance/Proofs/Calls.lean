import Concordance.Match.Root
import Concordance.Proofs.Contract

/-!
# Runs of calls

A match is used by calls in any order. What the calls answer is told by a service, the list of ids
that are served one after the other and the score of each; the only state of a service is what is
left of the list. `run_refines` carries a relation between matches and such lists along a run.
-/

namespace Concordance

inductive Call where
  | fill (size : Nat)
  | evaluate (d : DocId)
  | score (ids : List DocId) (buffer : Array Float32)
  | reset

inductive Answer where
  | served (ids : List DocId)
  | found (matched : Bool)
  | scored (scores : Array Float32)
  | rewound
  deriving DecidableEq

/-- Whether a score buffer has one slot for each id. Other calls are always well formed. -/
def Call.WellFormed : Call → Prop
  | score ids buffer => buffer.size = ids.length
  | _ => True

instance : (c : Call) → Decidable c.WellFormed
  | .score ids buffer => inferInstanceAs (Decidable (buffer.size = ids.length))
  | .fill _ | .evaluate _ | .reset => isTrue trivial

/-- A source that is also asked for members and scores. -/
class Callable (S : Type) extends IdSource S where
  evaluate : S → DocId → Except Failure Bool × S
  score : S → List DocId → Array Float32 → Except Failure (Array Float32) × S

instance {n : Nat} : Callable (Match n) where
  evaluate := Match.evaluate
  score := Match.score

instance {M : Type} [Matcher M] : Callable (OrderBy M) where
  evaluate := OrderBy.evaluate
  score := OrderBy.score

namespace Callable

variable {S : Type} [Callable S]

def call (s : S) : Call → Except Failure Answer × S
  | .fill n => ((IdSource.fill s n).1.map .served, (IdSource.fill s n).2)
  | .evaluate d => ((evaluate s d).1.map .found, (evaluate s d).2)
  | .score ids buffer => ((score s ids buffer).1.map .scored, (score s ids buffer).2)
  | .reset => (.ok .rewound, IdSource.reset s)

def run (s : S) : List Call → List (Except Failure Answer) × S
  | [] => ([], s)
  | c :: calls =>
      let rest := run (call s c).2 calls
      ((call s c).1 :: rest.1, rest.2)

theorem run_append (s : S) (calls more : List Call) :
    (run s (calls ++ more)).2 = (run (run s calls).2 more).2 := by
  induction calls generalizing s with
  | nil => rfl
  | cons c calls ih => exact ih _

end Callable

/-- What a match is taken for: the ids it serves, in their order, and the score of an id. -/
structure Service where
  ids : List DocId
  score : DocId → Float32

namespace Service

/-- The answer to a call when `rest` is still to be served, and what is to be served then. -/
def answer (σ : Service) (rest : List DocId) : Call → Except Failure Answer × List DocId
  | .fill n => (.ok (.served (rest.take n)), rest.drop n)
  | .evaluate d => (.ok (.found (decide (d ∈ σ.ids))), rest)
  | .score ids buffer =>
      ((Matcher.checkSlots ids buffer).map fun _ => .scored (ids.map σ.score).toArray, rest)
  | .reset => (.ok .rewound, σ.ids)

def run (σ : Service) (rest : List DocId) : List Call → List (Except Failure Answer) × List DocId
  | [] => ([], rest)
  | c :: calls =>
      let later := run σ (σ.answer rest c).2 calls
      ((σ.answer rest c).1 :: later.1, later.2)

variable {σ : Service}

theorem answer_ok {c : Call} (h : c.WellFormed) (rest : List DocId) :
    ∃ a, (σ.answer rest c).1 = .ok a := by
  cases c with
  | score ids buffer =>
    have hsize : buffer.size = ids.length := h
    refine ⟨.scored (ids.map σ.score).toArray, ?_⟩
    show (Matcher.checkSlots ids buffer).map _ = _
    rw [Matcher.checkSlots, if_pos hsize]
    rfl
  | _ => exact ⟨_, rfl⟩

/-- Only a score buffer of the wrong size makes a call fail. -/
theorem run_ok {calls : List Call} (h : ∀ c ∈ calls, c.WellFormed) (rest : List DocId) :
    ∀ r ∈ (σ.run rest calls).1, ∃ a, r = .ok a := by
  induction calls generalizing rest with
  | nil => exact fun r hr => (List.not_mem_nil hr).elim
  | cons c calls ih =>
    intro r hr
    rcases List.mem_cons.mp hr with rfl | hr
    · exact answer_ok (h c List.mem_cons_self) rest
    · exact ih (fun c hc => h c (List.mem_cons_of_mem _ hc)) _ r hr

end Service

/-! ### Refinement -/

section

variable {S : Type} [Callable S] {σ : Service} {R : S → List DocId → Prop}

/-- A call answers as a service does and leads to a state that still stands for it. -/
def Refines (σ : Service) (R : S → List DocId → Prop) (s : S) (rest : List DocId) (c : Call) :
    Prop :=
  (Callable.call s c).1 = (σ.answer rest c).1 ∧
    R (Callable.call s c).2 (σ.answer rest c).2

theorem refines_fill {s s' : S} {rest : List DocId} {n : Nat}
    (hf : IdSource.fill s n = (.ok (rest.take n), s')) (h : R s' (rest.drop n)) :
    Refines σ R s rest (.fill n) := by
  simp only [Refines, Callable.call, hf]
  exact ⟨rfl, h⟩

theorem refines_evaluate {s s' : S} {rest : List DocId} {d : DocId}
    (he : Callable.evaluate s d = (.ok (decide (d ∈ σ.ids)), s')) (h : R s' rest) :
    Refines σ R s rest (.evaluate d) := by
  simp only [Refines, Callable.call, he]
  exact ⟨rfl, h⟩

theorem refines_score {s : S} {rest ids : List DocId} {buffer : Array Float32}
    (hs : (Callable.score s ids buffer).1 =
      (Matcher.checkSlots ids buffer).map fun _ => (ids.map σ.score).toArray)
    (h : R (Callable.score s ids buffer).2 rest) : Refines σ R s rest (.score ids buffer) := by
  refine ⟨?_, h⟩
  show (Callable.score s ids buffer).1.map _ = (Matcher.checkSlots ids buffer).map _
  rw [hs]
  cases Matcher.checkSlots ids buffer <;> rfl

theorem run_refines (step : ∀ s rest c, R s rest → Refines σ R s rest c) (calls : List Call)
    {s : S} {rest : List DocId} (h : R s rest) :
    (Callable.run s calls).1 = (σ.run rest calls).1 ∧
      R (Callable.run s calls).2 (σ.run rest calls).2 := by
  induction calls generalizing s rest with
  | nil => exact ⟨rfl, h⟩
  | cons c calls ih =>
    obtain ⟨hanswer, hstate⟩ := step s rest c h
    obtain ⟨hanswers, hend⟩ := ih hstate
    exact ⟨congrArg₂ List.cons hanswer hanswers, hend⟩

theorem run_refines_of_ok
    (step : ∀ s rest c a, R s rest → (Callable.call s c).1 = .ok a → Refines σ R s rest c)
    (calls : List Call) {s : S} {rest : List DocId} (h : R s rest)
    (hok : ∀ r ∈ (Callable.run s calls).1, ∃ a, r = .ok a) :
    (Callable.run s calls).1 = (σ.run rest calls).1 ∧
      R (Callable.run s calls).2 (σ.run rest calls).2 := by
  induction calls generalizing s rest with
  | nil => exact ⟨rfl, h⟩
  | cons c calls ih =>
    obtain ⟨a, ha⟩ := hok _ List.mem_cons_self
    obtain ⟨hanswer, hstate⟩ := step s rest c a h ha
    obtain ⟨hanswers, hend⟩ := ih hstate fun r hr => hok r (List.mem_cons_of_mem _ hr)
    exact ⟨congrArg₂ List.cons hanswer hanswers, hend⟩

/-- The state answers calls, now and later, as a service that has `rest` still to serve. -/
def Provides (σ : Service) (s : S) (rest : List DocId) : Prop :=
  ∃ R : S → List DocId → Prop, (∀ s rest c, R s rest → Refines σ R s rest c) ∧ R s rest

namespace Provides

variable {s : S} {rest : List DocId}

theorem step (h : Provides σ s rest) (c : Call) : Refines σ (Provides σ) s rest c := by
  obtain ⟨R, hstep, hr⟩ := h
  obtain ⟨hanswer, hstate⟩ := hstep s rest c hr
  exact ⟨hanswer, R, hstep, hstate⟩

theorem run (h : Provides σ s rest) (calls : List Call) :
    (Callable.run s calls).1 = (σ.run rest calls).1 ∧
      Provides σ (Callable.run s calls).2 (σ.run rest calls).2 :=
  run_refines (fun _ _ c h => h.step c) calls h

theorem score (h : Provides σ s rest) {ids : List DocId} {buffer : Array Float32}
    (hsize : buffer.size = ids.length) :
    (Callable.score s ids buffer).1 = .ok (ids.map σ.score).toArray := by
  have hanswer : (Callable.score s ids buffer).1.map Answer.scored =
      (Matcher.checkSlots ids buffer).map fun _ => .scored (ids.map σ.score).toArray :=
    (h.step (.score ids buffer)).1
  rw [Matcher.checkSlots, if_pos hsize] at hanswer
  cases hs : (Callable.score s ids buffer).1 with
  | error e =>
    rw [hs] at hanswer
    cases hanswer
  | ok scores =>
    rw [hs] at hanswer
    exact congrArg Except.ok (Answer.scored.inj (Except.ok.inj hanswer))

theorem fill (h : Provides σ s rest) (n : Nat) :
    ∃ s', IdSource.fill s n = (.ok (rest.take n), s') ∧ Provides σ s' (rest.drop n) := by
  obtain ⟨hanswer, hstate⟩ := h.step (.fill n)
  rcases hf : IdSource.fill s n with ⟨result, s'⟩
  simp only [Callable.call, hf] at hanswer hstate
  refine ⟨s', ?_, hstate⟩
  cases result with
  | error e => cases hanswer
  | ok ids => rw [Answer.served.inj (Except.ok.inj hanswer)]

theorem scored (h : Provides σ s rest) (ids : List DocId) (buffer : Array Float32) :
    Provides σ (Callable.score s ids buffer).2 rest := by
  obtain ⟨-, hstate⟩ := h.step (.score ids buffer)
  exact hstate

theorem run_ok (h : Provides σ s rest) {calls : List Call} (hcalls : ∀ c ∈ calls, c.WellFormed) :
    ∀ r ∈ (Callable.run s calls).1, ∃ a, r = .ok a := by
  rw [(h.run calls).1]
  exact Service.run_ok hcalls rest

end Provides

end

/-! ### Matches -/

namespace Match

variable {n : Nat} {μ : Meaning} {σ : Service} {rest : List DocId}

/-- The service of a match that serves its ids as they stand. -/
def service (μ : Meaning) : Service where
  ids := μ.ids
  score := μ.score

theorem plain_refines {tree : Tree n} (h : Matcher.Serves μ tree rest) (c : Call) :
    Refines (service μ) (fun m rest => ∃ tree, m = plain tree ∧ Matcher.Serves μ tree rest)
      (plain tree) rest c := by
  have ha := Matcher.serves_upholds.answers h
  cases c with
  | fill size =>
    obtain ⟨tree', hf, hs'⟩ := Matcher.serves_exact h size
    have hfill : (plain tree).fill size = (.ok (rest.take size), plain tree') := by
      show ((IdSource.fill tree size).1, plain (IdSource.fill tree size).2) = _
      rw [hf]
    exact refines_fill hfill ⟨tree', rfl, hs'⟩
  | evaluate d =>
    have hevaluate : (plain tree).evaluate d = (.ok (decide (d ∈ μ.ids)), plain tree) :=
      congrArg (·, plain tree) (ha.evaluate d)
    exact refines_evaluate hevaluate ⟨tree, rfl, h⟩
  | score ids buffer =>
    exact refines_score (ha.score ids buffer)
      ⟨_, rfl, Matcher.serves_upholds.scored ids buffer h⟩
  | reset => exact ⟨rfl, _, rfl, Matcher.serves_upholds.reset h⟩

theorem provides_plain {tree : Tree n} (h : Matcher.Serves μ tree rest) :
    Provides (service μ) (plain tree) rest := by
  refine ⟨fun m rest => ∃ tree, m = plain tree ∧ Matcher.Serves μ tree rest, ?_, tree, rfl, h⟩
  rintro m rest c ⟨tree, rfl, hs⟩
  exact plain_refines hs c

theorem call_ordered (stage : OrderBy (Tree n)) (c : Call) :
    Callable.call (ordered stage) c =
      ((Callable.call stage c).1, ordered (Callable.call stage c).2) := by
  cases c <;> rfl

theorem provides_ordered {stage : OrderBy (Tree n)} (h : Provides σ stage rest) :
    Provides σ (ordered stage) rest := by
  refine ⟨fun m rest => ∃ stage, m = ordered stage ∧ Provides σ stage rest, ?_, stage, rfl, h⟩
  rintro m rest c ⟨stage, rfl, hs⟩
  obtain ⟨hanswer, hstate⟩ := hs.step c
  rw [Refines, call_ordered]
  exact ⟨hanswer, _, rfl, hstate⟩

end Match

end Concordance
