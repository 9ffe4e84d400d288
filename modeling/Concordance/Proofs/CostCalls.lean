import Concordance.Proofs.Calls
import Concordance.Proofs.RewindTree

/-!
# Calls and costs

The cost of a match is told when the match is made: no call changes it, also no call that fails.
`Match.cost_run` says so for matches over any reader and in any state.
-/

namespace Concordance

namespace Matcher

/-- No call changes the cost of a match. -/
structure SteadyCost (M : Type) [Matcher M] : Prop where
  fill (m : M) (n : Nat) : cost (IdSource.fill m n).2 = cost m
  score (m : M) (ids : List DocId) (buffer : Array Float32) : cost (score m ids buffer).2 = cost m
  reset (m : M) : cost (IdSource.reset m) = cost m

/-- What a call leaves in a match is gone once the match is reset, so that resetting tells of all
calls whether they change the cost. -/
theorem Rewinds.steadyCost {M : Type} [Matcher M] {blank : M → M} (h : Rewinds blank)
    (hreset : ∀ m : M, cost (IdSource.reset m) = cost m) : SteadyCost M := by
  have hcost : ∀ {m m' : M}, blank (IdSource.reset m') = blank (IdSource.reset m) →
      cost m' = cost m := by
    intro m m' hm
    calc cost m' = cost (blank (IdSource.reset m')) := by rw [(h _).cost, hreset]
      _ = cost (blank (IdSource.reset m)) := by rw [hm]
      _ = cost m := by rw [(h _).cost, hreset]
  exact ⟨fun m n => hcost ((h m).filled n), fun m ids buffer => hcost ((h m).scored ids buffer),
    hreset⟩

end Matcher

open Matcher (SteadyCost)

/-! ### Trees -/

theorem TermMatch.cost_reset (m : TermMatch) : Matcher.cost (IdSource.reset m) = Matcher.cost m := by
  obtain ⟨field, term, postings⟩ := m
  cases postings <;> rfl

theorem Node.cost_reset {M : Type} [Matcher M]
    (h : ∀ m : M, Matcher.cost (IdSource.reset m) = Matcher.cost m) (node : Node M) :
    Matcher.cost (IdSource.reset node) = Matcher.cost node := by
  cases node with
  | none | all | multiTerm | or => rfl
  | term m => exact m.cost_reset
  | and m => exact h m.driver
  | andNot m => exact h m.base
  | boost m => exact h m.inner

theorem Tree.cost_reset : (n : Nat) → (tree : Tree n) →
    Matcher.cost (IdSource.reset tree) = Matcher.cost tree
  | 0 => Node.cost_reset (M := Empty) fun m => m.elim
  | n + 1 => Node.cost_reset (M := Tree n) (cost_reset n)

theorem Tree.steadyCost (n : Nat) : SteadyCost (Tree n) :=
  (Tree.rewinds n).steadyCost (Tree.cost_reset n)

/-! ### Ordering stages -/

namespace OrderBy

variable {M : Type} [Matcher M]

theorem cost_withInner {o o' : OrderBy M} (htake : o'.take = o.take)
    (hinner : Matcher.cost o'.inner = Matcher.cost o.inner) : o'.cost = o.cost := by
  unfold cost
  rw [htake, hinner]

variable (h : SteadyCost M)

include h

theorem cost_batchScores (o : OrderBy M) (m : M) (ids : List DocId) :
    Matcher.cost (o.batchScores m ids).2 = Matcher.cost m := by
  unfold batchScores
  split
  · exact h.score m ids _
  · rfl

theorem cost_drainFrom (o : OrderBy M) (seq : Nat) (entries : Array SortEntry) (m : M) :
    Matcher.cost (o.drainFrom seq entries m).2 = Matcher.cost m := by
  fun_induction o.drainFrom seq entries m with
  | case1 seq entries m e m' hf | case2 seq entries m m' hf =>
    rw [← h.fill m o.batch, hf]
  | case3 seq entries m d ids m' hf e m₂ hs | case4 seq entries m d ids m' hf scores m₂ hs e hc =>
    rw [← h.fill m o.batch, hf, ← cost_batchScores h o m' (d :: ids), hs]
  | case5 seq entries m d ids m' hf scores m₂ hs kept hc ih =>
    rw [ih, ← h.fill m o.batch, hf, ← cost_batchScores h o m' (d :: ids), hs]

theorem cost_materialize (o : OrderBy M) : o.materialize.2.cost = o.cost := by
  have hdrained := cost_drainFrom h o 0 #[] o.inner
  unfold materialize
  split
  · rfl
  · split <;>
    · rename_i hd
      rw [hd] at hdrained
      exact cost_withInner rfl hdrained

/-- Draining, serving and scoring leave the bound of a stage and the cost of its match alone. -/
theorem cost_call (o : OrderBy M) (c : Call) : (Callable.call o c).2.cost = o.cost := by
  have hmat := cost_materialize h o
  cases c with
  | fill n =>
    show (o.fill n).2.cost = o.cost
    unfold OrderBy.fill
    split <;>
    · rename_i hm
      rw [hm] at hmat
      exact hmat
  | evaluate d =>
    show (o.evaluate d).2.cost = o.cost
    unfold OrderBy.evaluate
    split
    · rfl
    · split <;>
      · rename_i hm
        rw [hm] at hmat
        exact hmat
  | score ids buffer => exact cost_withInner rfl (h.score o.inner ids buffer)
  | reset => rfl

end OrderBy

/-! ### Matches -/

namespace Match

variable {n : Nat}

theorem cost_call (m : Match n) (c : Call) : (Callable.call m c).2.cost = m.cost := by
  have h := Tree.steadyCost n
  cases m with
  | ordered stage =>
    rw [call_ordered]
    exact OrderBy.cost_call h stage c
  | plain tree =>
    cases c with
    | fill size => exact h.fill tree size
    | evaluate d => rfl
    | score ids buffer => exact h.score tree ids buffer
    | reset => exact h.reset tree

/-- The cost of a match is the same at every point of a run. -/
theorem cost_run (m : Match n) (calls : List Call) : (Callable.run m calls).2.cost = m.cost := by
  induction calls generalizing m with
  | nil => rfl
  | cons c calls ih => exact (ih _).trans (m.cost_call c)

end Match

end Concordance
