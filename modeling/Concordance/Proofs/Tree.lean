import Concordance.Match.Tree
import Concordance.Proofs.Leaves
import Concordance.Proofs.MultiTerm

/-!
# Match trees

A tree serves what the match at its root serves.
-/

namespace Concordance

open Matcher (Serves)

/-- A way to put a match under a constructor that hands every call on to it. -/
structure Matcher.Embeds {S T : Type} [Matcher S] [Matcher T] (g : S → T) : Prop where
  fill (s : S) (n : Nat) :
    IdSource.fill (g s) n = ((IdSource.fill s n).1, g (IdSource.fill s n).2)
  reset (s : S) : IdSource.reset (g s) = g (IdSource.reset s)
  evaluate (s : S) (d : DocId) : Matcher.evaluate (g s) d = Matcher.evaluate s d
  score (s : S) (ids : List DocId) (buffer : Array Float32) :
    Matcher.score (g s) ids buffer =
      ((Matcher.score s ids buffer).1, g (Matcher.score s ids buffer).2)
  isScored (s : S) : Matcher.isScored (g s) = Matcher.isScored s
  cost (s : S) : Matcher.cost (g s) = Matcher.cost s

theorem Matcher.Embeds.serves {S T : Type} [Matcher S] [Matcher T] {g : S → T} (hg : Embeds g)
    {μ : Meaning} {s : S} {rest : List DocId} (h : Serves μ s rest) : Serves μ (g s) rest := by
  refine serves_of_exact (R := fun t rest => ∃ s, t = g s ∧ Serves μ s rest) ?_ ?_ ?_ ?_ ⟨s, rfl, h⟩
  · rintro _ rest ⟨s, rfl, hs⟩ n
    obtain ⟨s', hf, hs'⟩ := serves_exact hs n
    exact ⟨g s', by rw [hg.fill, hf], s', rfl, hs'⟩
  · rintro _ rest ⟨s, rfl, hs⟩
    exact ⟨IdSource.reset s, hg.reset s, serves_upholds.reset hs⟩
  · rintro _ rest ids buffer ⟨s, rfl, hs⟩
    exact ⟨(Matcher.score s ids buffer).2, congrArg Prod.snd (hg.score s ids buffer),
      serves_upholds.scored ids buffer hs⟩
  · rintro _ rest ⟨s, rfl, hs⟩
    have ha := serves_upholds.answers hs
    exact ⟨fun d => (hg.evaluate s d).trans (ha.evaluate d),
      fun ids buffer => (congrArg Prod.fst (hg.score s ids buffer)).trans (ha.score ids buffer),
      (hg.isScored s).trans ha.isScored, (hg.cost s).trans ha.cost⟩

namespace Node

open Matcher (Embeds)

variable {M : Type} [Matcher M]

theorem embeds_none : Embeds (Node.none : NoMatch → Node M) :=
  ⟨fun _ _ => rfl, fun _ => rfl, fun _ _ => rfl, fun _ _ _ => rfl, fun _ => rfl, fun _ => rfl⟩

theorem embeds_and : Embeds (Node.and : AndMatch M → Node M) :=
  ⟨fun _ _ => rfl, fun _ => rfl, fun _ _ => rfl, fun _ _ _ => rfl, fun _ => rfl, fun _ => rfl⟩

theorem embeds_or : Embeds (Node.or : OrMatch M → Node M) :=
  ⟨fun _ _ => rfl, fun _ => rfl, fun _ _ => rfl, fun _ _ _ => rfl, fun _ => rfl, fun _ => rfl⟩

theorem embeds_andNot : Embeds (Node.andNot : AndNotMatch M → Node M) :=
  ⟨fun _ _ => rfl, fun _ => rfl, fun _ _ => rfl, fun _ _ _ => rfl, fun _ => rfl, fun _ => rfl⟩

theorem embeds_boost : Embeds (Node.boost : BoostMatch M → Node M) :=
  ⟨fun _ _ => rfl, fun _ => rfl, fun _ _ => rfl, fun _ _ _ => rfl, fun _ => rfl, fun _ => rfl⟩

theorem embeds_all : Embeds (Node.all : AllMatch → Node M) :=
  ⟨fun _ _ => rfl, fun _ => rfl, fun _ _ => rfl, fun _ _ _ => rfl, fun _ => rfl, fun _ => rfl⟩

theorem embeds_term : Embeds (Node.term : TermMatch → Node M) :=
  ⟨fun _ _ => rfl, fun _ => rfl, fun _ _ => rfl, fun _ _ _ => rfl, fun _ => rfl, fun _ => rfl⟩

theorem embeds_multiTerm : Embeds (Node.multiTerm : MultiTermMatch → Node M) :=
  ⟨fun _ _ => rfl, fun _ => rfl, fun _ _ => rfl, fun _ _ _ => rfl, fun _ => rfl, fun _ => rfl⟩

end Node

namespace Tree

open Matcher (Embeds)

/-- A root without children stands in trees of every height. -/
theorem embeds_ofNode {S : Type} [Matcher S] {g : (M : Type) → S → Node M}
    (hg : ∀ (M : Type) [Matcher M], Embeds (g M)) (n : Nat) :
    Embeds fun s => (ofNode (g (Child n) s) : Tree n) := by
  cases n with
  | zero => exact hg Empty
  | succ n => exact hg (Tree n)

variable (n : Nat)

theorem embeds_all : Embeds fun m => (ofNode (.all m) : Tree n) :=
  embeds_ofNode (fun _ _ => Node.embeds_all) n

theorem embeds_term : Embeds fun m => (ofNode (.term m) : Tree n) :=
  embeds_ofNode (fun _ _ => Node.embeds_term) n

theorem embeds_multiTerm : Embeds fun m => (ofNode (.multiTerm m) : Tree n) :=
  embeds_ofNode (fun _ _ => Node.embeds_multiTerm) n

end Tree

end Concordance
