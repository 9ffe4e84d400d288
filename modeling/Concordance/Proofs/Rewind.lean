import Mathlib.Data.List.Basic
import Concordance.Match.Boolean
import Concordance.Match.MultiTerm

/-!
# Rewinding

Once a match is reset, nothing tells what it was asked before, also when a call has failed. Only
what scoring has left in its buffers is still there, which shows in no answer. So a match rewinds
up to a map that empties its buffers: `Matcher.Rewinds`.
-/

namespace Concordance

namespace Matcher

variable {M : Type} [Matcher M] {blank : M → M} {m : M}

/-- What `blank` takes from a match shows in no call, and of what calls have done nothing else is
left when the match is reset. -/
structure RewindsAt (blank : M → M) (m : M) : Prop where
  fill (n : Nat) :
    IdSource.fill (blank m) n = ((IdSource.fill m n).1, blank (IdSource.fill m n).2)
  reset : IdSource.reset (blank m) = blank (IdSource.reset m)
  evaluate (d : DocId) : Matcher.evaluate (blank m) d = Matcher.evaluate m d
  isScored : Matcher.isScored (blank m) = Matcher.isScored m
  cost : Matcher.cost (blank m) = Matcher.cost m
  score {m' : M} (ids : List DocId) {buffer buffer' : Array Float32} :
    blank m = blank m' → buffer.size = buffer'.size →
    (Matcher.score m ids buffer).1 = (Matcher.score m' ids buffer').1 ∧
      blank (Matcher.score m ids buffer).2 = blank (Matcher.score m' ids buffer').2
  size {ids : List DocId} {buffer scores : Array Float32} :
    (Matcher.score m ids buffer).1 = .ok scores → scores.size ≤ buffer.size
  filled (n : Nat) : blank (IdSource.reset (IdSource.fill m n).2) = blank (IdSource.reset m)
  scored (ids : List DocId) (buffer : Array Float32) :
    blank (IdSource.reset (Matcher.score m ids buffer).2) = blank (IdSource.reset m)
  rewound : blank (IdSource.reset (IdSource.reset m)) = blank (IdSource.reset m)

def Rewinds (blank : M → M) : Prop := ∀ m : M, RewindsAt blank m

/-! ### Matches without buffers -/

theorem rewindsAt_id (hfill : ∀ n, IdSource.reset (IdSource.fill m n).2 = IdSource.reset m)
    (hreset : IdSource.reset (IdSource.reset m) = IdSource.reset m)
    (hkeep : ∀ ids buffer, (Matcher.score m ids buffer).2 = m)
    (hscore : ∀ ids (buffer buffer' : Array Float32), buffer.size = buffer'.size →
      (Matcher.score m ids buffer).1 = (Matcher.score m ids buffer').1)
    (hsize : ∀ ids buffer scores, (Matcher.score m ids buffer).1 = .ok scores →
      scores.size ≤ buffer.size) : RewindsAt id m where
  fill _ := rfl
  reset := rfl
  evaluate _ := rfl
  isScored := rfl
  cost := rfl
  score {m'} ids {buffer buffer'} hm hb := by
    obtain rfl : m = m' := hm
    refine ⟨hscore ids buffer buffer' hb, ?_⟩
    rw [hkeep, hkeep]
  size := hsize _ _ _
  filled := hfill
  scored ids buffer := by rw [hkeep]
  rewound := hreset

theorem neutralScores_congr (ids : List DocId) {buffer buffer' : Array Float32}
    (h : buffer.size = buffer'.size) : neutralScores ids buffer = neutralScores ids buffer' := by
  rw [neutralScores, neutralScores, checkSlots, checkSlots, h]

theorem size_neutralScores {ids : List DocId} {buffer scores : Array Float32}
    (h : neutralScores ids buffer = .ok scores) : scores.size = buffer.size := by
  unfold neutralScores at h
  cases hslots : checkSlots ids buffer with
  | error e =>
    rw [hslots] at h
    cases h
  | ok _ =>
    rw [hslots] at h
    rw [← Except.ok.inj h, Array.size_replicate]

end Matcher

theorem NoMatch.rewinds : Matcher.Rewinds (id : NoMatch → NoMatch) := fun _ =>
  Matcher.rewindsAt_id (fun _ => rfl) rfl (fun _ _ => rfl)
    (fun ids _ _ => Matcher.neutralScores_congr ids)
    (fun _ _ _ h => Nat.le_of_eq (Matcher.size_neutralScores h))

theorem AllMatch.rewinds : Matcher.Rewinds (id : AllMatch → AllMatch) := fun _ =>
  Matcher.rewindsAt_id (fun _ => rfl) rfl (fun _ _ => rfl)
    (fun ids _ _ => Matcher.neutralScores_congr ids)
    (fun _ _ _ h => Nat.le_of_eq (Matcher.size_neutralScores h))

namespace PostingCursor

theorem reset_next (c : PostingCursor) : c.next.2.reset = c.reset := by
  unfold next
  split
  · split
    · rfl
    · split <;> rfl
  · split <;> rfl

theorem reset_fill (c : PostingCursor) (n : Nat) : (c.fill n).2.reset = c.reset := by
  induction n generalizing c with
  | zero => rfl
  | succ n ih =>
    have hnext := c.reset_next
    unfold fill
    split
    · rename_i e c' hn
      rw [hn] at hnext
      exact hnext
    · rename_i c' hn
      rw [hn] at hnext
      exact hnext
    · rename_i d c' hn
      rw [hn] at hnext
      have hfill := (ih c').trans hnext
      split <;>
      · rename_i hf
        rw [hf] at hfill
        exact hfill

end PostingCursor

namespace TermMatch

theorem reset_fill (m : TermMatch) (n : Nat) :
    IdSource.reset (IdSource.fill m n).2 = IdSource.reset m := by
  obtain ⟨field, term, postings⟩ := m
  cases postings with
  | none => rfl
  | some cursor =>
    exact congrArg (fun c => (⟨field, term, some c⟩ : TermMatch)) (cursor.reset_fill n)

theorem reset_reset (m : TermMatch) :
    IdSource.reset (IdSource.reset m) = IdSource.reset m := by
  obtain ⟨field, term, postings⟩ := m
  cases postings <;> rfl

theorem rewinds : Matcher.Rewinds (id : TermMatch → TermMatch) := fun m =>
  Matcher.rewindsAt_id m.reset_fill m.reset_reset (fun _ _ => rfl)
    (fun ids _ _ => Matcher.neutralScores_congr ids)
    (fun _ _ _ h => Nat.le_of_eq (Matcher.size_neutralScores h))

end TermMatch

/-! ### Filtering a source -/

namespace IdSource

variable {S : Type} [IdSource S]

theorem fillKept_keeps {β : Type} {f : S → β} (hf : ∀ s n, f (fill s n).2 = f s)
    (keep : DocId → Except Failure Bool) (n : Nat) (s : S) : f (fillKept keep n s).2 = f s := by
  fun_induction fillKept keep n s with
  | case1 => rfl
  | case2 n s hn e s₁ h | case3 n s hn s₁ h | case4 n s hn d ids s₁ h =>
    rw [← hf s n, h]
  | case5 n s hn d ids s₁ h kept hk more s₂ hr ih | case6 n s hn d ids s₁ h kept hk e s₂ hr ih =>
    rw [hr] at ih
    rw [ih, ← hf s n, h]

theorem fillKept_eq (keep : DocId → Except Failure Bool) {n : Nat} (hn : n ≠ 0) (s : S) :
    fillKept keep n s =
      match fill s n with
      | (.error e, s') => (.error e, s')
      | (.ok [], s') => (.ok [], s')
      | (.ok (d :: ids), s') =>
          match filterIds keep (d :: ids) with
          | .error e => (.error e, s')
          | .ok kept =>
              match fillKept keep (n - kept.length) s' with
              | (.ok more, s'') => (.ok (kept ++ more), s'')
              | (.error e, s'') => (.error e, s'') := by
  rw [fillKept, if_neg hn]
  generalize fill s n = filled
  obtain ⟨e | _ | ⟨d, ids⟩, s'⟩ := filled <;> rfl

/-- Filtering a source commutes with what filling it commutes with. -/
theorem fillKept_map {g : S → S} (hg : ∀ s n, fill (g s) n = ((fill s n).1, g (fill s n).2))
    (keep : DocId → Except Failure Bool) (n : Nat) (s : S) :
    fillKept keep n (g s) = ((fillKept keep n s).1, g (fillKept keep n s).2) := by
  fun_induction fillKept keep n s with
  | case1 s => rw [fillKept, if_pos rfl]
  | case2 n s hn e s₁ h | case3 n s hn s₁ h => rw [fillKept_eq keep hn, hg, h]
  | case4 n s hn d ids s₁ h e hk =>
    rw [fillKept_eq keep hn, hg, h]
    dsimp only
    rw [hk]
  | case5 n s hn d ids s₁ h kept hk more s₂ hr ih | case6 n s hn d ids s₁ h kept hk e s₂ hr ih =>
    rw [hr] at ih
    rw [fillKept_eq keep hn, hg, h]
    dsimp only
    rw [hk]
    dsimp only
    rw [ih]

end IdSource

/-! ### Lists of children -/

namespace Matcher

variable {M : Type} [Matcher M] {blank : M → M}

theorem evaluateAll_map (h : Rewinds blank) (d : DocId) (ms : List M) :
    evaluateAll d (ms.map blank) = evaluateAll d ms := by
  induction ms with
  | nil => rfl
  | cons m ms ih => rw [List.map_cons, evaluateAll, evaluateAll, (h m).evaluate, ih]

theorem evaluateAny_map (h : Rewinds blank) (d : DocId) (ms : List M) :
    evaluateAny d (ms.map blank) = evaluateAny d ms := by
  induction ms with
  | nil => rfl
  | cons m ms ih => rw [List.map_cons, evaluateAny, evaluateAny, (h m).evaluate, ih]

theorem any_isScored_map (h : Rewinds blank) (ms : List M) :
    (ms.map blank).any isScored = ms.any isScored := by
  induction ms with
  | nil => rfl
  | cons m ms ih => rw [List.map_cons, List.any_cons, List.any_cons, (h m).isScored, ih]

theorem map_rewound (h : Rewinds blank) (ms : List M) :
    (ms.map IdSource.reset).map (blank ∘ IdSource.reset) = ms.map (blank ∘ IdSource.reset) := by
  rw [List.map_map]
  exact List.map_congr_left fun m _ => (h m).rewound

theorem reset_map (h : Rewinds blank) (ms : List M) :
    (ms.map blank).map IdSource.reset = (ms.map IdSource.reset).map blank := by
  rw [List.map_map, List.map_map]
  exact List.map_congr_left fun m _ => (h m).reset

end Matcher

/-! ### Unions -/

/-- Changing an element does not show in what the change keeps of it. -/
theorem map_modify {f : α → β} {g : α → α} (h : ∀ a, f (g a) = f a) (xs : List α) (i : Nat) :
    (xs.modify i g).map f = xs.map f := by
  apply List.ext_getElem?
  intro j
  rw [List.getElem?_map, List.getElem?_map, List.getElem?_modify]
  cases xs[j]? with
  | none => rfl
  | some a => split <;> simp [h]

namespace Lookahead

variable {M : Type} [IdSource M] {g : M → M}

def map (g : M → M) (l : Lookahead M) : Lookahead M := { l with matcher := g l.matcher }

theorem load_map
    (hg : ∀ m n, IdSource.fill (g m) n = ((IdSource.fill m n).1, g (IdSource.fill m n).2))
    (batch : Nat) (l : Lookahead M) : (l.map g).load batch = (l.load batch).map g := by
  obtain ⟨m, window, exhausted, failure⟩ := l
  cases window with
  | cons d window => rfl
  | nil =>
    cases exhausted with
    | true => rfl
    | false =>
      simp only [map, load, hg]
      rcases IdSource.fill m batch with ⟨result, m'⟩
      cases result <;> rfl

theorem matcher_load {β : Type} {f : M → β} (hf : ∀ m n, f (IdSource.fill m n).2 = f m)
    (batch : Nat) (l : Lookahead M) : f (l.load batch).matcher = f l.matcher := by
  obtain ⟨m, window, exhausted, failure⟩ := l
  cases window with
  | cons d window => rfl
  | nil =>
    cases exhausted with
    | true => rfl
    | false =>
      have h := hf m batch
      simp only [load]
      generalize IdSource.fill m batch = filled at h ⊢
      obtain ⟨result, m'⟩ := filled
      cases result <;> exact h

end Lookahead

namespace Union

variable {M : Type} [IdSource M]

section

variable {β : Type} {f : M → β} (hf : ∀ m n, f (IdSource.fill m n).2 = f m)

include hf

theorem matchers_primeFrom (batch i : Nat) (queue : Heap QueueEntry) (ls : List (Lookahead M)) :
    (primeFrom batch i queue ls).2.1.map (fun l => f l.matcher) = ls.map fun l => f l.matcher := by
  induction ls generalizing i queue with
  | nil => rfl
  | cons l ls ih =>
    have hl := Lookahead.matcher_load hf batch l
    unfold primeFrom
    dsimp only
    split
    · rw [List.map_cons, List.map_cons, hl]
    · rw [List.map_cons, List.map_cons, hl, ih]

theorem matchers_pop (u : Union M) (i : Nat) (queue : Heap QueueEntry) :
    (u.pop i queue).2.matchers.map f = u.matchers.map f := by
  obtain ⟨children, batch, entries, primed⟩ := u
  have hchildren :
      ((children.modify i fun l => l.advance.load batch).toList.map (·.matcher)).map f =
        (children.toList.map (·.matcher)).map f := by
    rw [Array.toList_modify, List.map_map, List.map_map]
    apply map_modify
    intro l
    exact Lookahead.matcher_load hf batch l.advance
  unfold pop matchers
  dsimp only
  split <;> exact hchildren

/-- What no batch changes of a child, no batch changes of the children of a union. -/
theorem matchers_fill (n : Nat) (u : Union M) :
    (u.fill n).2.matchers.map f = u.matchers.map f := by
  apply fill_keeps (f := fun u : Union M => u.matchers.map f) (matchers_pop hf)
  intro u
  show ((primeFrom u.batch 0 u.queue u.children.toList).2.1.map (·.matcher)).map f = _
  rw [List.map_map, matchers, List.map_map]
  exact matchers_primeFrom hf u.batch 0 u.queue u.children.toList

end

theorem skip_empty {d : DocId} {u : Union M} (hq : u.queue = .empty) :
    u.skip d = (.ok (), u) := by
  rw [skip]
  split
  · rfl
  · rename_i h
    rw [hq] at h
    cases h

theorem skip_node {d first : DocId} {i : Nat} {left right : Heap QueueEntry} {u : Union M}
    (hq : u.queue = .node (first, i) left right) :
    u.skip d =
      if first = d then
        match u.pop i (left.merge QueueEntry.before right) with
        | (.error e, u') => (.error e, u')
        | (.ok (), u') => u'.skip d
      else (.ok (), u) := by
  rw [skip]
  split
  · rename_i h
    rw [hq] at h
    cases h
  · rename_i h
    rw [hq] at h
    cases h
    split
    · split <;>
      · rename_i hp
        rw [hp]
    · rfl

def map (g : M → M) (u : Union M) : Union M := { u with children := u.children.map (·.map g) }

section

variable {g : M → M}
  (hg : ∀ m n, IdSource.fill (g m) n = ((IdSource.fill m n).1, g (IdSource.fill m n).2))

include hg

theorem primeFrom_map (batch i : Nat) (queue : Heap QueueEntry) (ls : List (Lookahead M)) :
    primeFrom batch i queue (ls.map (·.map g)) =
      ((primeFrom batch i queue ls).1, (primeFrom batch i queue ls).2.1.map (·.map g),
        (primeFrom batch i queue ls).2.2) := by
  induction ls generalizing i queue with
  | nil => rfl
  | cons l ls ih =>
    have hhead : ((l.load batch).map g).head = (l.load batch).head := rfl
    rw [List.map_cons, primeFrom, primeFrom, Lookahead.load_map hg, hhead]
    cases (l.load batch).head with
    | error e => rfl
    | ok first => simp only [ih, List.map_cons]

theorem pop_map (u : Union M) (i : Nat) (queue : Heap QueueEntry) :
    (u.map g).pop i queue = ((u.pop i queue).1, (u.pop i queue).2.map g) := by
  obtain ⟨children, batch, entries, primed⟩ := u
  -- `Array.modify` has no lemma for mapped arrays, so the children are compared place by place.
  have hchildren : (children.map (·.map g)).modify i (fun l => l.advance.load batch) =
      (children.modify i fun l => l.advance.load batch).map (·.map g) := by
    apply Array.ext_getElem?
    intro j
    rw [Array.getElem?_modify, Array.getElem?_map, Array.getElem?_map, Array.getElem?_modify]
    cases children[j]? with
    | none => split <;> rfl
    | some l =>
      split
      · exact congrArg some (Lookahead.load_map hg batch l.advance)
      · rfl
  have hhead : ∀ l : Lookahead M, (l.map g).head = l.head := fun _ => rfl
  simp only [map, pop, hchildren, Array.getElem?_map, Option.map_map, Function.comp_def, hhead]
  generalize (children.modify i fun l => l.advance.load batch)[i]? = child
  cases child with
  | none => rfl
  | some l =>
    simp only [Option.map_some]
    rcases l.head with e | _ | d <;> rfl

theorem skip_map (d : DocId) (u : Union M) :
    (u.map g).skip d = ((u.skip d).1, (u.skip d).2.map g) := by
  fun_induction skip d u with
  | case1 u hq => rw [skip_empty (u := u.map g) hq]
  | case2 u i left right e u₁ hp hq => rw [skip_node (u := u.map g) hq, if_pos rfl, pop_map hg, hp]
  | case3 u i left right u₁ hp hq ih =>
    rw [skip_node (u := u.map g) hq, if_pos rfl, pop_map hg, hp]
    exact ih
  | case4 u first i left right hq hne => rw [skip_node (u := u.map g) hq, if_neg hne]

theorem serve_map (n : Nat) (u : Union M) :
    (u.map g).serve n = ((u.serve n).1, (u.serve n).2.map g) := by
  induction n generalizing u with
  | zero => rfl
  | succ n ih =>
    have hqueue : (u.map g).queue = u.queue := rfl
    rw [serve, serve, hqueue]
    cases u.queue with
    | empty => rfl
    | node entry left right =>
      dsimp only
      rw [skip_map hg]
      rcases u.skip entry.1 with ⟨result, u₁⟩
      cases result with
      | error e => rfl
      | ok _ =>
        dsimp only
        rw [ih]
        rcases u₁.serve n with ⟨result, u₂⟩
        cases result <;> rfl

theorem fill_map (n : Nat) (u : Union M) :
    (u.map g).fill n = ((u.fill n).1, (u.fill n).2.map g) := by
  have hprime : (u.map g).prime = (u.prime.1, u.prime.2.map g) := by
    have hchildren : (u.map g).children.toList = u.children.toList.map (·.map g) :=
      Array.toList_map
    have hqueue : (u.map g).queue = u.queue := rfl
    have hbatch : (u.map g).batch = u.batch := rfl
    simp only [prime, hchildren, hqueue, hbatch, primeFrom_map hg]
    simp only [map, List.map_toArray]
  have hprimed : (u.map g).primed = u.primed := rfl
  rw [fill, fill, hprimed, hprime, serve_map hg]
  split
  · rfl
  · rcases u.prime with ⟨result, u₁⟩
    cases result with
    | error e => rfl
    | ok _ => exact serve_map hg n u₁

end

theorem batch_fill (n : Nat) (u : Union M) : (u.fill n).2.batch = u.batch := by
  apply fill_keeps
  · intro u i queue
    obtain ⟨children, batch, entries, primed⟩ := u
    unfold pop
    dsimp only
    split <;> rfl
  · exact fun _ => rfl

omit [IdSource M] in
theorem matchers_map (g : M → M) (u : Union M) : (u.map g).matchers = u.matchers.map g := by
  rw [matchers, map, Array.toList_map, List.map_map, matchers, List.map_map]
  rfl

omit [IdSource M] in
theorem matchers_withMatchers {u : Union M} {ms : List M} (h : ms.length = u.matchers.length) :
    (u.withMatchers ms).matchers = ms := by
  rw [matchers, List.length_map] at h
  have hsnd : u.children.toList.zipWith (fun _ m => m) ms =
      (u.children.toList.zip ms).map (·.2) := by
    rw [List.zip, List.map_zipWith]
  rw [matchers, withMatchers, List.map_zipWith]
  exact hsnd.trans (List.map_snd_zip (Nat.le_of_eq h))

omit [IdSource M] in
theorem map_withMatchers (g : M → M) (u : Union M) (ms : List M) :
    (u.withMatchers ms).map g = (u.map g).withMatchers (ms.map g) := by
  simp only [map, withMatchers, List.map_toArray, Array.toList_map, List.map_zipWith,
    List.zipWith_map]
  rfl

theorem map_reset {g : M → M} (hg : ∀ m, IdSource.reset (g m) = g (IdSource.reset m))
    (u : Union M) : (u.map g).reset = u.reset.map g := by
  simp only [map, reset, Array.map_map, Function.comp_def, Lookahead.map, Lookahead.reset, hg]

/-- A union that is reset is told from its matches and the size of its batches. -/
theorem reset_eq (u : Union M) :
    u.reset =
      { children := ((u.matchers.map IdSource.reset).map fun m => { matcher := m }).toArray
        batch := u.batch } := by
  obtain ⟨children, batch, queue, primed⟩ := u
  simp only [reset, matchers, List.map_map, Function.comp_def, Lookahead.reset]
  rw [← Array.toList_map, Array.toArray_toList]

theorem matchers_reset (u : Union M) :
    u.reset.matchers = u.matchers.map IdSource.reset := by
  rw [matchers, reset, Array.toList_map, List.map_map, matchers, List.map_map]
  rfl

/-- Unions of as large batches that have the same once their matches are reset. -/
theorem map_reset_congr {g : M → M} {u v : Union M}
    (hm : u.matchers.map (g ∘ IdSource.reset) = v.matchers.map (g ∘ IdSource.reset))
    (hb : u.batch = v.batch) : u.reset.map g = v.reset.map g := by
  have hmap : ∀ u : Union M, u.reset.map g =
      { children := ((u.matchers.map (g ∘ IdSource.reset)).map fun m => { matcher := m }).toArray
        batch := u.batch } := by
    intro u
    rw [reset_eq]
    simp only [map, List.map_toArray, List.map_map, Function.comp_def, Lookahead.map]
  rw [hmap, hmap, hm, hb]

end Union

end Concordance
