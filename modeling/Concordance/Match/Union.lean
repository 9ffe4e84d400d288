import Concordance.Heap
import Concordance.Match.Basic

/-!
# Unions

An ascending merge of several sources in which an id is served once. Each child is read ahead a
batch at a time, and a queue ordered by id and child holds the first unserved id of every child
that has one.

After a failure the union goes on with what is left: a child whose refill failed stays out of the
queue until the union is reset.
-/

namespace Concordance

/-- A child and the ids read from it but not yet served. -/
structure Lookahead (M : Type) where
  matcher : M
  window : List DocId := []
  exhausted : Bool := false
  /-- What the last reading failed with. -/
  failure : Option Failure := none

namespace Lookahead

variable {M : Type} [IdSource M]

/-- Reads from the child when the window is empty and there may be more. -/
def load (batch : Nat) : Lookahead M → Lookahead M
  | ⟨m, [], false, _⟩ =>
      match IdSource.fill m batch with
      | (.error e, m) => ⟨m, [], false, some e⟩
      | (.ok ids, m) => ⟨m, ids, ids.isEmpty, none⟩
  | ⟨m, window, exhausted, _⟩ => ⟨m, window, exhausted, none⟩

def head (l : Lookahead M) : Except Failure (Option DocId) :=
  match l.failure with
  | some e => .error e
  | none => .ok l.window.head?

def advance (l : Lookahead M) : Lookahead M := { l with window := l.window.tail }

def reset (l : Lookahead M) : Lookahead M := { matcher := IdSource.reset l.matcher }

/-- A bound that counts an id in the window once and an id still in the child twice, so that
reading ahead lowers it too. -/
def weight (l : Lookahead M) : Nat := 2 * IdSource.left l.matcher + l.window.length

theorem weight_load {batch : Nat} {l : Lookahead M} {first : Option DocId}
    (h : (l.load batch).head = .ok first) :
    (l.load batch).weight ≤ l.weight ∧
      (l.window = [] → first.isSome → (l.load batch).weight < l.weight) := by
  obtain ⟨m, window, exhausted, failure⟩ := l
  cases window with
  | cons d ids => exact ⟨Nat.le_refl _, fun e => by simp at e⟩
  | nil =>
    cases exhausted with
    | true =>
      obtain rfl : none = first := by simpa [load, head] using h
      exact ⟨Nat.le_refl _, fun _ e => by simp at e⟩
    | false =>
      simp only [load] at h ⊢
      generalize hf : IdSource.fill m batch = r at h ⊢
      obtain ⟨result, m'⟩ := r
      cases result with
      | error e => simp [head] at h
      | ok ids =>
        have hl := IdSource.left_fill hf
        obtain rfl : ids.head? = first := by simpa [head] using h
        simp only [weight, List.length_nil]
        refine ⟨by omega, fun _ e => ?_⟩
        cases ids with
        | nil => simp at e
        | cons d ids =>
          simp only [List.length_cons] at hl ⊢
          omega

omit [IdSource M] in
theorem window_advance (l : Lookahead M) : l.advance.window = l.window.tail := rfl

theorem weight_advance_le (l : Lookahead M) : l.advance.weight ≤ l.weight := by
  simp only [weight, advance, List.length_tail]
  omega

/-- Taking the head of a child and reading the next one uses the child up. -/
theorem weight_advance_load {batch : Nat} {l : Lookahead M} {d : DocId}
    (h : (l.advance.load batch).head = .ok (some d)) :
    (l.advance.load batch).weight + 1 ≤ l.weight := by
  have ⟨h1, h2⟩ := weight_load h
  cases hw : l.window with
  | nil =>
    have h3 := h2 (by rw [window_advance, hw]; rfl) rfl
    have h4 := weight_advance_le l
    omega
  | cons x rest =>
    have h3 : l.advance.weight + 1 = l.weight := by simp [weight, advance, hw]; omega
    omega

end Lookahead

def Lookahead.weights {M : Type} [IdSource M] : List (Lookahead M) → Nat
  | [] => 0
  | l :: rest => l.weight + weights rest

/-- A queue entry: an id and the position of the child it comes from. -/
abbrev QueueEntry := DocId × Nat

/-- Whether an entry comes before another: smaller ids first, then earlier children. -/
def QueueEntry.before (a b : QueueEntry) : Bool := a.1 < b.1 || (a.1 == b.1 && a.2 < b.2)

def enqueue (entry : QueueEntry) (queue : Heap QueueEntry) : Heap QueueEntry :=
  queue.insert QueueEntry.before entry

structure Union (M : Type) where
  children : Array (Lookahead M)
  batch : Nat
  queue : Heap QueueEntry := .empty
  /-- Whether every child has been asked for its first id. -/
  primed : Bool := false

namespace Union

variable {M : Type} [IdSource M]

/-- The union of some matches; a batch size of zero counts as one. -/
def ofList (matchers : List M) (batch : Nat) : Union M :=
  { children := (matchers.map fun m => { matcher := m }).toArray, batch := max batch 1 }

def matchers (u : Union M) : List M := u.children.toList.map (·.matcher)

/-- The union with other matches in the place of its own. -/
def withMatchers (u : Union M) (matchers : List M) : Union M :=
  { u with
    children := (u.children.toList.zipWith (fun l matcher => { l with matcher }) matchers).toArray }

/-- Asks the children for their first ids, the first of them being child `i`: the children and the
queue, also when one of them fails. -/
def primeFrom (batch : Nat) (i : Nat) (queue : Heap QueueEntry) :
    List (Lookahead M) → Except Failure Unit × List (Lookahead M) × Heap QueueEntry
  | [] => (.ok (), [], queue)
  | l :: rest =>
      let l := l.load batch
      match l.head with
      | .error e => (.error e, l :: rest, queue)
      | .ok first =>
          let queue := match first with
            | some d => enqueue (d, i) queue
            | none => queue
          let (result, rest, queue) := primeFrom batch (i + 1) queue rest
          (result, l :: rest, queue)

def prime (u : Union M) : Except Failure Unit × Union M :=
  let (result, children, queue) := primeFrom u.batch 0 u.queue u.children.toList
  (result, { u with children := children.toArray, queue, primed := result.isOk })

/-- Puts the next id of a child in the queue that is left when its entry is taken off. -/
def pop : Union M → (i : Nat) → (queue : Heap QueueEntry) → Except Failure Unit × Union M
  | ⟨children, batch, _, primed⟩, i, queue =>
      let children := children.modify i fun l => l.advance.load batch
      match children[i]?.map Lookahead.head with
      | some (.error e) => (.error e, ⟨children, batch, queue, primed⟩)
      | some (.ok (some d)) => (.ok (), ⟨children, batch, enqueue (d, i) queue, primed⟩)
      | _ => (.ok (), ⟨children, batch, queue, primed⟩)

def weight (u : Union M) : Nat := Lookahead.weights u.children.toList + u.queue.size

theorem weights_modify {ls : List (Lookahead M)} {i : Nat} {l : Lookahead M}
    {f : Lookahead M → Lookahead M} (h : ls[i]? = some l) :
    Lookahead.weights (ls.modify i f) + l.weight =
      Lookahead.weights ls + (f l).weight := by
  induction ls generalizing i with
  | nil => simp at h
  | cons first ls ih =>
    cases i with
    | zero =>
      obtain rfl : first = l := by simpa using h
      simp only [List.modify_zero_cons, Lookahead.weights]
      omega
    | succ i =>
      have := ih (by simpa using h : ls[i]? = some l)
      simp only [List.modify_succ_cons, Lookahead.weights]
      omega

theorem size_enqueue (entry : QueueEntry) (queue : Heap QueueEntry) :
    (enqueue entry queue).size = queue.size + 1 := Heap.size_insert _ _ _

theorem weight_pop {u u' : Union M} {i : Nat} {queue : Heap QueueEntry}
    (hq : queue.size < u.queue.size) (h : u.pop i queue = (.ok (), u')) : u'.weight < u.weight := by
  obtain ⟨children, batch, entries, primed⟩ := u
  simp only [pop, Array.getElem?_modify, if_true] at h
  cases hl : children[i]? with
  | none =>
    simp only [hl, Option.map_none, Prod.mk.injEq] at h
    rw [← Array.getElem?_toList] at hl
    rw [← h.2]
    simp only [weight, Array.toList_modify]
    rw [List.modify_eq_self (List.getElem?_eq_none_iff.mp hl)]
    exact Nat.add_lt_add_left hq _
  | some l =>
    simp only [hl, Option.map_some] at h
    rw [← Array.getElem?_toList] at hl
    have hw := weights_modify (f := fun l => l.advance.load batch) hl
    cases hh : (l.advance.load batch).head with
    | error e => simp [hh] at h
    | ok first =>
      cases first with
      | none =>
        simp only [hh, Prod.mk.injEq] at h
        rw [← h.2]
        have h1 := (Lookahead.weight_load hh).1
        have h2 := Lookahead.weight_advance_le l
        simp only [weight, Array.toList_modify] at hq ⊢
        omega
      | some d =>
        simp only [hh, Prod.mk.injEq] at h
        rw [← h.2]
        have h1 := Lookahead.weight_advance_load hh
        simp only [weight, Array.toList_modify, size_enqueue] at hq ⊢
        omega

theorem size_rest (entry : QueueEntry) (left right : Heap QueueEntry) :
    (left.merge QueueEntry.before right).size < (Heap.node entry left right).size := by
  simp only [Heap.size_merge, Heap.size]
  omega

/-- Takes every entry of id `d` off the front of the queue, each child going on to its next id. -/
def skip (d : DocId) (u : Union M) : Except Failure Unit × Union M :=
  match _hq : u.queue with
  | .empty => (.ok (), u)
  | .node (first, i) left right =>
      if first = d then
        match _h : u.pop i (left.merge QueueEntry.before right) with
        | (.error e, u') => (.error e, u')
        | (.ok (), u') => skip d u'
      else (.ok (), u)
termination_by u.weight
decreasing_by exact weight_pop (_hq ▸ size_rest _ left right) _h

/-- The next `n` ids of a primed union, fewer at the end. -/
def serve (u : Union M) : Nat → Except Failure (List DocId) × Union M
  | 0 => (.ok [], u)
  | n + 1 =>
      match u.queue with
      | .empty => (.ok [], u)
      | .node (d, _) _ _ =>
          match u.skip d with
          | (.error e, u') => (.error e, u')
          | (.ok (), u') =>
              match u'.serve n with
              | (.ok ids, u'') => (.ok (d :: ids), u'')
              | (.error e, u'') => (.error e, u'')

def fill (u : Union M) (n : Nat) : Except Failure (List DocId) × Union M :=
  if u.primed then u.serve n
  else
    match u.prime with
    | (.error e, u') => (.error e, u')
    | (.ok (), u') => u'.serve n

def reset (u : Union M) : Union M :=
  { u with children := u.children.map (·.reset), queue := .empty, primed := false }

/-! ### What serving keeps -/

section

variable {β : Type} {f : Union M → β} (hpop : ∀ u i queue, f (u.pop i queue).2 = f u)

include hpop

theorem skip_keeps (d : DocId) (u : Union M) : f (u.skip d).2 = f u := by
  fun_induction skip d u with
  | case1 | case4 => rfl
  | case2 u i left right e u₁ hp hq =>
    rw [← hpop u i, hp]
  | case3 u i left right u₁ hp hq ih =>
    rw [ih, ← hpop u i, hp]

theorem serve_keeps (n : Nat) (u : Union M) : f (u.serve n).2 = f u := by
  induction n generalizing u with
  | zero => rfl
  | succ n ih =>
    unfold serve
    split
    · rfl
    · rename_i d i left right hq
      have hskip := skip_keeps hpop d u
      split
      · rename_i e u₁ hs
        rw [← hskip, hs]
      · rename_i u₁ hs
        rw [hs] at hskip
        have hserve := (ih u₁).trans hskip
        split <;>
        · rename_i hr
          rw [hr] at hserve
          exact hserve

theorem fill_keeps (hprime : ∀ u, f (prime u).2 = f u) (n : Nat) (u : Union M) :
    f (u.fill n).2 = f u := by
  have h := hprime u
  unfold fill
  split
  · exact serve_keeps hpop n u
  · split
    · rename_i e u₁ hp
      rw [← h, hp]
    · rename_i u₁ hp
      rw [hp] at h
      exact (serve_keeps hpop n u₁).trans h

end

/-! ### The union as a source -/

/-- The weight, and one queue entry for each child while they are not in the queue yet. -/
def left (u : Union M) : Nat := u.weight + (if u.primed then 0 else u.children.size)

theorem weights_zipWith {ls : List (Lookahead M)} {ms : List M}
    (h : ms.map IdSource.left = ls.map fun l => IdSource.left l.matcher) :
    Lookahead.weights (ls.zipWith (fun l matcher => { l with matcher }) ms) =
      Lookahead.weights ls := by
  induction ls generalizing ms with
  | nil => rw [List.zipWith_nil_left]
  | cons l ls ih =>
    cases ms with
    | nil => simp at h
    | cons m ms =>
      obtain ⟨hm, hms⟩ := List.cons.inj h
      rw [List.zipWith_cons_cons, Lookahead.weights, Lookahead.weights, ih hms]
      simp only [Lookahead.weight, hm]

/-- Matches that have as much left can take the place of those of a union. -/
theorem left_withMatchers {u : Union M} {ms : List M}
    (h : ms.map IdSource.left = u.matchers.map IdSource.left) :
    (u.withMatchers ms).left = u.left := by
  have hlen : ms.length = u.children.toList.length := by
    simpa [matchers] using congrArg List.length h
  rw [matchers, List.map_map] at h
  simp only [left, weight, withMatchers, weights_zipWith h, List.size_toArray, List.length_zipWith,
    hlen, Nat.min_self, Array.length_toList]

theorem weight_skip {d : DocId} {u u' : Union M} (h : u.skip d = (.ok (), u')) :
    u'.weight ≤ u.weight ∧
      ∀ i left right, u.queue = .node (d, i) left right → u'.weight < u.weight := by
  fun_induction skip d u with
  | case1 u hq =>
    rw [← (Prod.mk.inj h).2]
    exact ⟨Nat.le_refl _, fun _ _ _ e => by simp [hq] at e⟩
  | case2 => simp at h
  | case3 u i left right u₁ hp hq ih =>
    have h1 := weight_pop (hq ▸ size_rest _ left right) hp
    have h2 := (ih h).1
    exact ⟨by omega, fun _ _ _ _ => by omega⟩
  | case4 u first i left right hq hne =>
    rw [← (Prod.mk.inj h).2]
    refine ⟨Nat.le_refl _, fun _ _ _ e => ?_⟩
    rw [hq] at e
    exact absurd (Prod.mk.inj (Heap.node.inj e).1).1 hne

theorem weight_serve {n : Nat} {u u' : Union M} {ids : List DocId}
    (h : u.serve n = (.ok ids, u')) : u'.weight + ids.length ≤ u.weight := by
  induction n generalizing u u' ids with
  | zero =>
    obtain ⟨hi, rfl⟩ := Prod.mk.inj h
    simp [← Except.ok.inj hi]
  | succ n ih =>
    unfold serve at h
    split at h
    · obtain ⟨hi, rfl⟩ := Prod.mk.inj h
      simp [← Except.ok.inj hi]
    · rename_i d i left right hq
      split at h
      · simp at h
      · rename_i u₁ hs
        split at h
        · rename_i more u₂ hr
          obtain ⟨hi, rfl⟩ := Prod.mk.inj h
          have h1 := (weight_skip hs).2 i left right hq
          have h2 := ih hr
          rw [← Except.ok.inj hi, List.length_cons]
          omega
        · simp at h

theorem primed_pop (u : Union M) (i : Nat) (queue : Heap QueueEntry) :
    (u.pop i queue).2.primed = u.primed := by
  obtain ⟨children, batch, entries, primed⟩ := u
  unfold pop
  dsimp only
  split <;> rfl

theorem primed_serve {n : Nat} {u u' : Union M} {r : Except Failure (List DocId)}
    (h : u.serve n = (r, u')) : u'.primed = u.primed := by
  rw [← serve_keeps primed_pop n u, h]

theorem weight_primeFrom {batch i : Nat} {queue queue' : Heap QueueEntry}
    {ls ls' : List (Lookahead M)} (h : primeFrom batch i queue ls = (.ok (), ls', queue')) :
    Lookahead.weights ls' + queue'.size ≤
      Lookahead.weights ls + queue.size + ls.length := by
  induction ls generalizing i queue queue' ls' with
  | nil =>
    obtain ⟨_, h⟩ := Prod.mk.inj h
    obtain ⟨rfl, rfl⟩ := Prod.mk.inj h
    simp
  | cons l ls ih =>
    unfold primeFrom at h
    dsimp only at h
    split at h
    · simp at h
    · rename_i first hh
      generalize hp : primeFrom batch (i + 1) _ ls = primed at h
      obtain ⟨r, ls₁, q₁⟩ := primed
      obtain ⟨rfl, rfl, rfl⟩ : r = .ok () ∧ l.load batch :: ls₁ = ls' ∧ q₁ = queue' := by
        simpa using h
      have h1 := ih hp
      have h2 := (Lookahead.weight_load hh).1
      simp only [Lookahead.weights, List.length_cons]
      cases first with
      | none =>
        dsimp only at h1
        omega
      | some d =>
        simp only [size_enqueue] at h1
        omega

theorem left_prime {u u' : Union M} (hp : u.primed = false) (h : u.prime = (.ok (), u')) :
    u'.weight ≤ u.left ∧ u'.primed = true := by
  unfold prime at h
  obtain ⟨hr, rfl⟩ := Prod.mk.inj h
  have := weight_primeFrom (Prod.ext hr rfl : primeFrom u.batch 0 u.queue u.children.toList = (.ok (), _))
  refine ⟨?_, by simp [hr, Except.isOk, Except.toBool]⟩
  simpa [weight, left, hp] using this

theorem left_fill {n : Nat} {u u' : Union M} {ids : List DocId} (h : u.fill n = (.ok ids, u')) :
    u'.left + ids.length ≤ u.left := by
  unfold fill at h
  split at h
  · rename_i hp
    have h1 := weight_serve h
    have h2 := primed_serve h
    simp only [left, h2, hp, if_true]
    omega
  · rename_i hp
    split at h
    · simp at h
    · rename_i u₁ hu
      have h1 := weight_serve h
      have h2 := primed_serve h
      have ⟨h3, h4⟩ := left_prime (by simpa using hp) hu
      have h5 : u'.left = u'.weight := by simp [left, h2, h4]
      omega

instance : IdSource (Union M) where
  fill := fill
  reset := reset
  left := left
  left_fill := left_fill

end Union

end Concordance
