import Concordance.Proofs.Contract
import Concordance.Proofs.Heap

/-!
# Unions

A union of sources that each serve ids in order serves the ids of all of them in order, each once:
`Union.exact`. The children are read ahead, so what carries the proof is the list of ids every child
still has to give, those in its window first, and that the queue holds the head of each such list.
-/

namespace Concordance

/-! ### Children that are read ahead -/

namespace Lookahead

variable {M : Type} [IdSource M] {R : M → List DocId → Prop} {l : Lookahead M} {ids : List DocId}

/-- The ids a child still has to give are those in its window and those its matcher has. -/
def Holds (R : M → List DocId → Prop) (l : Lookahead M) (ids : List DocId) : Prop :=
  ∃ rest, R l.matcher rest ∧ ids = l.window ++ rest ∧ (l.exhausted = true → rest = [])

/-- As `Holds`, with the first id in the window if there is one. -/
def Loaded (R : M → List DocId → Prop) (l : Lookahead M) (ids : List DocId) : Prop :=
  l.Holds R ids ∧ l.window.head? = ids.head?

omit [IdSource M] in
theorem holds_ofMatcher {m : M} (h : R m ids) : Holds R { matcher := m } ids :=
  ⟨ids, h, rfl, fun he => (Bool.false_ne_true he).elim⟩

omit [IdSource M] in
theorem Holds.withMatcher (h : l.Holds R ids) {m : M} (hm : ∀ rest, R l.matcher rest → R m rest) :
    Holds R { l with matcher := m } ids := by
  obtain ⟨rest, hr, hids, he⟩ := h
  exact ⟨rest, hm rest hr, hids, he⟩

theorem load_holds (hR : IdSource.Advances R) {batch : Nat} (hb : 0 < batch)
    (h : l.Holds R ids) :
    (l.load batch).Loaded R ids ∧ (l.load batch).head = .ok ids.head? := by
  obtain ⟨m, window, exhausted, failure⟩ := l
  obtain ⟨rest, hr, rfl, he⟩ := h
  cases window with
  | cons d window => exact ⟨⟨⟨rest, hr, rfl, he⟩, rfl⟩, rfl⟩
  | nil =>
    cases exhausted with
    | true =>
      obtain rfl : rest = [] := he rfl
      exact ⟨⟨⟨[], hr, rfl, he⟩, rfl⟩, rfl⟩
    | false =>
      obtain ⟨k, m', hf, hr', hk⟩ := hR hr batch hb
      have hload : load batch ⟨m, [], false, failure⟩ =
          ⟨m', rest.take k, (rest.take k).isEmpty, none⟩ := by
        simp only [load, hf]
      have hhead : (rest.take k).head? = rest.head? := by
        by_cases hnil : rest = []
        · subst hnil; rw [List.take_nil]
        · rw [List.head?_take, if_neg (Nat.pos_iff_ne_zero.mp (hk hnil))]
      rw [hload]
      refine ⟨⟨⟨rest.drop k, hr', (List.take_append_drop k rest).symm, fun hempty => ?_⟩, hhead⟩, ?_⟩
      · by_cases hnil : rest = []
        · rw [hnil, List.drop_nil]
        · rw [List.isEmpty_iff, List.take_eq_nil_iff] at hempty
          exact (hempty.elim (Nat.pos_iff_ne_zero.mp (hk hnil)) hnil).elim
      · exact congrArg Except.ok hhead

omit [IdSource M] in
/-- A child that has no id in its window has none at all, so that there is nothing to lose. -/
theorem advance_holds (h : l.Loaded R ids) : l.advance.Holds R ids.tail := by
  obtain ⟨⟨rest, hr, rfl, he⟩, hhead⟩ := h
  cases hw : l.window with
  | cons d window => exact ⟨rest, hr, by rw [window_advance, hw]; rfl, he⟩
  | nil =>
    rw [hw, List.nil_append] at hhead
    obtain rfl : rest = [] := List.head?_eq_none_iff.mp hhead.symm
    exact ⟨[], hr, by rw [window_advance, hw]; rfl, he⟩

end Lookahead

/-! ### The queue -/

/-- The queue holds the head of each child that has one. -/
structure Queued (queue : Heap QueueEntry) (heads : Nat → Option DocId) : Prop where
  ordered : queue.Ordered QueueEntry.before
  nodup : queue.toList.Nodup
  mem_iff (d : DocId) (i : Nat) : (d, i) ∈ queue.toList ↔ heads i = some d

namespace Queued

variable {queue left right : Heap QueueEntry} {heads : Nat → Option DocId} {d : DocId} {i : Nat}

theorem empty : Queued .empty fun _ => none :=
  ⟨trivial, List.nodup_nil, fun _ _ => by simp [Heap.toList]⟩

theorem enqueue (h : Queued queue heads) (hi : heads i = none) (d : DocId) :
    Queued (enqueue (d, i) queue) (Function.update heads i (some d)) := by
  have hp := perm_enqueue (d, i) queue
  refine ⟨ordered_enqueue _ h.ordered, ?_, fun e j => ?_⟩
  · refine hp.nodup_iff.mpr (List.nodup_cons.mpr ⟨fun hm => ?_, h.nodup⟩)
    rw [h.mem_iff, hi] at hm
    simp at hm
  · rw [hp.mem_iff, List.mem_cons, h.mem_iff, Prod.mk.injEq]
    by_cases hj : j = i
    · subst hj
      rw [Function.update_self, hi]
      simp [eq_comm]
    · rw [Function.update_of_ne hj]
      simp [hj]

theorem rest (h : Queued (.node (d, i) left right) heads) :
    Queued (left.merge QueueEntry.before right) (Function.update heads i none) := by
  have hp : (left.merge QueueEntry.before right).toList.Perm (left.toList ++ right.toList) :=
    Heap.perm_merge left right
  obtain ⟨hnot, hnodup⟩ := List.nodup_cons.mp h.nodup
  have hhead : heads i = some d := (h.mem_iff d i).mp List.mem_cons_self
  refine ⟨Heap.ordered_merge QueueEntry.before_asymm QueueEntry.before_trans h.ordered.2.1
    h.ordered.2.2, hp.nodup_iff.mpr hnodup, fun e j => ?_⟩
  rw [hp.mem_iff]
  have hmem := h.mem_iff e j
  rw [Heap.toList, List.mem_cons, Prod.mk.injEq] at hmem
  by_cases hj : j = i
  · subst hj
    rw [Function.update_self]
    refine ⟨fun hm => ?_, fun hm => by simp at hm⟩
    have he := hmem.mp (Or.inr hm)
    rw [hhead] at he
    obtain rfl := Option.some.inj he
    exact (hnot hm).elim
  · rw [Function.update_of_ne hj, ← hmem]
    simp [hj]

/-- No child has a smaller head than the first one in the queue. -/
theorem first_le (h : Queued (.node (d, i) left right) heads) {e : DocId} {j : Nat}
    (he : heads j = some e) : d ≤ e :=
  h.ordered.first_le (e, j) ((h.mem_iff e j).mpr he)

theorem first (h : Queued (.node (d, i) left right) heads) : heads i = some d :=
  (h.mem_iff d i).mp List.mem_cons_self

theorem none_of_empty (h : Queued .empty heads) (i : Nat) : heads i = none := by
  cases hh : heads i with
  | none => rfl
  | some d => simpa [Heap.toList] using (h.mem_iff d i).mpr hh

end Queued

namespace Union

variable {M : Type} [IdSource M] {R : Nat → M → List DocId → Prop}

/-! ### What a union stands for -/

/-- An ascending list of the ids that some child has. -/
structure Merges (todo : Nat → List DocId) (ids : List DocId) : Prop where
  ascending : Ascending ids
  mem_iff (d : DocId) : d ∈ ids ↔ ∃ i, d ∈ todo i

/-- The ids each child still has to give, in order; positions behind the children have none. -/
structure Todo (u : Union M) (todo : Nat → List DocId) : Prop where
  batch_pos : 0 < u.batch
  sorted (i : Nat) : (todo i).Pairwise (· ≤ ·)
  outside (i : Nat) : u.children.size ≤ i → todo i = []

/-- A union with the first id of every child in its queue. -/
structure Ready (R : Nat → M → List DocId → Prop) (u : Union M) (todo : Nat → List DocId) : Prop
    extends Todo u todo where
  primed : u.primed = true
  loaded (i : Nat) (l : Lookahead M) : u.children[i]? = some l → l.Loaded (R i) (todo i)
  queued : Queued u.queue fun i => (todo i).head?

/-- A union that has not asked its children for ids. -/
structure Fresh (R : Nat → M → List DocId → Prop) (u : Union M) (todo : Nat → List DocId) : Prop
    extends Todo u todo where
  primed : u.primed = false
  queue : u.queue = .empty
  holds (i : Nat) (l : Lookahead M) : u.children[i]? = some l → l.Holds (R i) (todo i)

/-- A union of `count` children that has `rest` still to serve. -/
def Delivers (R : Nat → M → List DocId → Prop) (count : Nat) (u : Union M) (rest : List DocId) :
    Prop :=
  u.children.size = count ∧ ∃ todo, Merges todo rest ∧ (Ready R u todo ∨ Fresh R u todo)

/-! ### Taking an entry off the queue -/

omit [IdSource M] in
theorem update_head? (todo : Nat → List DocId) (i : Nat) (ids : List DocId) :
    (fun j => (Function.update todo i ids j).head?) =
      Function.update (fun j => (todo j).head?) i ids.head? := by
  funext j
  by_cases hj : j = i
  · subst hj; simp only [Function.update_self]
  · simp only [Function.update_of_ne hj]

/-- The union when child `i` has gone on to its next id and `queue` is left of the queue. -/
def popped (u : Union M) (i : Nat) (queue : Heap QueueEntry) (next : Option DocId) : Union M where
  children := u.children.modify i fun l => l.advance.load u.batch
  batch := u.batch
  queue := next.elim queue fun d => enqueue (d, i) queue
  primed := u.primed

theorem pop_eq {u : Union M} {i : Nat} {l : Lookahead M} (hl : u.children[i]? = some l)
    {next : Option DocId} (hhead : (l.advance.load u.batch).head = .ok next)
    (queue : Heap QueueEntry) : u.pop i queue = (.ok (), u.popped i queue next) := by
  obtain ⟨children, batch, _, primed⟩ := u
  have hchild : ((children.modify i fun l => l.advance.load batch)[i]?).map Lookahead.head =
      some (.ok next) := by
    rw [Array.getElem?_modify, if_pos rfl, hl, Option.map_some, Option.map_some, hhead]
  simp only [pop, popped, hchild]
  cases next <;> rfl

theorem Todo.tail {u : Union M} {todo : Nat → List DocId} (h : Todo u todo) (i : Nat)
    (queue : Heap QueueEntry) (next : Option DocId) :
    Todo (u.popped i queue next) (Function.update todo i (todo i).tail) := by
  refine ⟨h.batch_pos, ?_, ?_⟩
  · intro j
    by_cases hji : j = i
    · subst hji
      rw [Function.update_self]
      exact (h.sorted j).tail
    · rw [Function.update_of_ne hji]
      exact h.sorted j
  · intro j hj
    have hnone : todo j = [] := h.outside j (by simpa [popped] using hj)
    by_cases hji : j = i
    · subst hji
      rw [Function.update_self, hnone, List.tail_nil]
    · rw [Function.update_of_ne hji, hnone]

omit [IdSource M] in
theorem Ready.getElem_of_first {u : Union M} {todo : Nat → List DocId} (h : Ready R u todo)
    {i : Nat} {d : DocId} (hfirst : (todo i).head? = some d) : ∃ l, u.children[i]? = some l := by
  by_cases hi : i < u.children.size
  · exact ⟨u.children[i], Array.getElem?_eq_getElem hi⟩
  · rw [h.outside i (Nat.le_of_not_lt hi)] at hfirst
    cases hfirst

theorem pop_ready (hR : ∀ i, IdSource.Advances (R i)) {u : Union M} {todo : Nat → List DocId}
    {d : DocId} {i : Nat} {left right : Heap QueueEntry} (h : Ready R u todo)
    (hq : u.queue = .node (d, i) left right) :
    ∃ u', u.pop i (left.merge QueueEntry.before right) = (.ok (), u') ∧
      Ready R u' (Function.update todo i (todo i).tail) ∧ u'.children.size = u.children.size := by
  have hqueued := h.queued
  rw [hq] at hqueued
  have hrest := hqueued.rest
  obtain ⟨l, hl⟩ := h.getElem_of_first hqueued.first
  obtain ⟨hload, hhead⟩ :=
    Lookahead.load_holds (hR i) h.batch_pos (Lookahead.advance_holds (h.loaded i l hl))
  refine ⟨_, pop_eq hl hhead _, ⟨h.toTodo.tail i _ _, h.primed, ?_, ?_⟩, Array.size_modify⟩
  · intro j l' hj
    rw [popped, Array.getElem?_modify] at hj
    by_cases hji : i = j
    · subst hji
      rw [if_pos rfl, hl, Option.map_some] at hj
      rw [← Option.some.inj hj, Function.update_self]
      exact hload
    · rw [if_neg hji] at hj
      rw [Function.update_of_ne (Ne.symm hji)]
      exact h.loaded j l' hj
  · rw [update_head?, popped]
    cases ht : (todo i).tail.head? with
    | none => exact hrest
    | some e =>
      have hput := hrest.enqueue (i := i) (Function.update_self ..) e
      rwa [Function.update_idem] at hput

/-! ### Serving -/

omit [IdSource M] in
theorem Ready.le_of_mem {u : Union M} {todo : Nat → List DocId} (h : Ready R u todo) {d : DocId}
    {i j : Nat} {left right : Heap QueueEntry} (hq : u.queue = .node (d, i) left right) {e : DocId}
    (he : e ∈ todo j) : d ≤ e := by
  have hqueued := h.queued
  rw [hq] at hqueued
  have hsorted := h.sorted j
  cases ht : todo j with
  | nil => simp [ht] at he
  | cons first more =>
    have hd : d ≤ first := hqueued.first_le (j := j) (by rw [ht]; rfl)
    rw [ht] at he hsorted
    rcases List.mem_cons.mp he with rfl | he
    · exact hd
    · exact UInt64.le_trans hd ((List.pairwise_cons.mp hsorted).1 e he)

omit [IdSource M] in
theorem Ready.todo_of_empty {u : Union M} {todo : Nat → List DocId} (h : Ready R u todo)
    (hq : u.queue = .empty) (i : Nat) : todo i = [] := by
  have hqueued := h.queued
  rw [hq] at hqueued
  exact List.head?_eq_none_iff.mp (hqueued.none_of_empty i)

/-- Skipping the least id takes it from every child and leaves the other ids. -/
theorem skip_ready (hR : ∀ i, IdSource.Advances (R i)) {u : Union M} {todo : Nat → List DocId}
    {d : DocId} (h : Ready R u todo) (hd : ∀ i, ∀ e ∈ todo i, d ≤ e) :
    ∃ u' todo', u.skip d = (.ok (), u') ∧ Ready R u' todo' ∧
      u'.children.size = u.children.size ∧ ∀ i e, e ∈ todo' i ↔ e ∈ todo i ∧ e ≠ d := by
  fun_induction skip d u generalizing todo with
  | case1 u hq =>
    refine ⟨u, todo, rfl, h, rfl, fun i e => ?_⟩
    rw [h.todo_of_empty hq i]
    simp
  | case2 u i left right e u' hp hq =>
    obtain ⟨_, hok, _⟩ := pop_ready hR h hq
    rw [hp] at hok
    simp at hok
  | case3 u i left right u₁ hp hq ih =>
    obtain ⟨_, hok, h₁, hsize⟩ := pop_ready hR h hq
    rw [hp] at hok
    obtain rfl := (Prod.mk.inj hok).2
    have hfirst : (todo i).head? = some d := by
      have hqueued := h.queued
      rw [hq] at hqueued
      exact hqueued.first
    obtain ⟨more, hi⟩ : ∃ more, todo i = d :: more := List.head?_eq_some_iff.mp hfirst
    have hsub : ∀ j e, e ∈ Function.update todo i (todo i).tail j → e ∈ todo j := by
      intro j e he
      by_cases hj : j = i
      · subst hj
        rw [Function.update_self] at he
        exact List.mem_of_mem_tail he
      · rwa [Function.update_of_ne hj] at he
    obtain ⟨u', todo', hs, h', hsize', hmem⟩ := ih h₁ fun j e he => hd j e (hsub j e he)
    refine ⟨u', todo', hs, h', hsize'.trans hsize, fun j e => (hmem j e).trans ?_⟩
    constructor
    · rintro ⟨he, hne⟩
      exact ⟨hsub j e he, hne⟩
    · rintro ⟨he, hne⟩
      refine ⟨?_, hne⟩
      by_cases hj : j = i
      · subst hj
        rw [Function.update_self, hi]
        rw [hi] at he
        exact (List.mem_cons.mp he).resolve_left hne
      · rwa [Function.update_of_ne hj]
  | case4 u first i left right hq hne =>
    refine ⟨u, todo, rfl, h, rfl, fun j e => ⟨fun he => ⟨he, fun heq => ?_⟩, fun he => he.1⟩⟩
    have hqueued := h.queued
    rw [hq] at hqueued
    have hle : d ≤ first :=
      hd i first (List.mem_of_mem_head? (Option.mem_def.mpr hqueued.first))
    have hge : first ≤ d := heq ▸ h.le_of_mem hq he
    exact hne (UInt64.le_antisymm hge hle)

theorem serve_ready (hR : ∀ i, IdSource.Advances (R i)) (n : Nat) {u : Union M}
    {todo : Nat → List DocId} {ids : List DocId} (h : Ready R u todo) (hm : Merges todo ids) :
    ∃ u' todo', u.serve n = (.ok (ids.take n), u') ∧ Ready R u' todo' ∧
      u'.children.size = u.children.size ∧ Merges todo' (ids.drop n) := by
  induction n generalizing u todo ids with
  | zero => exact ⟨u, todo, rfl, h, rfl, hm⟩
  | succ n ih =>
    unfold serve
    cases hq : u.queue with
    | empty =>
      obtain rfl : ids = [] := by
        apply List.eq_nil_iff_forall_not_mem.mpr
        intro d hd
        obtain ⟨i, hi⟩ := (hm.mem_iff d).mp hd
        rw [h.todo_of_empty hq i] at hi
        simp at hi
      exact ⟨u, todo, rfl, h, rfl, hm⟩
    | node entry left right =>
      obtain ⟨d, i⟩ := entry
      have hd : ∀ j, ∀ e ∈ todo j, d ≤ e := fun j e he => h.le_of_mem hq he
      have hqueued := h.queued
      rw [hq] at hqueued
      have hmem : d ∈ ids :=
        (hm.mem_iff d).mpr ⟨i, List.mem_of_mem_head? (Option.mem_def.mpr hqueued.first)⟩
      obtain ⟨more, rfl⟩ : ∃ more, ids = d :: more := by
        obtain ⟨first, more, rfl⟩ := List.exists_cons_of_ne_nil (List.ne_nil_of_mem hmem)
        obtain ⟨j, hj⟩ := (hm.mem_iff first).mp List.mem_cons_self
        have hle := hd j first hj
        rcases List.mem_cons.mp hmem with heq | hlater
        · exact ⟨more, by rw [heq]⟩
        · have hlt := (List.pairwise_cons.mp hm.ascending).1 d hlater
          exact (UInt64.not_lt.mpr hle hlt).elim
      obtain ⟨hlt, hasc⟩ := List.pairwise_cons.mp hm.ascending
      obtain ⟨u₁, todo₁, hs, h₁, hsize, hskip⟩ := skip_ready hR h hd
      have hm₁ : Merges todo₁ more := by
        refine ⟨hasc, fun e => ?_⟩
        simp only [hskip, exists_and_right, ← hm.mem_iff, List.mem_cons]
        constructor
        · intro he
          exact ⟨Or.inr he, (UInt64.ne_of_lt (hlt e he)).symm⟩
        · rintro ⟨he, hne⟩
          exact he.resolve_left hne
      obtain ⟨u', todo', hserve, h', hsize', hm'⟩ := ih h₁ hm₁
      refine ⟨u', todo', ?_, h', hsize'.trans hsize, hm'⟩
      simp only [hs, hserve, List.take_succ_cons]

/-! ### Asking for the first ids -/

def headsBelow (todo : Nat → List DocId) (i : Nat) (j : Nat) : Option DocId :=
  if j < i then (todo j).head? else none

theorem headsBelow_succ (todo : Nat → List DocId) (i : Nat) :
    headsBelow todo (i + 1) = Function.update (headsBelow todo i) i (todo i).head? := by
  funext j
  by_cases hj : j = i
  · subst hj
    rw [Function.update_self, headsBelow, if_pos (Nat.lt_succ_self j)]
  · rw [Function.update_of_ne hj, headsBelow, headsBelow]
    by_cases hlt : j < i
    · rw [if_pos hlt, if_pos (by omega)]
    · rw [if_neg hlt, if_neg (by omega)]

theorem primeFrom_loads (hR : ∀ i, IdSource.Advances (R i)) {batch : Nat} (hb : 0 < batch)
    (todo : Nat → List DocId) (ls : List (Lookahead M)) (i : Nat) (queue : Heap QueueEntry)
    (hl : ∀ (j : Nat) (l : Lookahead M), ls[j]? = some l → l.Holds (R (i + j)) (todo (i + j)))
    (hq : Queued queue (headsBelow todo i)) :
    ∃ ls' queue', primeFrom batch i queue ls = (.ok (), ls', queue') ∧ ls'.length = ls.length ∧
      (∀ (j : Nat) (l : Lookahead M), ls'[j]? = some l → l.Loaded (R (i + j)) (todo (i + j))) ∧
      Queued queue' (headsBelow todo (i + ls.length)) := by
  induction ls generalizing i queue with
  | nil => exact ⟨[], queue, rfl, rfl, fun j l h => by simp at h, hq⟩
  | cons l ls ih =>
    obtain ⟨hload, hhead⟩ := Lookahead.load_holds (hR i) hb (hl 0 l rfl)
    have hfree : headsBelow todo i i = none := if_neg (Nat.lt_irrefl i)
    obtain ⟨queue₁, hstep, hput⟩ : ∃ queue₁,
        primeFrom batch i queue (l :: ls) =
          ((primeFrom batch (i + 1) queue₁ ls).1,
            l.load batch :: (primeFrom batch (i + 1) queue₁ ls).2.1,
            (primeFrom batch (i + 1) queue₁ ls).2.2) ∧
        Queued queue₁ (headsBelow todo (i + 1)) := by
      rw [headsBelow_succ, primeFrom]
      simp only [Nat.add_zero] at hhead
      simp only [hhead]
      cases (todo i).head? with
      | some d => exact ⟨_, rfl, hq.enqueue hfree d⟩
      | none =>
        refine ⟨queue, rfl, ?_⟩
        rwa [← hfree, Function.update_eq_self]
    have hrest : ∀ (j : Nat) (l : Lookahead M), ls[j]? = some l →
        l.Holds (R (i + 1 + j)) (todo (i + 1 + j)) := by
      intro j l h
      rw [Nat.add_assoc, Nat.add_comm 1 j]
      exact hl (j + 1) l h
    obtain ⟨ls', queue', hp, hlen, hloaded, hqueue⟩ := ih (i + 1) queue₁ hrest hput
    refine ⟨l.load batch :: ls', queue', ?_, ?_, fun j l' hj => ?_, ?_⟩
    · rw [hstep, hp]
    · rw [List.length_cons, List.length_cons, hlen]
    · cases j with
      | zero =>
        rw [← Option.some.inj hj]
        exact hload
      | succ j =>
        have := hloaded j l' hj
        rwa [Nat.add_assoc, Nat.add_comm 1 j] at this
    · rw [List.length_cons, Nat.add_comm ls.length 1, ← Nat.add_assoc]
      exact hqueue

theorem prime_ready (hR : ∀ i, IdSource.Advances (R i)) {u : Union M} {todo : Nat → List DocId}
    (h : Fresh R u todo) :
    ∃ u', u.prime = (.ok (), u') ∧ Ready R u' todo ∧ u'.children.size = u.children.size := by
  obtain ⟨ls, queue, hp, hlen, hloaded, hqueue⟩ :=
    primeFrom_loads hR h.batch_pos todo u.children.toList 0 u.queue
      (fun j l hj => by
        rw [Array.getElem?_toList] at hj
        rw [Nat.zero_add]
        exact h.holds j l hj)
      (by
        rw [h.queue]
        exact Queued.empty)
  have hsize : ls.toArray.size = u.children.size := by simpa using hlen
  have heads : headsBelow todo (0 + u.children.toList.length) = fun i => (todo i).head? := by
    funext i
    rw [Nat.zero_add, Array.length_toList, headsBelow]
    by_cases hi : i < u.children.size
    · rw [if_pos hi]
    · rw [if_neg hi, h.outside i (Nat.le_of_not_lt hi)]
      rfl
  rw [heads] at hqueue
  refine ⟨{ u with children := ls.toArray, queue, primed := true }, ?_,
    ⟨⟨h.batch_pos, h.sorted, fun i hi => h.outside i (hsize ▸ hi)⟩, rfl, fun i l hi => ?_,
      hqueue⟩, hsize⟩
  · unfold prime
    simp only [hp]
    rfl
  · have := hloaded i l (by simpa using hi)
    rwa [Nat.zero_add] at this

/-! ### Unions as sources -/

/-- A union serves as many ids as it is asked for, whatever its children do. -/
theorem exact (hR : ∀ i, IdSource.Advances (R i)) (count : Nat) :
    IdSource.Exact (Delivers R count) := by
  rintro u rest ⟨hcount, todo, hm, h⟩ n
  have hserve : ∀ {u₁ : Union M}, Ready R u₁ todo → u₁.children.size = count →
      ∃ u', u₁.serve n = (.ok (rest.take n), u') ∧ Delivers R count u' (rest.drop n) := by
    intro u₁ h₁ hcount₁
    obtain ⟨u', todo', hs, h', hsize, hm'⟩ := serve_ready hR n h₁ hm
    exact ⟨u', hs, hsize.trans hcount₁, todo', hm', Or.inl h'⟩
  show ∃ u', u.fill n = _ ∧ _
  unfold fill
  rcases h with h | h
  · rw [if_pos h.primed]
    exact hserve h hcount
  · obtain ⟨u₁, hp, h₁, hsize⟩ := prime_ready hR h
    rw [if_neg (by rw [h.primed]; exact Bool.false_ne_true), hp]
    exact hserve h₁ (hsize.trans hcount)

omit [IdSource M] in
theorem Delivers.child {count : Nat} {u : Union M} {rest : List DocId}
    (h : Delivers R count u rest) {i : Nat} {l : Lookahead M} (hl : u.children[i]? = some l) :
    ∃ ids, R i l.matcher ids := by
  obtain ⟨_, todo, _, h⟩ := h
  have hholds : l.Holds (R i) (todo i) := by
    rcases h with h | h
    · exact (h.loaded i l hl).1
    · exact h.holds i l hl
  obtain ⟨ids, hr, -, -⟩ := hholds
  exact ⟨ids, hr⟩

theorem delivers_reset {count : Nat} {u : Union M} {rest full : List DocId}
    {todo : Nat → List DocId} (h : Delivers R count u rest)
    (hreset : ∀ {i m ids}, i < count → R i m ids → R i (IdSource.reset m) (todo i))
    (hsorted : ∀ i, (todo i).Pairwise (· ≤ ·)) (houtside : ∀ i, count ≤ i → todo i = [])
    (hm : Merges todo full) : Delivers R count u.reset full := by
  obtain ⟨rfl, _, _, hu⟩ := id h
  have hpos : 0 < u.batch := hu.elim (·.batch_pos) (·.batch_pos)
  have hsize : u.reset.children.size = u.children.size := Array.size_map
  refine ⟨hsize, todo, hm, Or.inr ⟨⟨hpos, hsorted, fun i hi => houtside i (hsize ▸ hi)⟩, rfl, rfl,
    fun i l hl => ?_⟩⟩
  rw [reset, Array.getElem?_map, Option.map_eq_some_iff] at hl
  obtain ⟨l₀, hl₀, rfl⟩ := hl
  obtain ⟨ids, hr⟩ := h.child hl₀
  have hi : i < u.children.size := by
    obtain ⟨hi, _⟩ := Array.getElem?_eq_some_iff.mp hl₀
    exact hi
  exact Lookahead.holds_ofMatcher (hreset hi hr)

omit [IdSource M] in
theorem delivers_ofList {ms : List M} {full : List DocId} {todo : Nat → List DocId} (batch : Nat)
    (hms : ∀ i m, ms[i]? = some m → R i m (todo i)) (hsorted : ∀ i, (todo i).Pairwise (· ≤ ·))
    (houtside : ∀ i, ms.length ≤ i → todo i = []) (hm : Merges todo full) :
    Delivers R ms.length (ofList ms batch) full := by
  have hsize : (ofList ms batch).children.size = ms.length := by simp [ofList]
  refine ⟨hsize, todo, hm, Or.inr ⟨⟨Nat.le_max_right _ _, hsorted,
    fun i hi => houtside i (hsize ▸ hi)⟩, rfl, rfl, fun i l hl => ?_⟩⟩
  simp only [ofList, List.getElem?_toArray, List.getElem?_map, Option.map_eq_some_iff] at hl
  obtain ⟨m, hi, rfl⟩ := hl
  exact Lookahead.holds_ofMatcher (hms i m hi)

omit [IdSource M] in
theorem getElem?_withMatchers {P : M → M → Prop} {u : Union M} {ms : List M}
    (hms : List.Forall₂ P u.matchers ms) {i : Nat} {l : Lookahead M}
    (h : (u.withMatchers ms).children[i]? = some l) :
    ∃ l₀ m, u.children[i]? = some l₀ ∧ P l₀.matcher m ∧ l = { l₀ with matcher := m } := by
  simp only [withMatchers, List.getElem?_toArray, List.getElem?_zipWith, Array.getElem?_toList] at h
  split at h
  · rename_i l₀ m hl₀ hm
    have hmatcher : u.matchers[i]? = some l₀.matcher := by
      rw [matchers, List.getElem?_map, Array.getElem?_toList, hl₀]
      rfl
    obtain ⟨hi, hget⟩ := List.getElem?_eq_some_iff.mp hmatcher
    obtain ⟨hi', hget'⟩ := List.getElem?_eq_some_iff.mp hm
    have hp := hms.get hi hi'
    rw [List.get_eq_getElem, List.get_eq_getElem, hget, hget'] at hp
    exact ⟨l₀, m, hl₀, hp, (Option.some.inj h).symm⟩
  · cases h

omit [IdSource M] in
/-- Matches that have the same ids left can take the place of those of a union. -/
theorem delivers_withMatchers {count : Nat} {u : Union M} {rest : List DocId}
    (h : Delivers R count u rest) {ms : List M}
    (hms : List.Forall₂ (fun m m' => ∀ i ids, R i m ids → R i m' ids) u.matchers ms) :
    Delivers R count (u.withMatchers ms) rest := by
  obtain ⟨rfl, todo, hm, hu⟩ := h
  have hsize : (u.withMatchers ms).children.size = u.children.size := by
    have hlen := hms.length_eq
    rw [matchers, List.length_map, Array.length_toList] at hlen
    simp [withMatchers, hlen]
  have htodo : Todo u todo → Todo (u.withMatchers ms) todo := fun ht =>
    ⟨ht.batch_pos, ht.sorted, fun i hi => ht.outside i (hsize ▸ hi)⟩
  refine ⟨hsize, todo, hm, hu.imp (fun hr => ?_) (fun hf => ?_)⟩
  · refine ⟨htodo hr.toTodo, hr.primed, fun i l hl => ?_, hr.queued⟩
    obtain ⟨l₀, m, hl₀, hmatcher, rfl⟩ := getElem?_withMatchers hms hl
    obtain ⟨hholds, hhead⟩ := hr.loaded i l₀ hl₀
    exact ⟨hholds.withMatcher (hmatcher i), hhead⟩
  · refine ⟨htodo hf.toTodo, hf.primed, hf.queue, fun i l hl => ?_⟩
    obtain ⟨l₀, m, hl₀, hmatcher, rfl⟩ := getElem?_withMatchers hms hl
    exact (hf.holds i l₀ hl₀).withMatcher (hmatcher i)

end Union

end Concordance
