import Concordance.Chunks
import Concordance.Match.Union

/-!
# Boolean combinations

Intersection, union and exclusion of matches. An intersection and an exclusion serve the ids of one
child that pass a test on the others. Scores of children add up: a document has the sum of what its
scored children give it, and the neutral score when there is no such child.
-/

namespace Concordance

/-! ### Filtering a source -/

/-- The ids that pass a test; the first failing test decides. -/
def filterIds (keep : DocId → Except Failure Bool) : List DocId → Except Failure (List DocId)
  | [] => .ok []
  | d :: rest =>
      match keep d with
      | .error e => .error e
      | .ok kept => (filterIds keep rest).map fun ids => if kept then d :: ids else ids

theorem length_filterIds {keep : DocId → Except Failure Bool} {ids kept : List DocId}
    (h : filterIds keep ids = .ok kept) : kept.length ≤ ids.length := by
  induction ids generalizing kept with
  | nil => simp [← Except.ok.inj h]
  | cons d ids ih =>
    unfold filterIds at h
    split at h
    · simp at h
    · rename_i b _
      cases hf : filterIds keep ids with
      | error e => simp [hf, Except.map] at h
      | ok rest =>
        have hr := ih hf
        simp only [hf, Except.map, Except.ok.injEq] at h
        subst h
        rw [List.length_cons]
        split
        · exact Nat.succ_le_succ hr
        · omega

namespace IdSource

variable {S : Type} [IdSource S]

/-- The next `n` ids of a source that pass a test. A batch may lose all its ids to the test, so the
source is read until there are enough ids or it is exhausted. -/
def fillKept (keep : DocId → Except Failure Bool) (n : Nat) (s : S) :
    Except Failure (List DocId) × S :=
  if n = 0 then (.ok [], s)
  else
    match _h : fill s n with
    | (.error e, s') => (.error e, s')
    | (.ok [], s') => (.ok [], s')
    | (.ok (d :: ids), s') =>
        match filterIds keep (d :: ids) with
        | .error e => (.error e, s')
        | .ok kept =>
            match fillKept keep (n - kept.length) s' with
            | (.ok more, s'') => (.ok (kept ++ more), s'')
            | (.error e, s'') => (.error e, s'')
termination_by left s
decreasing_by exact left_fill_lt _h

theorem left_fillKept {keep : DocId → Except Failure Bool} {n : Nat} {s s' : S} {ids : List DocId}
    (h : fillKept keep n s = (.ok ids, s')) : left s' + ids.length ≤ left s := by
  fun_induction fillKept keep n s generalizing ids s' with
  | case1 =>
    obtain ⟨hi, rfl⟩ := Prod.mk.inj h
    simp [← Except.ok.inj hi]
  | case2 | case4 | case6 => simp at h
  | case3 n s hn s₁ hf =>
    obtain ⟨hi, rfl⟩ := Prod.mk.inj h
    rw [← Except.ok.inj hi]
    exact left_fill hf
  | case5 n s hn d batch s₁ hf kept hk more s₂ hr ih =>
    obtain ⟨hi, rfl⟩ := Prod.mk.inj h
    have h1 := left_fill hf
    have h2 := length_filterIds hk
    have h3 := ih hr
    rw [← Except.ok.inj hi, List.length_append]
    omega

end IdSource

/-! ### Membership of several children -/

namespace Matcher

variable {M : Type} [Matcher M]

def evaluateAll (d : DocId) : List M → Except Failure Bool
  | [] => .ok true
  | m :: rest =>
      match evaluate m d with
      | .ok true => evaluateAll d rest
      | decided => decided

def evaluateAny (d : DocId) : List M → Except Failure Bool
  | [] => .ok false
  | m :: rest =>
      match evaluate m d with
      | .ok false => evaluateAny d rest
      | decided => decided

end Matcher

/-! ### Scores of several children

Ids are scored a chunk at a time. A child scores the ids of the chunk that it has, which are put
together in a scratch, and its scores are added to the sums of the places they came from. -/

/-- A buffer with its first slots written over. -/
def overwrite (front buffer : Array α) : Array α := front ++ buffer.extract front.size buffer.size

/-- The buffers a combination scores chunks with. They are made once: whatever the last child, the
last chunk or the last call left in them is still there when the next one starts. -/
structure ScoreScratch where
  ids : Array DocId
  slots : Array Nat
  scores : Array Float32
  /-- Which places of the chunk a child has scored. -/
  hits : Array Bool

namespace ScoreScratch

variable {M : Type} [Matcher M]

/-- A scratch for chunks of a size, which counts as one when it is zero. -/
def ofCapacity (capacity : Nat) : ScoreScratch :=
  let n := max capacity 1
  { ids := .replicate n 0, slots := .replicate n 0, scores := .replicate n 0
    hits := .replicate n false }

def capacity (s : ScoreScratch) : Nat := s.ids.size

/-- Notes an id and its place, `count` others having been noted. -/
def note (count : Nat) (d : DocId) (slot : Nat) : ScoreScratch → ScoreScratch
  | ⟨ids, slots, scores, hits⟩ =>
      ⟨ids.setIfInBounds count d, slots.setIfInBounds count slot, scores, hits⟩

/-- Notes those of some ids that a child has, or all of them when that is not to be checked: how
many are noted then. The first id is at place `slot`, and `count` ids are noted before. -/
def gather (checked : Bool) (m : M) (slot count : Nat) (s : ScoreScratch) :
    List DocId → Except Failure Nat × ScoreScratch
  | [] => (.ok count, s)
  | d :: rest =>
      match if checked then Matcher.evaluate m d else .ok true with
      | .error e => (.error e, s)
      | .ok true => gather checked m (slot + 1) (count + 1) (s.note count d slot) rest
      | .ok false => gather checked m (slot + 1) count s rest

/-- Adds scores to the sums at their places, and marks the places. -/
def scatter (sums : Array Float32) (hits : Array Bool) :
    List (Nat × Float32) → Array Float32 × Array Bool
  | [] => (sums, hits)
  | (slot, score) :: rest =>
      scatter (sums.modify slot (· + score)) (hits.setIfInBounds slot true) rest

/-- Lets a child score the ids that are noted, `count` of them, and adds its scores to the sums. -/
def addNoted (count : Nat) (m : M) (sums : Array Float32) :
    ScoreScratch → Except Failure (Array Float32) × ScoreScratch × M
  | ⟨ids, slots, scores, hits⟩ =>
      match Matcher.score m (ids.extract 0 count).toList (scores.extract 0 count) with
      | (.error e, m) => (.error e, ⟨ids, slots, scores, hits⟩, m)
      | (.ok found, m) =>
          let (sums, hits) := scatter sums hits ((slots.extract 0 count).zip found).toList
          (.ok sums, ⟨ids, slots, overwrite found scores, hits⟩, m)

/-- Adds a child's scores to the sums of a chunk, unless the child is not scored. -/
def addChild (checked : Bool) (ids : List DocId) (m : M) (sums : Array Float32)
    (s : ScoreScratch) : Except Failure (Array Float32) × ScoreScratch × M :=
  if Matcher.isScored m then
    match gather checked m 0 0 s ids with
    | (.error e, s) => (.error e, s, m)
    | (.ok 0, s) => (.ok sums, s, m)
    | (.ok count, s) => s.addNoted count m sums
  else (.ok sums, s, m)

def addChildren (checked : Bool) (ids : List DocId) (sums : Array Float32) (s : ScoreScratch) :
    List M → Except Failure (Array Float32) × ScoreScratch × List M
  | [] => (.ok sums, s, [])
  | m :: rest =>
      match addChild checked ids m sums s with
      | (.error e, s, m) => (.error e, s, m :: rest)
      | (.ok sums, s, m) =>
          let (result, s, rest) := addChildren checked ids sums s rest
          (result, s, m :: rest)

/-- Writes the sums of a chunk of ids into a buffer; an id without a scored child gets the neutral
score. -/
def sumChunk (checked : Bool) (children : List M) (ids : List DocId) (buffer : List Float32)
    (s : ScoreScratch) : Except Failure (List Float32) × ScoreScratch × List M :=
  let s := { s with hits := overwrite (.replicate ids.length false) s.hits }
  let (result, s, children) := addChildren checked ids (.replicate buffer.length 0) s children
  let scores := result.map fun sums =>
    (sums.zipWith (fun sum hit => if hit then sum else neutralScore) s.hits).toList
  (scores, s, children)

/-- Writes the sums of chunks, one chunk after the other, each into its part of the buffer. -/
def sumChunks (checked : Bool) (children : List M) (s : ScoreScratch) :
    List (List DocId × List Float32) → Except Failure (List Float32) × ScoreScratch × List M
  | [] => (.ok [], s, children)
  | (ids, buffer) :: rest =>
      match sumChunk checked children ids buffer s with
      | (.error e, s, children) => (.error e, s, children)
      | (.ok scores, s, children) =>
          let (more, s, children) := sumChunks checked children s rest
          (more.map (scores ++ ·), s, children)

/-- Writes the summed scores of some ids; they are neutral when no child is scored. -/
def sumScores (checked : Bool) (s : ScoreScratch) (children : List M) (ids : List DocId)
    (buffer : Array Float32) : Except Failure (Array Float32) × ScoreScratch × List M :=
  match Matcher.checkSlots ids buffer with
  | .error e => (.error e, s, children)
  | .ok () =>
      if children.any Matcher.isScored then
        let parts := (chunks s.capacity ids).zip (chunks s.capacity buffer.toList)
        let (scores, s, children) := sumChunks checked children s parts
        (scores.map List.toArray, s, children)
      else (.ok (.replicate buffer.size neutralScore), s, children)

/-! ### What scoring keeps of the children -/

section

variable {β : Type} {f : M → β} (hf : ∀ m ids buffer, f (Matcher.score m ids buffer).2 = f m)

include hf

theorem map_addNoted (count : Nat) (m : M) (sums : Array Float32) (s : ScoreScratch) :
    f (addNoted count m sums s).2.2 = f m := by
  obtain ⟨ids, slots, scores, hits⟩ := s
  have hscore := hf m (ids.extract 0 count).toList (scores.extract 0 count)
  rw [addNoted]
  generalize Matcher.score m (ids.extract 0 count).toList (scores.extract 0 count) = scored at *
  obtain ⟨result, m'⟩ := scored
  cases result <;> exact hscore

theorem map_addChild (checked : Bool) (ids : List DocId) (m : M) (sums : Array Float32)
    (s : ScoreScratch) : f (addChild checked ids m sums s).2.2 = f m := by
  unfold addChild
  split
  · split
    · rfl
    · rfl
    · exact map_addNoted hf _ m sums _
  · rfl

theorem map_addChildren (checked : Bool) (ids : List DocId) (sums : Array Float32)
    (s : ScoreScratch) (ms : List M) :
    (addChildren checked ids sums s ms).2.2.map f = ms.map f := by
  induction ms generalizing sums s with
  | nil => rfl
  | cons m rest ih =>
    have hm := map_addChild hf checked ids m sums s
    unfold addChildren
    split
    · rename_i e s' m' h
      rw [h] at hm
      rw [List.map_cons, List.map_cons, hm]
    · rename_i sums' s' m' h
      rw [h] at hm
      rw [List.map_cons, List.map_cons, hm, ih]

theorem map_sumChunks (checked : Bool) (ms : List M) (s : ScoreScratch)
    (parts : List (List DocId × List Float32)) :
    (sumChunks checked ms s parts).2.2.map f = ms.map f := by
  induction parts generalizing ms s with
  | nil => rfl
  | cons part rest ih =>
    have hms : (sumChunk checked ms part.1 part.2 s).2.2.map f = ms.map f :=
      map_addChildren hf ..
    unfold sumChunks
    split
    · rename_i e s' ms' h
      rw [h] at hms
      exact hms
    · rename_i scores s' ms' h
      rw [h] at hms
      exact (ih ms' s').trans hms

theorem map_sumScores (checked : Bool) (s : ScoreScratch) (ms : List M) (ids : List DocId)
    (buffer : Array Float32) :
    (sumScores checked s ms ids buffer).2.2.map f = ms.map f := by
  unfold sumScores
  split
  · rfl
  · split
    · exact map_sumChunks hf ..
    · rfl

end

theorem left_sumScores (checked : Bool) (s : ScoreScratch) (ms : List M) (ids : List DocId)
    (buffer : Array Float32) :
    (sumScores checked s ms ids buffer).2.2.map IdSource.left = ms.map IdSource.left :=
  map_sumScores Matcher.left_score checked s ms ids buffer

end ScoreScratch

/-! ### Intersection -/

/-- The intersection of at least one match. The cheapest child, of equally cheap ones the first,
serves the ids and the others are only tested. -/
structure AndMatch (M : Type) where
  before : List M
  driver : M
  after : List M
  scratch : ScoreScratch

namespace AndMatch

variable {M : Type} [Matcher M]

/-- A cheapest child with the children before and after it. -/
def splitCheapest (m : M) : List M → List M × M × List M
  | [] => ([], m, [])
  | next :: rest =>
      let (before, driver, after) := splitCheapest next rest
      if Matcher.cost m ≤ Matcher.cost driver then ([], m, next :: rest)
      else (m :: before, driver, after)

def ofCons (m : M) (rest : List M) (scoreBatch : Nat) : AndMatch M :=
  let (before, driver, after) := splitCheapest m rest
  { before, driver, after, scratch := .ofCapacity scoreBatch }

def children (m : AndMatch M) : List M := m.before ++ m.driver :: m.after

def fill : AndMatch M → Nat → Except Failure (List DocId) × AndMatch M
  | ⟨before, driver, after, scratch⟩, n =>
      let tested := before ++ after
      let (result, driver) :=
        IdSource.fillKept (fun d => Matcher.evaluateAll d tested) n driver
      (result, ⟨before, driver, after, scratch⟩)

/-- The intersection of other children, which are given in order, with another scratch. -/
def withChildren (m : AndMatch M) (scratch : ScoreScratch) (children : List M) : AndMatch M :=
  match children.drop m.before.length with
  | [] => { m with scratch }
  | driver :: after => { before := children.take m.before.length, driver, after, scratch }

def score (m : AndMatch M) (ids : List DocId) (buffer : Array Float32) :
    Except Failure (Array Float32) × AndMatch M :=
  let (result, scratch, children) := m.scratch.sumScores false m.children ids buffer
  (result, m.withChildren scratch children)

omit [Matcher M] in
/-- Other children that have something in common with those before have it place by place. -/
theorem map_withChildren {β : Type} {f : M → β} {m : AndMatch M} {scratch : ScoreScratch}
    {children : List M} (h : children.map f = m.children.map f) :
    (m.withChildren scratch children).before.map f = m.before.map f ∧
      f (m.withChildren scratch children).driver = f m.driver ∧
      (m.withChildren scratch children).after.map f = m.after.map f := by
  have htake : (children.take m.before.length).map f = m.before.map f := by
    rw [List.map_take, h, ← List.map_take, AndMatch.children, List.take_left]
  have hdrop : (children.drop m.before.length).map f = (m.driver :: m.after).map f := by
    rw [List.map_drop, h, ← List.map_drop, AndMatch.children, List.drop_left]
  unfold withChildren
  split
  · exact ⟨rfl, rfl, rfl⟩
  · rename_i driver after hcons
    rw [hcons] at hdrop
    exact ⟨htake, List.cons.inj hdrop⟩

instance : Matcher (AndMatch M) where
  fill := fill
  reset m :=
    { m with
      before := m.before.map IdSource.reset
      driver := IdSource.reset m.driver
      after := m.after.map IdSource.reset }
  left m := IdSource.left m.driver
  left_fill {m m' n ids} h := by
    obtain ⟨hr, rfl⟩ := Prod.mk.inj h
    exact IdSource.left_fillKept (Prod.ext hr rfl : IdSource.fillKept _ n m.driver = (.ok ids, _))
  evaluate m d := Matcher.evaluateAll d m.children
  score := score
  left_score _ _ _ := (map_withChildren (ScoreScratch.left_sumScores ..)).2.1
  isScored m := m.children.any Matcher.isScored
  cost m := Matcher.cost m.driver
  inspect m := (Inspection.ofOperation "AndMatch").withChildren (m.children.map Matcher.inspect)

end AndMatch

/-! ### Union -/

structure OrMatch (M : Type) where
  union : Union M
  scratch : ScoreScratch
  cost : UInt64

namespace OrMatch

variable {M : Type} [Matcher M]

def ofList (children : List M) (fillBatch scoreBatch : Nat) : OrMatch M :=
  { union := .ofList children fillBatch
    scratch := .ofCapacity scoreBatch
    cost := Matcher.totalCost children }

def fill : OrMatch M → Nat → Except Failure (List DocId) × OrMatch M
  | ⟨union, scratch, cost⟩, n =>
      let (result, union) := union.fill n
      (result, ⟨union, scratch, cost⟩)

def score : OrMatch M → List DocId → Array Float32 → Except Failure (Array Float32) × OrMatch M
  | ⟨union, scratch, cost⟩, ids, buffer =>
      let (result, scratch, matchers) := scratch.sumScores true union.matchers ids buffer
      (result, ⟨union.withMatchers matchers, scratch, cost⟩)

instance : Matcher (OrMatch M) where
  fill := fill
  reset m := { m with union := m.union.reset }
  left m := m.union.left
  left_fill {m m' n ids} h := by
    obtain ⟨hr, rfl⟩ := Prod.mk.inj h
    exact Union.left_fill (Prod.ext hr rfl : m.union.fill n = (.ok ids, _))
  evaluate m d := Matcher.evaluateAny d m.union.matchers
  score := score
  left_score _ _ _ := Union.left_withMatchers (ScoreScratch.left_sumScores ..)
  isScored m := m.union.matchers.any Matcher.isScored
  cost := OrMatch.cost
  inspect m :=
    (Inspection.ofOperation "OrMatch").withChildren (m.union.matchers.map Matcher.inspect)

end OrMatch

/-! ### Exclusion -/

structure AndNotMatch (M : Type) where
  base : M
  exclusion : M

namespace AndNotMatch

variable {M : Type} [Matcher M]

def admits (exclusion : M) (d : DocId) : Except Failure Bool :=
  (Matcher.evaluate exclusion d).map (!·)

def fill : AndNotMatch M → Nat → Except Failure (List DocId) × AndNotMatch M
  | ⟨base, exclusion⟩, n =>
      let (result, base) := IdSource.fillKept (admits exclusion) n base
      (result, ⟨base, exclusion⟩)

def evaluate (m : AndNotMatch M) (d : DocId) : Except Failure Bool :=
  match Matcher.evaluate m.base d with
  | .ok true => admits m.exclusion d
  | decided => decided

def score : AndNotMatch M → List DocId → Array Float32 →
    Except Failure (Array Float32) × AndNotMatch M
  | ⟨base, exclusion⟩, ids, buffer =>
      let (result, base) := Matcher.score base ids buffer
      (result, ⟨base, exclusion⟩)

instance : Matcher (AndNotMatch M) where
  fill := fill
  reset m := { base := IdSource.reset m.base, exclusion := IdSource.reset m.exclusion }
  left m := IdSource.left m.base
  left_fill {m m' n ids} h := by
    obtain ⟨hr, rfl⟩ := Prod.mk.inj h
    exact IdSource.left_fillKept (Prod.ext hr rfl : IdSource.fillKept _ n m.base = (.ok ids, _))
  evaluate := evaluate
  score := score
  left_score m := Matcher.left_score m.base
  isScored m := Matcher.isScored m.base
  cost m := Matcher.cost m.base
  inspect m :=
    (Inspection.ofOperation "AndNotMatch").withChildren
      [Matcher.inspect m.base, Matcher.inspect m.exclusion]

end AndNotMatch

end Concordance
