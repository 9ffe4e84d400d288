import Mathlib
import Concordance.Proofs.PostingSteps

/-!
# Arithmetic on posting bytes

A cursor counts down from the counts of skip entries and adds up differences in words of fixed width,
without a check. `Exact` repeats its calls with every operation checked: there is no result when a
number would not fit. `run_exact` says that on any bytes and skip entries the calls fail with
storage failures only, and that nothing is lost and the ids of a block never decrease where no
opened block counts no ids and no block adds up to more than a word.
-/

namespace Concordance.PostingCursor

/-! ### Checked reading -/

namespace Exact

def add (a b : UInt64) : Option UInt64 :=
  if a.toNat + b.toNat < UInt64.size then some (a + b) else none

def pred (n : UInt32) : Option UInt32 := if n = 0 then none else some (n - 1)

/-- The word at an offset and the offset behind it, which has to be one of the data. -/
def decodeAt (data : Array UInt8) (offset : Nat) : Option (Except Failure (UInt64 × Nat)) := do
  if offset ≤ data.size then
    match ← Varint.wordFrom 0 0 0 (data.toList.drop offset) with
    | .error e => return .error e
    | .ok (v, used) => if offset + used ≤ data.size then return .ok (v, offset + used) else none
  else return .error .postingOffset

def next (c : PostingCursor) : Option (Except Failure (Option DocId) × PostingCursor) := do
  if c.remaining = 0 then
    match c.skips[c.nextBlock]? with
    | none => return (.ok none, c)
    | some entry =>
        match ← decodeAt c.data entry.offset.toNat with
        | .error e => return (.error e, { c with nextBlock := c.nextBlock + 1 })
        | .ok (first, offset) =>
            let remaining ← pred entry.count
            return (.ok (some first),
              { c with nextBlock := c.nextBlock + 1, offset, remaining, last := first })
  else
    match ← decodeAt c.data c.offset with
    | .error e => return (.error e, c)
    | .ok (delta, offset) =>
        let remaining ← pred c.remaining
        let last ← add c.last delta
        return (.ok (some last), { c with offset, remaining, last })

def fill (c : PostingCursor) : Nat → Option (Except Failure (List DocId) × PostingCursor)
  | 0 => return (.ok [], c)
  | n + 1 => do
      match ← next c with
      | (.error e, c') => return (.error e, c')
      | (.ok none, c') => return (.ok [], c')
      | (.ok (some d), c') =>
          match ← fill c' n with
          | (.ok ids, c'') => return (.ok (d :: ids), c'')
          | (.error e, c'') => return (.error e, c'')

def advance (data : Array UInt8) (target : DocId) :
    (steps offset : Nat) → (current : DocId) → Option (Except Failure DocId)
  | 0, _, current => return .ok current
  | steps + 1, offset, current => do
      if target ≤ current then return .ok current
      else
        match ← decodeAt data offset with
        | .error e => return .error e
        | .ok (delta, offset) => advance data target steps offset (← add current delta)

def contains (c : PostingCursor) (d : DocId) : Option (Except Failure Bool) := do
  match c.blockOf? d with
  | none => return .ok false
  | some entry =>
      match ← decodeAt c.data entry.offset.toNat with
      | .error e => return .error e
      | .ok (first, offset) =>
          return (← advance c.data d (entry.count.toNat - 1) offset first).map (· == d)

def call (c : PostingCursor) : PostingCall → Option (Except Failure Answer × PostingCursor)
  | .fill n => do
      let (served, c') ← fill c n
      return (served.map .served, c')
  | .contains d => return ((← contains c d).map .found, c)
  | .reset => return (.ok .rewound, c.reset)

def run (c : PostingCursor) :
    List PostingCall → Option (List (Except Failure Answer) × PostingCursor)
  | [] => return ([], c)
  | first :: calls => do
      let (answer, c') ← call c first
      let (answers, c'') ← run c' calls
      return (answer :: answers, c'')

theorem add_eq {a b : UInt64} (h : a.toNat + b.toNat < UInt64.size) : add a b = some (a + b) :=
  if_pos h

theorem pred_eq {n : UInt32} (h : n ≠ 0) : pred n = some (n - 1) := if_neg h

/-- No shift is too wide, no bit is lost and no offset leaves the data. -/
theorem decodeAt_eq (data : Array UInt8) (offset : Nat) :
    decodeAt data offset =
      some ((PostingCursor.decodeAt data offset).map fun (v, used) => (v, offset + used)) := by
  unfold decodeAt
  cases h : PostingCursor.decodeAt data offset with
  | error e =>
    unfold PostingCursor.decodeAt at h
    split at h
    · rename_i hle
      rw [Varint.decodeAt_eq] at h
      rw [if_pos hle, Varint.wordFrom_eq_decode, h]
      rfl
    · rename_i hnot
      rw [if_neg hnot, ← Except.error.inj h]
      rfl
  | ok found =>
    obtain ⟨v, used⟩ := found
    have hwithin := decodeAt_within h
    have hle : offset ≤ data.size := by omega
    rw [PostingCursor.decodeAt, if_pos hle, Varint.decodeAt_eq] at h
    rw [if_pos hle, Varint.wordFrom_eq_decode, h]
    exact if_pos hwithin

theorem decodeAt_error {data : Array UInt8} {offset : Nat} {e : Failure}
    (h : PostingCursor.decodeAt data offset = .error e) :
    decodeAt data offset = some (.error e) := by
  rw [decodeAt_eq, h]
  rfl

theorem decodeAt_ok {data : Array UInt8} {offset used : Nat} {v : UInt64}
    (h : PostingCursor.decodeAt data offset = .ok (v, used)) :
    decodeAt data offset = some (.ok (v, offset + used)) := by
  rw [decodeAt_eq, h]
  rfl

end Exact

/-! ### One checked read -/

variable {c : PostingCursor}

/-- The next read goes below zero or past the largest word. -/
inductive Overflows (c : PostingCursor) : Prop
  | count {entry : SkipEntry} {first : DocId} {used : Nat} : c.remaining = 0 →
      c.skips[c.nextBlock]? = some entry →
      decodeAt c.data entry.offset.toNat = .ok (first, used) → entry.count = 0 → Overflows c
  | sum {delta : UInt64} {used : Nat} : c.remaining ≠ 0 →
      decodeAt c.data c.offset = .ok (delta, used) →
      UInt64.size ≤ c.last.toNat + delta.toNat → Overflows c

theorem overflows_open (hr : c.remaining = 0) {entry : SkipEntry}
    (hblock : c.skips[c.nextBlock]? = some entry) (h : Overflows c) :
    entry.count = 0 ∧ ∃ found, decodeAt c.data entry.offset.toNat = .ok found := by
  cases h with
  | count _ hblock' hdecode hcount =>
    obtain rfl := Option.some.inj (hblock.symm.trans hblock')
    exact ⟨hcount, _, hdecode⟩
  | sum hne => exact (hne hr).elim

theorem overflows_read (hr : c.remaining ≠ 0) (h : Overflows c) :
    ∃ delta used, decodeAt c.data c.offset = .ok (delta, used) ∧
      UInt64.size ≤ c.last.toNat + delta.toNat := by
  cases h with
  | count hzero => exact (hr hzero).elim
  | sum _ hdecode hsum => exact ⟨_, _, hdecode, hsum⟩

/-- A count of zero and a sum past the largest word are all that a checked read stops at. -/
theorem next_checked (c : PostingCursor) :
    (Overflows c ∧ Exact.next c = none) ∨ (¬Overflows c ∧ Exact.next c = some c.next) := by
  have hstep := reading_next c
  generalize c.next = result at hstep ⊢
  cases hstep with
  | exhausted hr hblock =>
    right
    constructor
    · rintro (⟨-, hblock', -⟩ | ⟨hne, -⟩)
      · cases hblock.symm.trans hblock'
      · exact hne hr
    · simp only [Exact.next, if_pos hr, hblock]
      rfl
  | unopened hr hblock hdecode =>
    right
    constructor
    · intro h
      obtain ⟨-, _, hfound⟩ := overflows_open hr hblock h
      cases hdecode.symm.trans hfound
    · simp only [Exact.next, if_pos hr, hblock, Exact.decodeAt_error hdecode]
      rfl
  | @opened entry first used hr hblock hdecode =>
    by_cases hcount : entry.count = 0
    · left
      refine ⟨.count hr hblock hdecode hcount, ?_⟩
      simp only [Exact.next, if_pos hr, hblock, Exact.decodeAt_ok hdecode, hcount]
      rfl
    · right
      refine ⟨fun h => hcount (overflows_open hr hblock h).1, ?_⟩
      simp only [Exact.next, if_pos hr, hblock, Exact.decodeAt_ok hdecode, Exact.pred_eq hcount]
      rfl
  | unread hr hdecode =>
    right
    constructor
    · intro h
      obtain ⟨_, _, hfound, -⟩ := overflows_read hr h
      cases hdecode.symm.trans hfound
    · simp only [Exact.next, if_neg hr, Exact.decodeAt_error hdecode]
      rfl
  | @read delta used hr hdecode =>
    by_cases hsum : c.last.toNat + delta.toNat < UInt64.size
    · right
      constructor
      · intro h
        obtain ⟨_, _, hfound, hlarge⟩ := overflows_read hr h
        obtain ⟨rfl, -⟩ := Prod.mk.inj (Except.ok.inj (hdecode.symm.trans hfound))
        omega
      · simp only [Exact.next, if_neg hr, Exact.decodeAt_ok hdecode, Exact.pred_eq hr,
          Option.bind_eq_bind, Option.bind_some]
        rw [Exact.add_eq hsum]
        rfl
    · left
      refine ⟨.sum hr hdecode (Nat.not_lt.mp hsum), ?_⟩
      simp only [Exact.next, if_neg hr, Exact.decodeAt_ok hdecode, Exact.pred_eq hr,
        Option.bind_eq_bind, Option.bind_some]
      rw [Exact.add, if_neg hsum]
      rfl

/-! ### Where nothing is lost -/

/-- The words from an offset on, added up behind `current`, stay words: `steps` of them, as far as
they can be read. -/
def Sums (data : Array UInt8) : (steps offset current : Nat) → Prop
  | 0, _, _ => True
  | steps + 1, offset, current => ∀ delta used, decodeAt data offset = .ok (delta, used) →
      current + delta.toNat < UInt64.size ∧
        Sums data steps (offset + used) (current + delta.toNat)

/-- A block that can be opened counts an id at least, and its ids are words. -/
def Fits (data : Array UInt8) (entry : SkipEntry) : Prop :=
  ∀ first used, decodeAt data entry.offset.toNat = .ok (first, used) →
    entry.count ≠ 0 ∧
      Sums data (entry.count.toNat - 1) (entry.offset.toNat + used) first.toNat

/-- What is left to a cursor stays within words. -/
structure Within (c : PostingCursor) : Prop where
  blocks : ∀ entry ∈ c.skips, Fits c.data entry
  current : Sums c.data c.remaining.toNat c.offset c.last.toNat

theorem toNat_pred {n : UInt32} (h : n ≠ 0) : (n - 1).toNat = n.toNat - 1 := by
  have hpos : n.toNat ≠ 0 := fun hz => h (UInt32.toNat_inj.mp hz)
  exact toNat_sub_one (k := n.toNat - 1) (by omega)

theorem sums_read {delta : UInt64} {used : Nat} (hr : c.remaining ≠ 0)
    (hdecode : decodeAt c.data c.offset = .ok (delta, used)) (h : Within c) :
    c.last.toNat + delta.toNat < UInt64.size ∧
      Sums c.data (c.remaining - 1).toNat (c.offset + used) (c.last + delta).toNat := by
  have hpos : c.remaining.toNat ≠ 0 := fun hz => hr (UInt32.toNat_inj.mp hz)
  have hcurrent := h.current
  rw [show c.remaining.toNat = c.remaining.toNat - 1 + 1 by omega] at hcurrent
  obtain ⟨hsum, hmore⟩ := hcurrent delta used hdecode
  refine ⟨hsum, ?_⟩
  rw [toNat_pred hr, UInt64.toNat_add, Nat.mod_eq_of_lt hsum]
  exact hmore

theorem not_overflows (h : Within c) : ¬Overflows c := by
  rintro (⟨-, hblock, hdecode, hcount⟩ | ⟨hr, hdecode, hlarge⟩)
  · exact (h.blocks _ (Array.mem_of_getElem? hblock) _ _ hdecode).1 hcount
  · obtain ⟨hsum, -⟩ := sums_read hr hdecode h
    omega

theorem next_exact (h : Within c) : Exact.next c = some c.next :=
  (next_checked c).elim (fun ⟨hover, _⟩ => (not_overflows h hover).elim) And.right

theorem within_next (h : Within c) : Within c.next.2 := by
  have hstep := reading_next c
  generalize c.next = result at hstep ⊢
  cases hstep with
  | exhausted => exact h
  | unopened => exact ⟨h.blocks, h.current⟩
  | opened hr hblock hdecode =>
    obtain ⟨hcount, hsums⟩ := h.blocks _ (Array.mem_of_getElem? hblock) _ _ hdecode
    refine ⟨h.blocks, ?_⟩
    dsimp only
    rw [toNat_pred hcount]
    exact hsums
  | unread => exact h
  | read hr hdecode => exact ⟨h.blocks, (sums_read hr hdecode h).2⟩

theorem within_of_next {c' : PostingCursor} {found : Except Failure (Option DocId)} (h : Within c)
    (hnext : c.next = (found, c')) : Within c' := by
  have hwithin := within_next h
  rwa [hnext] at hwithin

theorem within_reset (h : Within c) : Within c.reset := ⟨h.blocks, trivial⟩

theorem within_run (calls : List PostingCall) (h : Within c) : Within (c.run calls).2 :=
  run_keeps @within_next @within_reset calls h

theorem fill_exact (n : Nat) (h : Within c) : Exact.fill c n = some (c.fill n) := by
  induction n generalizing c with
  | zero => rfl
  | succ n ih =>
    have hwithin := within_next h
    rw [Exact.fill, fill, next_exact h]
    generalize c.next = result at hwithin
    obtain ⟨e | _ | d, c'⟩ := result
    · rfl
    · rfl
    · have hfill := ih hwithin
      dsimp only [Option.bind_eq_bind, Option.bind_some]
      rw [hfill]
      generalize c'.fill n = result
      obtain ⟨e | ids, c''⟩ := result <;> rfl

theorem advance_exact {data : Array UInt8} (target : DocId) {steps offset : Nat} {current : DocId}
    (h : Sums data steps offset current.toNat) :
    Exact.advance data target steps offset current =
      some (advance data target steps offset current) := by
  induction steps generalizing offset current with
  | zero => rfl
  | succ steps ih =>
    rw [Exact.advance, advance]
    by_cases hle : target ≤ current
    · rw [if_pos hle, if_pos hle]
      rfl
    · rw [if_neg hle, if_neg hle]
      cases hdecode : decodeAt data offset with
      | error e =>
        rw [Exact.decodeAt_error hdecode]
        rfl
      | ok found =>
        obtain ⟨delta, used⟩ := found
        obtain ⟨hsum, hmore⟩ := h delta used hdecode
        rw [Exact.decodeAt_ok hdecode]
        dsimp only [Option.bind_eq_bind, Option.bind_some]
        rw [Exact.add_eq hsum]
        apply ih
        rw [UInt64.toNat_add, Nat.mod_eq_of_lt hsum]
        exact hmore

theorem contains_exact (d : DocId) (h : Within c) :
    Exact.contains c d = some (c.contains d) := by
  unfold Exact.contains
  cases hblock : c.blockOf? d with
  | none =>
    rw [contains_of_none hblock]
    rfl
  | some entry =>
    rw [contains_of_some hblock]
    dsimp only
    cases hdecode : decodeAt c.data entry.offset.toNat with
    | error e =>
      rw [Exact.decodeAt_error hdecode]
      rfl
    | ok found =>
      obtain ⟨first, used⟩ := found
      obtain ⟨-, hsums⟩ := h.blocks _ (mem_of_blockOf? hblock) _ _ hdecode
      rw [Exact.decodeAt_ok hdecode]
      dsimp only [Option.bind_eq_bind, Option.bind_some, Except.bind]
      rw [advance_exact d hsums]
      rfl

theorem call_exact (first : PostingCall) (h : Within c) :
    Exact.call c first = some (c.call first) := by
  cases first with
  | fill n =>
    rw [Exact.call, fill_exact n h]
    rfl
  | contains d =>
    rw [Exact.call, contains_exact d h]
    rfl
  | reset => rfl

theorem run_eq_of_within (calls : List PostingCall) (h : Within c) :
    Exact.run c calls = some (c.run calls) := by
  induction calls generalizing c with
  | nil => rfl
  | cons first calls ih =>
    have hcall := call_keeps @within_next @within_reset first h
    rw [Exact.run, call_exact first h]
    dsimp only [Option.bind_eq_bind, Option.bind_some]
    rw [ih hcall]
    rfl

/-! ### The ids of one block -/

/-- The ids that a fill reads, each with the number of blocks opened by then. -/
def reads (c : PostingCursor) : Nat → List (Nat × DocId)
  | 0 => []
  | n + 1 =>
      match c.next with
      | (.ok (some d), c') => (c'.nextBlock, d) :: reads c' n
      | _ => []

theorem map_reads {n : Nat} {c' : PostingCursor} {ids : List DocId}
    (h : c.fill n = (.ok ids, c')) : (c.reads n).map (·.2) = ids := by
  induction n generalizing c ids with
  | zero => exact Except.ok.inj (Prod.mk.inj h).1
  | succ n ih =>
    unfold fill at h
    unfold reads
    split at h
    · cases h
    · rename_i hnext
      rw [hnext]
      exact Except.ok.inj (Prod.mk.inj h).1
    · rename_i d c₁ hnext
      rw [hnext]
      split at h
      · rename_i more c₂ hfill
        obtain ⟨hids, rfl⟩ := Prod.mk.inj h
        rw [← Except.ok.inj hids]
        exact congrArg (d :: ·) (ih hfill)
      · cases h

/-- A read goes up from the last id or opens a block. -/
theorem next_ascends {d : DocId} {c' : PostingCursor} (h : Within c)
    (hnext : c.next = (.ok (some d), c')) :
    c'.last = d ∧ c.nextBlock ≤ c'.nextBlock ∧ (c'.nextBlock = c.nextBlock → c.last ≤ d) := by
  have hstep := reading_next c
  rw [hnext] at hstep
  cases hstep with
  | opened => exact ⟨rfl, Nat.le_succ _, fun hsame => (Nat.succ_ne_self _ hsame).elim⟩
  | read hr hdecode =>
    refine ⟨rfl, Nat.le_refl _, fun _ => ?_⟩
    obtain ⟨hsum, -⟩ := sums_read hr hdecode h
    rw [UInt64.le_iff_toNat_le, UInt64.toNat_add, Nat.mod_eq_of_lt hsum]
    exact Nat.le_add_right _ _

theorem le_of_mem_reads {n : Nat} (h : Within c) : ∀ r ∈ c.reads n,
    c.nextBlock ≤ r.1 ∧ (r.1 = c.nextBlock → c.last ≤ r.2) := by
  induction n generalizing c with
  | zero => exact fun r hr => (List.not_mem_nil hr).elim
  | succ n ih =>
    intro r hr
    unfold reads at hr
    split at hr
    · rename_i d c' hnext
      have hwithin := within_of_next h hnext
      obtain ⟨hlast, hblock, hle⟩ := next_ascends h hnext
      rcases List.mem_cons.mp hr with rfl | hr
      · exact ⟨hblock, hle⟩
      · obtain ⟨hblock', hle'⟩ := ih hwithin r hr
        refine ⟨Nat.le_trans hblock hblock', fun hsame => ?_⟩
        have hopen : c'.nextBlock = c.nextBlock := by omega
        exact UInt64.le_trans (hle hopen) (hlast ▸ hle' (by omega))
    · cases hr

/-- Within words, the ids that a fill reads from one block never decrease. -/
theorem reads_ascend (n : Nat) (h : Within c) :
    (c.reads n).Pairwise fun a b => a.1 = b.1 → a.2 ≤ b.2 := by
  induction n generalizing c with
  | zero => exact .nil
  | succ n ih =>
    unfold reads
    split
    · rename_i d c' hnext
      have hwithin := within_of_next h hnext
      obtain ⟨hlast, -⟩ := next_ascends h hnext
      refine .cons (fun r hr hsame => ?_) (ih hwithin)
      exact hlast ▸ (le_of_mem_reads hwithin r hr).2 hsame.symm
    · exact .nil

/-- Whatever the bytes and the skip entries are, calls fail with storage failures only, and the next
read of a fill after them overflows in two cases. Where every block that can be opened counts an id
and adds up to words, no operation of the calls overflows, and a fill after them reads ids that never
decrease inside a block. -/
theorem run_exact (data : Array UInt8) (skips : Array SkipEntry) (calls : List PostingCall)
    (n : Nat) :
    let c : PostingCursor := { data, skips }
    let later := (c.run calls).2
    (∀ answer ∈ (c.run calls).1,
        (∃ a, answer = .ok a) ∨ ∃ e, answer = .error e ∧ e.kind = .storage) ∧
      ((Overflows later ∧ Exact.next later = none) ∨
        (¬Overflows later ∧ Exact.next later = some later.next)) ∧
      ((∀ entry ∈ skips, Fits data entry) →
        Exact.run c calls = some (c.run calls) ∧
          (∀ ids, (later.fill n).1 = .ok ids → (later.reads n).map (·.2) = ids) ∧
          (later.reads n).Pairwise fun a b => a.1 = b.1 → a.2 ≤ b.2) := by
  intro c later
  refine ⟨fun answer hanswer => ?_, next_checked later, fun hfits => ?_⟩
  · cases answer with
    | ok a => exact .inl ⟨a, rfl⟩
    | error e => exact .inr ⟨e, rfl, kind_of_run hanswer⟩
  · have hwithin : Within c := ⟨hfits, trivial⟩
    exact ⟨run_eq_of_within calls hwithin, fun ids hids => map_reads (Prod.ext hids rfl),
      reads_ascend n (within_run calls hwithin)⟩

/-- Three ids are announced and two can be read. -/
theorem run_exact_unfinished :
    let c : PostingCursor := { data := #[1, 2], skips := #[⟨1, 0, 3⟩] }
    let calls : List PostingCall := [.fill 1, .contains 3, .fill 2]
    (∀ entry ∈ c.skips, Fits c.data entry) ∧
      (c.run calls).1 =
        [.ok (.served [1]), .ok (.found true), .error .varintUnfinished] ∧
      Failure.varintUnfinished.kind = .storage ∧
      Exact.run c calls = some (c.run calls) ∧
      c.reads 2 = [(1, 1), (1, 3)] ∧
      (c.reads 2).Pairwise fun a b => a.1 = b.1 → a.2 ≤ b.2 := by
  intro c calls
  have hsums : Sums c.data 2 1 1 := by
    rintro _ _ ⟨⟩
    refine ⟨by decide, ?_⟩
    rintro _ _ ⟨⟩
  have hfits : ∀ entry ∈ c.skips, Fits c.data entry := by
    intro entry hentry
    obtain rfl : entry = ⟨1, 0, 3⟩ := by simpa [c] using hentry
    rintro _ _ ⟨⟩
    exact ⟨by decide, hsums⟩
  have hrun : (c.run calls).1 =
      [.ok (.served [1]), .ok (.found true), .error .varintUnfinished] := by cbv
  obtain ⟨hkinds, -, hexact⟩ := run_exact c.data c.skips calls 0
  obtain ⟨-, -, hstart⟩ := run_exact c.data c.skips [] 2
  have hkind : Failure.varintUnfinished.kind = .storage := by
    obtain ⟨a, ha⟩ | ⟨e, he, hkind⟩ := hkinds (.error .varintUnfinished) (by rw [hrun]; simp)
    · cases ha
    · exact Except.error.inj he ▸ hkind
  exact ⟨hfits, hrun, hkind, (hexact hfits).1, by cbv, (hstart hfits).2.2⟩

/-- One wrong byte behind the largest id but one takes the next id past the largest, and it comes
out as the smallest. A count of zero is taken below zero. -/
theorem run_wraps :
    let data : Array UInt8 := #[0xFE, 0xFF, 0xFF, 0xFF, 0xFF, 0xFF, 0xFF, 0xFF, 0xFF, 0x01, 0x02]
    let c : PostingCursor := { data, skips := #[⟨18446744073709551614, 0, 2⟩] }
    let uncounted : PostingCursor := { data := #[5], skips := #[⟨5, 0, 0⟩] }
    (c.fill 2).1 = .ok [18446744073709551614, 0] ∧
      c.reads 2 = [(1, 18446744073709551614), (1, 0)] ∧
      Exact.run c [.fill 2] = none ∧ Exact.run uncounted [.fill 1] = none := by
  intro data c uncounted
  refine ⟨?_, ?_, ?_, ?_⟩
  · cbv
  · cbv
  · cbv
  · cbv

/-! ### What is written -/

theorem sums_of_ascending {data : Array UInt8} {offset : Nat} {current : DocId} {more : List DocId}
    (hb : Posting.deltaBytes current more <+: data.toList.drop offset)
    (ha : Ascending (current :: more)) : Sums data more.length offset current.toNat := by
  induction more generalizing offset current with
  | nil => trivial
  | cons d more ih =>
    obtain ⟨hlt, ha'⟩ := List.pairwise_cons.mp ha
    have hle : current ≤ d := UInt64.le_of_lt (hlt d List.mem_cons_self)
    have hsum : current.toNat + (d - current).toNat = d.toNat := by
      rw [UInt64.toNat_sub_of_le _ _ hle]
      exact Nat.add_sub_of_le hle
    rw [Posting.deltaBytes] at hb
    intro delta used hdecode
    have hread := decodeAt_of_prefix hb
    rw [hread] at hdecode
    obtain ⟨rfl, rfl⟩ := Prod.mk.inj (Except.ok.inj hdecode)
    rw [hsum]
    exact ⟨d.toNat_lt, ih (prefix_behind hb) ha'⟩

/-- The blocks of a list that is written stay within words. -/
theorem fits_of_encode {size : Nat} {docs : List DocId} {data : Bytes} {skips : List SkipEntry}
    (h : Posting.encode size docs = .ok (data, skips)) (hd : docs.length < UInt32.size) :
    ∀ entry ∈ skips, Fits data.toArray entry := by
  intro entry hentry
  obtain ⟨-, ha, -⟩ := Posting.encode_ok h
  obtain ⟨block, hblock, hloc⟩ := forall₂_mem_right (Posting.encode_layout h hd).flip hentry
  rw [← flatten_chunks size docs] at ha
  have hasc : Ascending block := ha.sublist (List.sublist_flatten_of_mem hblock)
  obtain ⟨first, more, rfl⟩ := List.exists_cons_of_ne_nil hloc.nonempty
  have hbytes := hloc.bytes
  rw [Posting.deltaBytes, UInt64.sub_zero] at hbytes
  intro v used hdecode
  have hread := decodeAt_of_prefix hbytes
  rw [hread] at hdecode
  obtain ⟨rfl, rfl⟩ := Prod.mk.inj (Except.ok.inj hdecode)
  have hcount : entry.count.toNat = more.length + 1 := hloc.count
  refine ⟨fun hzero => ?_, ?_⟩
  · rw [hzero] at hcount
    cases hcount
  · rw [hcount, Nat.add_sub_cancel]
    exact sums_of_ascending (prefix_behind hbytes) hasc

/-- No call on a list that was written overflows. -/
theorem run_exact_of_encode {size : Nat} {docs : List DocId} {data : Bytes} {skips : List SkipEntry}
    (h : Posting.encode size docs = .ok (data, skips)) (hd : docs.length < UInt32.size)
    (calls : List PostingCall) :
    let c : PostingCursor := { data := data.toArray, skips := skips.toArray }
    Exact.run c calls = some (c.run calls) := by
  intro c
  have hfits : ∀ entry ∈ c.skips, Fits c.data entry := fun entry hentry =>
    fits_of_encode h hd entry (List.mem_toArray.mp hentry)
  exact run_eq_of_within calls ⟨hfits, trivial⟩

end Concordance.PostingCursor
