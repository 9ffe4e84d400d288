import Concordance.Chunks
import Concordance.Source
import Concordance.Varint

/-!
# Posting lists

An ascending list of document ids, stored in blocks: the first id of a block in full, then the
difference to each next one, all as varints. A skip entry per block says where it starts.
`PostingCursor` reads a list block after block and answers membership from a single block.
-/

namespace Concordance

structure SkipEntry where
  firstDoc : DocId
  offset : UInt32
  count : UInt32
  deriving DecidableEq, Inhabited

namespace Posting

def ascending : List DocId → Bool
  | a :: b :: rest => a < b && ascending (b :: rest)
  | _ => true

/-- The bytes of ids that follow `last`, each as the difference to the one before it. -/
def deltaBytes (last : DocId) : List DocId → Bytes
  | [] => []
  | d :: rest => Varint.encode (d - last) ++ deltaBytes d rest

/-- The bytes and the skip entries of blocks, the first of them at `offset`. -/
def encodeBlocks (offset : Nat) : List (List DocId) → Except Failure (Bytes × List SkipEntry)
  | [] => .ok ([], [])
  | block :: rest =>
      if UInt32.size ≤ offset then .error .postingsTooLong
      else
        let bytes := deltaBytes 0 block
        let entry := ⟨block.headD 0, UInt32.ofNat offset, UInt32.ofNat block.length⟩
        match encodeBlocks (offset + bytes.length) rest with
        | .ok (more, entries) => .ok (bytes ++ more, entry :: entries)
        | .error e => .error e

def encode (blockSize : Nat) (docs : List DocId) : Except Failure (Bytes × List SkipEntry) :=
  if blockSize = 0 then .error (.notPositive "posting block size")
  else if !ascending docs then .error .notAscending
  else encodeBlocks 0 (chunks blockSize docs)

end Posting

structure PostingStore where
  data : Array UInt8 := #[]
  skips : Array SkipEntry := #[]

namespace PostingStore

/-- Writes the blocks of a list that starts at `base`. A block too far behind the start is refused,
and the blocks before it stay written. -/
def writeBlocks (base : Nat) (store : PostingStore) :
    List (List DocId) → Except Failure Unit × PostingStore
  | [] => (.ok (), store)
  | block :: rest =>
      let offset := store.data.size - base
      if UInt32.size ≤ offset then (.error .postingsTooLong, store)
      else
        let entry := ⟨block.headD 0, UInt32.ofNat offset, UInt32.ofNat block.length⟩
        writeBlocks base
          { data := store.data ++ Posting.deltaBytes 0 block, skips := store.skips.push entry } rest

/-- Writes one more list at the end of the store; the offsets of the new skip entries count from
where the list starts. -/
def append (store : PostingStore) (blockSize : Nat) (docs : List DocId) :
    Except Failure Unit × PostingStore :=
  if blockSize = 0 then (.error (.notPositive "posting block size"), store)
  else if !Posting.ascending docs then (.error .notAscending, store)
  else store.writeBlocks store.data.size (chunks blockSize docs)

end PostingStore

structure PostingCursor where
  data : Array UInt8
  skips : Array SkipEntry
  /-- The block to open when the current one is used up. -/
  nextBlock : Nat := 0
  offset : Nat := 0
  remaining : UInt32 := 0
  last : DocId := 0

namespace PostingCursor

/-- The varint at an offset, which may be the end of the data but not beyond it. -/
@[inline] def decodeAt (data : Array UInt8) (offset : Nat) : Except Failure (UInt64 × Nat) :=
  if offset ≤ data.size then Varint.decodeAt data offset else .error .postingOffset

def docFreq (c : PostingCursor) : UInt64 :=
  c.skips.foldl (fun n entry => n + entry.count.toUInt64) 0

/-- The next id. A block whose first id cannot be read counts as opened. -/
def next (c : PostingCursor) : Except Failure (Option DocId) × PostingCursor :=
  if c.remaining = 0 then
    match c.skips[c.nextBlock]? with
    | none => (.ok none, c)
    | some entry =>
        match decodeAt c.data entry.offset.toNat with
        | .error e => (.error e, { c with nextBlock := c.nextBlock + 1 })
        | .ok (first, used) =>
            (.ok (some first),
              { c with
                nextBlock := c.nextBlock + 1
                offset := entry.offset.toNat + used
                remaining := entry.count - 1
                last := first })
  else
    match decodeAt c.data c.offset with
    | .error e => (.error e, c)
    | .ok (delta, used) =>
        (.ok (some (c.last + delta)),
          { c with
            offset := c.offset + used
            remaining := c.remaining - 1
            last := c.last + delta })

def fill (c : PostingCursor) : Nat → Except Failure (List DocId) × PostingCursor
  | 0 => (.ok [], c)
  | n + 1 =>
      match c.next with
      | (.error e, c') => (.error e, c')
      | (.ok none, c') => (.ok [], c')
      | (.ok (some d), c') =>
          match c'.fill n with
          | (.ok ids, c'') => (.ok (d :: ids), c'')
          | (.error e, c'') => (.error e, c'')

/-- Reads on from `current` until an id is not below `target`, at most `steps` times: the id
reached. -/
def advance (data : Array UInt8) (target : DocId) :
    (steps offset : Nat) → (current : DocId) → Except Failure DocId
  | 0, _, current => .ok current
  | steps + 1, offset, current =>
      if target ≤ current then .ok current
      else
        match decodeAt data offset with
        | .error e => .error e
        | .ok (delta, used) => advance data target steps (offset + used) (current + delta)

/-- Whether an id is in the list: only the last block that starts at or before it is read. -/
def contains (c : PostingCursor) (d : DocId) : Except Failure Bool :=
  match partitionPoint c.skips.size fun i => c.skips[i]?.any (·.firstDoc ≤ d) with
  | 0 => .ok false
  | block + 1 =>
      match c.skips[block]? with
      | none => .ok false
      | some entry =>
          match decodeAt c.data entry.offset.toNat with
          | .error e => .error e
          | .ok (first, used) =>
              (advance c.data d (entry.count.toNat - 1) (entry.offset.toNat + used) first).map
                (· == d)

def reset (c : PostingCursor) : PostingCursor := { data := c.data, skips := c.skips }

/-! ### The cursor as a source -/

/-- The number of ids read from a block once it is opened. -/
def blockIds (entry : SkipEntry) : Nat := (entry.count - 1).toNat + 1

def blocksIds : List SkipEntry → Nat
  | [] => 0
  | entry :: rest => blockIds entry + blocksIds rest

def left (c : PostingCursor) : Nat :=
  c.remaining.toNat + blocksIds (c.skips.toList.drop c.nextBlock)

theorem left_opened {c : PostingCursor} {entry : SkipEntry} (offset : Nat) (last : DocId)
    (h : c.skips[c.nextBlock]? = some entry) :
    ({ c with
        nextBlock := c.nextBlock + 1
        offset := offset
        remaining := entry.count - 1
        last := last } : PostingCursor).left + 1 ≤ c.left := by
  have hd : c.skips.toList.drop c.nextBlock = entry :: c.skips.toList.drop (c.nextBlock + 1) := by
    obtain ⟨hlt, rfl⟩ := Array.getElem?_eq_some_iff.mp h
    exact List.drop_eq_getElem_cons (by simpa using hlt)
  simp only [left, hd, blocksIds, blockIds]
  omega

theorem left_read {c : PostingCursor} (offset : Nat) (last : DocId) (hr : ¬c.remaining = 0) :
    ({ c with
        offset := offset
        remaining := c.remaining - 1
        last := last } : PostingCursor).left + 1 ≤ c.left := by
  have hne : c.remaining.toNat ≠ 0 := fun e => hr (UInt32.toNat_inj.mp (by simpa using e))
  have hsub : (c.remaining - 1).toNat = c.remaining.toNat - 1 :=
    UInt32.toNat_sub_of_le _ _ (by rw [UInt32.le_iff_toNat_le]; simp; omega)
  simp only [left, hsub]
  omega

theorem left_next {c c' : PostingCursor} {d : DocId} (h : c.next = (.ok (some d), c')) :
    c'.left + 1 ≤ c.left := by
  unfold next at h
  split at h
  · split at h
    · simp at h
    · rename_i entry hentry
      split at h
      · simp at h
      · rw [← (Prod.mk.inj h).2]
        exact left_opened _ _ hentry
  · rename_i hr
    split at h
    · simp at h
    · rw [← (Prod.mk.inj h).2]
      exact left_read _ _ hr

theorem eq_of_next_none {c c' : PostingCursor} (h : c.next = (.ok none, c')) : c' = c := by
  unfold next at h
  split at h
  · split at h
    · exact (Prod.mk.inj h).2.symm
    · split at h <;> simp at h
  · split at h <;> simp at h

theorem left_fill {n : Nat} {c c' : PostingCursor} {ids : List DocId}
    (h : c.fill n = (.ok ids, c')) : c'.left + ids.length ≤ c.left := by
  induction n generalizing c c' ids with
  | zero =>
    simp only [fill, Prod.mk.injEq, Except.ok.injEq] at h
    obtain ⟨rfl, rfl⟩ := h
    simp
  | succ n ih =>
    unfold fill at h
    split at h
    · simp at h
    · rename_i hn
      simp only [Prod.mk.injEq, Except.ok.injEq] at h
      obtain ⟨rfl, rfl⟩ := h
      rw [eq_of_next_none hn]
      simp
    · rename_i d c₁ hn
      split at h
      · rename_i more c₂ hf
        simp only [Prod.mk.injEq, Except.ok.injEq] at h
        obtain ⟨rfl, rfl⟩ := h
        have h1 := left_next hn
        have h2 := ih hf
        simp only [List.length_cons]
        omega
      · simp at h

instance : IdSource PostingCursor where
  fill := fill
  reset := reset
  left := left
  left_fill := left_fill

end PostingCursor

end Concordance
