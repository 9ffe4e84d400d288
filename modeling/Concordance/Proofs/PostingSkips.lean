import Concordance.Proofs.PostingCalls

/-!
# Skip entries

The entry written for a block gives its first id and the position of its bytes exactly, and the
number of its ids in 32 bits: `append_skips`. So the counts are the numbers of ids, and add up to
the length of the list, where no block has 2^32 ids; `append_skips_wraps` is a block that has.
-/

namespace Concordance

namespace Posting

/-- The ids of one block of a list. -/
def block (blockSize : Nat) (docs : List DocId) (i : Nat) : List DocId :=
  (docs.drop (i * blockSize)).take blockSize

/-- The bytes of the blocks before one. -/
def bytesBefore (blockSize : Nat) (docs : List DocId) (i : Nat) : Bytes :=
  (List.range i).flatMap fun j => deltaBytes 0 (block blockSize docs j)

/-- What the entry of a block says of a list and its bytes. -/
structure Describes (blockSize : Nat) (docs : List DocId) (data : Bytes) (i : Nat)
    (entry : SkipEntry) : Prop where
  first : docs[i * blockSize]? = some entry.firstDoc
  offset : entry.offset.toNat = (bytesBefore blockSize docs i).length
  bytes : bytesBefore blockSize docs i ++ deltaBytes 0 (block blockSize docs i) <+: data
  count : entry.count.toNat = (block blockSize docs i).length % UInt32.size

/-! ### Blocks -/

theorem block_of_le {blockSize i : Nat} {docs : List DocId} (h : docs.length ≤ i * blockSize) :
    block blockSize docs i = [] := by
  rw [block, List.drop_eq_nil_of_le h, List.take_nil]

theorem take_chunks_bytes {blockSize : Nat} (hsize : 0 < blockSize) (docs : List DocId) (i : Nat) :
    ((chunks blockSize docs).take i).flatMap (deltaBytes 0) = bytesBefore blockSize docs i := by
  induction i with
  | zero => rfl
  | succ i ih =>
    have hbytes : (chunks blockSize docs)[i]?.toList.flatMap (deltaBytes 0) =
        deltaBytes 0 (block blockSize docs i) := by
      rw [getElem?_chunks hsize]
      split
      · exact List.append_nil _
      · rename_i hbehind
        rw [block_of_le (Nat.le_of_not_lt hbehind)]
        rfl
    rw [List.take_add_one, List.flatMap_append, ih, hbytes, bytesBefore, bytesBefore,
      List.range_succ, List.flatMap_append, List.flatMap_singleton]

theorem headD_block {blockSize i : Nat} {docs : List DocId} (hsize : 0 < blockSize)
    (hi : i * blockSize < docs.length) :
    docs[i * blockSize]? = some ((block blockSize docs i).headD 0) := by
  obtain ⟨k, rfl⟩ := Nat.exists_eq_add_one.mpr hsize
  rw [block, List.drop_eq_getElem_cons hi, List.take_succ_cons, List.headD_cons]
  exact List.getElem?_eq_getElem hi

/-! ### Encoding -/

theorem encodeBlocks_data {offset : Nat} {blocks : List (List DocId)} {data : Bytes}
    {skips : List SkipEntry} (h : encodeBlocks offset blocks = .ok (data, skips)) :
    data = blocks.flatMap (deltaBytes 0) := by
  induction blocks generalizing offset data skips with
  | nil =>
    obtain ⟨rfl, -⟩ := Prod.mk.inj (Except.ok.inj h)
    rfl
  | cons block rest ih =>
    obtain ⟨-, more, entries, hrest, rfl, -⟩ := encodeBlocks_cons_ok h
    rw [List.flatMap_cons, ih hrest]

theorem encodeBlocks_entry {offset i : Nat} {blocks : List (List DocId)} {block : List DocId}
    {data : Bytes} {skips : List SkipEntry} (h : encodeBlocks offset blocks = .ok (data, skips))
    (hb : blocks[i]? = some block) :
    ∃ position, position = offset + ((blocks.take i).flatMap (deltaBytes 0)).length ∧
      position < UInt32.size ∧
      skips[i]? =
        some ⟨block.headD 0, UInt32.ofNat position, UInt32.ofNat block.length⟩ := by
  induction blocks generalizing offset i data skips with
  | nil => cases hb
  | cons first rest ih =>
    obtain ⟨hlt, more, entries, hrest, -, rfl⟩ := encodeBlocks_cons_ok h
    cases i with
    | zero =>
      obtain rfl := Option.some.inj hb
      exact ⟨offset, rfl, hlt, rfl⟩
    | succ i =>
      obtain ⟨position, hposition, hroom, hentry⟩ := ih hrest hb
      refine ⟨position, ?_, hroom, hentry⟩
      rw [hposition, List.take_succ_cons, List.flatMap_cons, List.length_append, Nat.add_assoc]

theorem encodeBlocks_counts {offset : Nat} {blocks : List (List DocId)} {data : Bytes}
    {skips : List SkipEntry} (h : encodeBlocks offset blocks = .ok (data, skips)) :
    skips.map (·.count.toNat) = (blocks.map List.length).map (· % UInt32.size) := by
  induction blocks generalizing offset data skips with
  | nil =>
    obtain ⟨-, rfl⟩ := Prod.mk.inj (Except.ok.inj h)
    rfl
  | cons block rest ih =>
    obtain ⟨-, more, entries, hrest, -, rfl⟩ := encodeBlocks_cons_ok h
    rw [List.map_cons, List.map_cons, List.map_cons, ih hrest, UInt32.toNat_ofNat']

theorem sum_mod_le (bound : Nat) (ns : List Nat) : (ns.map (· % bound)).sum ≤ ns.sum := by
  induction ns with
  | nil => exact Nat.le_refl _
  | cons n ns ih =>
    rw [List.map_cons, List.sum_cons, List.sum_cons]
    exact Nat.add_le_add (Nat.mod_le n bound) ih

/-- A sum of remainders is the sum of the numbers when none of them is cut. -/
theorem sum_mod_eq_iff {bound : Nat} (hbound : 0 < bound) (ns : List Nat) :
    (ns.map (· % bound)).sum = ns.sum ↔ ∀ n ∈ ns, n < bound := by
  induction ns with
  | nil => simp
  | cons n ns ih =>
    have hfirst := Nat.mod_le n bound
    have hothers := sum_mod_le bound ns
    rw [List.map_cons, List.sum_cons, List.sum_cons, List.forall_mem_cons, ← ih,
      ← Nat.mod_eq_iff_lt hbound.ne']
    omega

/-- Behind the blocks before it stand the bytes of a block. -/
theorem bytes_block {blockSize i : Nat} {docs : List DocId} {data : Bytes} {skips : List SkipEntry}
    (hsize : 0 < blockSize) (h : encodeBlocks 0 (chunks blockSize docs) = .ok (data, skips)) :
    bytesBefore blockSize docs i ++ deltaBytes 0 (block blockSize docs i) <+: data := by
  have hsucc : bytesBefore blockSize docs i ++ deltaBytes 0 (block blockSize docs i) =
      bytesBefore blockSize docs (i + 1) := by
    rw [bytesBefore, bytesBefore, List.range_succ, List.flatMap_append, List.flatMap_singleton]
  refine ⟨((chunks blockSize docs).drop (i + 1)).flatMap (deltaBytes 0), ?_⟩
  rw [hsucc, ← take_chunks_bytes hsize, ← List.flatMap_append, List.take_append_drop,
    encodeBlocks_data h]

theorem encodeBlocks_describes {blockSize i : Nat} {docs : List DocId} {data : Bytes}
    {skips : List SkipEntry} {entry : SkipEntry} (hsize : 0 < blockSize)
    (h : encodeBlocks 0 (chunks blockSize docs) = .ok (data, skips))
    (hi : i * blockSize < docs.length) (hentry : skips[i]? = some entry) :
    Describes blockSize docs data i entry := by
  have hchunk : (chunks blockSize docs)[i]? = some (block blockSize docs i) := by
    rw [getElem?_chunks hsize, if_pos hi]
    rfl
  obtain ⟨position, hposition, hroom, hwritten⟩ := encodeBlocks_entry h hchunk
  obtain rfl := Option.some.inj (hentry.symm.trans hwritten)
  rw [Nat.zero_add, take_chunks_bytes hsize] at hposition
  refine ⟨headD_block hsize hi, ?_, bytes_block hsize h, UInt32.toNat_ofNat'⟩
  rw [UInt32.toNat_ofNat_of_lt' hroom, hposition]

/-- Every count is the number of ids of its block when even the longest block fits. -/
theorem counts_iff {blockSize : Nat} {docs : List DocId} {data : Bytes} {skips : List SkipEntry}
    (hsize : 0 < blockSize) (h : encodeBlocks 0 (chunks blockSize docs) = .ok (data, skips)) :
    (∀ i entry, skips[i]? = some entry → entry.count.toNat = (block blockSize docs i).length) ↔
      min blockSize docs.length < UInt32.size := by
  have hlength : skips.length = (chunks blockSize docs).length := length_encodeBlocks h
  have hbound : 0 < UInt32.size := by decide
  constructor
  · intro hexact
    refine (forall_length_chunks_lt hsize hbound docs).mp fun chunk hchunk => ?_
    obtain ⟨i, hi⟩ := List.getElem?_of_mem hchunk
    have hlt : i < (chunks blockSize docs).length := (List.getElem?_eq_some_iff.mp hi).1
    have hin := (lt_length_chunks_iff hsize docs i).mp hlt
    have hentry : skips[i]? = some skips[i] := List.getElem?_eq_getElem (hlength ▸ hlt)
    have hcount := (encodeBlocks_describes hsize h hin hentry).count
    rw [getElem?_chunks hsize, if_pos hin] at hi
    obtain rfl : block blockSize docs i = chunk := Option.some.inj hi
    rw [← hexact i _ hentry, hcount]
    exact Nat.mod_lt _ hbound
  · intro hfits i entry hentry
    have hlt : i < (chunks blockSize docs).length :=
      hlength ▸ (List.getElem?_eq_some_iff.mp hentry).1
    have hin := (lt_length_chunks_iff hsize docs i).mp hlt
    have hblock : (block blockSize docs i).length ≤ min blockSize docs.length := by
      rw [block, List.length_take, List.length_drop]
      omega
    rw [(encodeBlocks_describes hsize h hin hentry).count]
    exact Nat.mod_eq_of_lt (Nat.lt_of_le_of_lt hblock hfits)

theorem sum_length_chunks (size : Nat) (docs : List DocId) :
    ((chunks size docs).map List.length).sum = docs.length := by
  rw [← List.length_flatten, flatten_chunks]

theorem sum_counts_iff {blockSize : Nat} {docs : List DocId} {data : Bytes}
    {skips : List SkipEntry} (hsize : 0 < blockSize)
    (h : encodeBlocks 0 (chunks blockSize docs) = .ok (data, skips)) :
    (skips.map (·.count.toNat)).sum = docs.length ↔ min blockSize docs.length < UInt32.size := by
  have hbound : 0 < UInt32.size := by decide
  calc (skips.map (·.count.toNat)).sum = docs.length
    _ ↔ (((chunks blockSize docs).map List.length).map (· % UInt32.size)).sum =
          ((chunks blockSize docs).map List.length).sum := by
        rw [encodeBlocks_counts h, sum_length_chunks]
    _ ↔ ∀ chunk ∈ chunks blockSize docs, chunk.length < UInt32.size := by
        rw [sum_mod_eq_iff hbound, List.forall_mem_map]
    _ ↔ min blockSize docs.length < UInt32.size := forall_length_chunks_lt hsize hbound docs

end Posting

namespace PostingStore

open Posting

variable {store store' : PostingStore}

/-- Of a list that is written, the entry of each block has the block's first id and position, and
its number of ids modulo 2^32. The counts are the numbers of ids exactly when no block has 2^32 of
them, and only then they add up to the length of the list. -/
theorem append_skips {blockSize : Nat} {docs : List DocId}
    (h : store.append blockSize docs = (.ok (), store')) :
    ∃ data : Array UInt8, ∃ skips : Array SkipEntry,
      store'.data = store.data ++ data ∧ store'.skips = store.skips ++ skips ∧
        data.toList = bytesBefore blockSize docs skips.size ∧
        (∀ i, i < skips.size ↔ i * blockSize < docs.length) ∧
        (∀ i entry, skips[i]? = some entry → Describes blockSize docs data.toList i entry) ∧
        ((∀ i entry, skips[i]? = some entry →
            entry.count.toNat = (block blockSize docs i).length) ↔
          min blockSize docs.length < UInt32.size) ∧
        ((skips.toList.map (·.count.toNat)).sum = docs.length ↔
          min blockSize docs.length < UInt32.size) := by
  obtain ⟨data, skips, hencode, hdata, hskips⟩ := append_ok h
  obtain ⟨hsize, -, hblocks⟩ := encode_ok hencode
  have hlength : skips.length = (chunks blockSize docs).length := length_encodeBlocks hblocks
  have hin : ∀ i, i < skips.length ↔ i * blockSize < docs.length :=
    fun i => hlength ▸ lt_length_chunks_iff hsize docs i
  have hentries : ∀ i entry, skips[i]? = some entry → Describes blockSize docs data i entry :=
    fun i entry hi => encodeBlocks_describes hsize hblocks
      ((hin i).mp (List.getElem?_eq_some_iff.mp hi).1) hi
  refine ⟨data.toArray, skips.toArray, hdata, hskips, ?_, hin, ?_, ?_, ?_⟩
  · rw [List.size_toArray, hlength, ← take_chunks_bytes hsize, List.take_length]
    exact encodeBlocks_data hblocks
  · simpa using hentries
  · simpa using counts_iff hsize hblocks
  · exact sum_counts_iff hsize hblocks

/-- Three ids in blocks of two, behind a list that has an entry. -/
theorem append_skips_three :
    let store : PostingStore := { data := #[9], skips := #[⟨4, 0, 1⟩] }
    let docs : List DocId := [1, 200, 40000]
    let store' : PostingStore :=
      { data := #[9, 1, 0xc7, 1, 0xc0, 0xb8, 2]
        skips := #[⟨4, 0, 1⟩, ⟨1, 0, 2⟩, ⟨40000, 3, 1⟩] }
    store.append 2 docs = (.ok (), store') ∧
      ∃ data : Array UInt8, ∃ skips : Array SkipEntry,
        store'.data = #[9] ++ data ∧ store'.skips = #[⟨4, 0, 1⟩] ++ skips ∧
          data.toList = bytesBefore 2 docs skips.size ∧
          (∀ i entry, skips[i]? = some entry → Describes 2 docs data.toList i entry) ∧
          (∀ i entry, skips[i]? = some entry → entry.count.toNat = (block 2 docs i).length) ∧
          (skips.toList.map (·.count.toNat)).sum = 3 := by
  intro store docs store'
  have hstore : store.append 2 docs = (.ok (), store') := by cbv
  obtain ⟨data, skips, hdata, hskips, hbytes, -, hentries, hcounts, hsum⟩ := append_skips hstore
  have hfits : min 2 docs.length < UInt32.size := by decide
  exact ⟨hstore, data, skips, hdata, hskips, hbytes, hentries, hcounts.mpr hfits, hsum.mpr hfits⟩

/-! ### A block too long for its count -/

theorem append_one_block (store : PostingStore) {blockSize : Nat} {docs : List DocId}
    (hne : docs ≠ []) (hsize : docs.length ≤ blockSize) (ha : Ascending docs) :
    store.append blockSize docs = (.ok (),
      { data := store.data ++ deltaBytes 0 docs
        skips := store.skips.push ⟨docs.headD 0, 0, UInt32.ofNat docs.length⟩ }) := by
  obtain ⟨d, rest, rfl⟩ := List.exists_cons_of_ne_nil hne
  rw [List.length_cons] at hsize
  have hrest : rest.length ≤ blockSize - 1 := by omega
  have hchunks : chunks blockSize (d :: rest) = [d :: rest] := by
    rw [chunks_cons, List.take_of_length_le hrest, List.drop_eq_nil_of_le hrest, chunks]
  have hascending : (!Posting.ascending (d :: rest)) = false := by
    rw [(Posting.ascending_iff _).mpr ha]
    rfl
  rw [append, if_neg (by omega), hascending, if_neg Bool.false_ne_true, hchunks, writeBlocks]
  rw [Nat.sub_self, if_neg (by decide)]
  rfl

/-- The ids from zero on, one more than a count can say. -/
def wholeBlock : List DocId :=
  (List.range UInt32.size).map UInt64.ofNat

theorem length_wholeBlock : wholeBlock.length = UInt32.size := by
  rw [wholeBlock, List.length_map, List.length_range]

theorem ascending_wholeBlock : Ascending wholeBlock := by
  refine List.pairwise_map.mpr (List.Pairwise.imp_of_mem ?_ List.pairwise_lt_range)
  intro a b ha hb hlt
  have hsize : UInt32.size < UInt64.size := by decide
  have ha' := List.mem_range.mp ha
  have hb' := List.mem_range.mp hb
  rw [UInt64.lt_iff_toNat_lt, UInt64.toNat_ofNat_of_lt' (by omega),
    UInt64.toNat_ofNat_of_lt' (by omega)]
  exact hlt

/-- A block of 2^32 ids is written without an error, and its entry counts none of them. -/
theorem append_skips_wraps :
    Ascending wholeBlock ∧ wholeBlock.length = UInt32.size ∧
      ∃ store', ({} : PostingStore).append UInt32.size wholeBlock = (.ok (), store') ∧
        store'.skips = #[⟨0, 0, 0⟩] ∧
        (store'.skips.toList.map (·.count.toNat)).sum ≠ wholeBlock.length := by
  have hlength := length_wholeBlock
  have hne : wholeBlock ≠ [] := fun hnil => by
    rw [hnil] at hlength
    cases hlength
  have hhead : wholeBlock.headD 0 = 0 := by
    rw [wholeBlock, List.headD_eq_head?_getD, List.head?_map, List.head?_range]
    rfl
  have hstore := append_one_block {} hne (Nat.le_of_eq hlength) ascending_wholeBlock
  refine ⟨ascending_wholeBlock, hlength, _, hstore, ?_, ?_⟩
  · rw [hhead, hlength]
    rfl
  · rw [hlength]
    decide

end PostingStore

end Concordance
