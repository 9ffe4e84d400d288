import Concordance.Proofs.Calls
import Concordance.Proofs.Posting

/-!
# Posting lists under calls

What a cursor answers, however its calls are mixed, is told by its list and the part of it that is
still to be served: `PostingCursor.run_reads`. A list written at the end of a store is read back by
a cursor over what was written, and a list that cannot be written leaves the store as it was:
`PostingStore.append_reads`.
-/

namespace Concordance

inductive PostingCall where
  | fill (size : Nat)
  | contains (d : DocId)
  | reset

namespace Posting

/-- What a list answers of which `rest` is still to be served, and what is to be served then. -/
def answer (docs rest : List DocId) : PostingCall → Answer × List DocId
  | .fill n => (.served (rest.take n), rest.drop n)
  | .contains d => (.found (decide (d ∈ docs)), rest)
  | .reset => (.rewound, docs)

def run (docs rest : List DocId) : List PostingCall → List Answer × List DocId
  | [] => ([], rest)
  | c :: calls =>
      let later := run docs (answer docs rest c).2 calls
      ((answer docs rest c).1 :: later.1, later.2)

end Posting

/-! ### Cursors -/

namespace PostingCursor

def call (c : PostingCursor) : PostingCall → Except Failure Answer × PostingCursor
  | .fill n => ((c.fill n).1.map .served, (c.fill n).2)
  | .contains d => ((c.contains d).map .found, c)
  | .reset => (.ok .rewound, c.reset)

def run (c : PostingCursor) : List PostingCall → List (Except Failure Answer) × PostingCursor
  | [] => ([], c)
  | first :: calls =>
      let later := run (c.call first).2 calls
      ((c.call first).1 :: later.1, later.2)

variable {c : PostingCursor} {blocks : List (List DocId)} {rest : List DocId}

theorem call_reads (h : Reads blocks c rest) (ha : Ascending blocks.flatten) (first : PostingCall) :
    (c.call first).1 = .ok (Posting.answer blocks.flatten rest first).1 ∧
      Reads blocks (c.call first).2 (Posting.answer blocks.flatten rest first).2 := by
  cases first with
  | fill n =>
    obtain ⟨c', hfill, h'⟩ := fill_reads n h
    simp only [call, hfill]
    exact ⟨rfl, h'⟩
  | contains d =>
    simp only [call, contains_reads h ha]
    exact ⟨rfl, h⟩
  | reset => exact ⟨rfl, reads_reset h⟩

theorem run_reads (h : Reads blocks c rest) (ha : Ascending blocks.flatten)
    (calls : List PostingCall) :
    (c.run calls).1 = (Posting.run blocks.flatten rest calls).1.map .ok ∧
      Reads blocks (c.run calls).2 (Posting.run blocks.flatten rest calls).2 := by
  induction calls generalizing c rest with
  | nil => exact ⟨rfl, h⟩
  | cons first calls ih =>
    obtain ⟨hanswer, hstate⟩ := call_reads h ha first
    obtain ⟨hanswers, hend⟩ := ih hstate
    exact ⟨congrArg₂ List.cons hanswer hanswers, hend⟩

/-- A cursor that reads a list answers calls in any order by it, and knows its length. -/
def Delivers (docs : List DocId) (c : PostingCursor) : Prop :=
  ∀ calls : List PostingCall,
    (c.run calls).1 = (Posting.run docs docs calls).1.map .ok ∧
      (c.run calls).2.docFreq.toNat = docs.length

theorem delivers_of_reads (h : Reads blocks c blocks.flatten) (ha : Ascending blocks.flatten)
    (hlength : blocks.flatten.length < UInt64.size) : Delivers blocks.flatten c := by
  intro calls
  obtain ⟨hanswers, hend⟩ := run_reads h ha calls
  refine ⟨hanswers, ?_⟩
  rw [docFreq_reads hend]
  exact UInt64.toNat_ofNat_of_lt' hlength

end PostingCursor

/-! ### Stores -/

namespace PostingStore

variable {store store' : PostingStore}

theorem size_append_list (front : Array α) (back : List α) :
    (front ++ back).size = front.size + back.length := by
  rw [← Array.length_toList, Array.toList_appendList, List.length_append, Array.length_toList]

/-- What is written behind the start of a list are the bytes and skip entries of its blocks. -/
theorem writeBlocks_ok {base : Nat} {blocks : List (List DocId)} (hbase : base ≤ store.data.size)
    (h : store.writeBlocks base blocks = (.ok (), store')) :
    ∃ data skips, Posting.encodeBlocks (store.data.size - base) blocks = .ok (data, skips) ∧
      store'.data = store.data ++ data.toArray ∧ store'.skips = store.skips ++ skips.toArray := by
  induction blocks generalizing store with
  | nil =>
    obtain rfl : store = store' := congrArg Prod.snd h
    exact ⟨[], [], rfl, by simp, by simp⟩
  | cons block rest ih =>
    unfold writeBlocks at h
    dsimp only at h
    split at h
    · cases h
    · rename_i hlt
      have hsize := size_append_list store.data (Posting.deltaBytes 0 block)
      obtain ⟨data, skips, hencode, hdata, hskips⟩ := ih (by dsimp only; omega) h
      have hoffset : store.data.size + (Posting.deltaBytes 0 block).length - base =
          store.data.size - base + (Posting.deltaBytes 0 block).length := by omega
      dsimp only at hencode hdata hskips
      rw [hsize, hoffset] at hencode
      let entry : SkipEntry := ⟨block.headD 0, UInt32.ofNat (store.data.size - base),
        UInt32.ofNat block.length⟩
      refine ⟨Posting.deltaBytes 0 block ++ data, entry :: skips, ?_, ?_, ?_⟩
      · rw [Posting.encodeBlocks, if_neg hlt]
        simp only [hencode]
        rfl
      · rw [hdata, ← Array.toList_inj]
        simp only [Array.toList_append, Array.toList_appendList, List.append_assoc]
      · rw [hskips, ← Array.toList_inj]
        simp only [Array.toList_append, Array.toList_push, List.append_assoc, List.singleton_append]
        rfl

theorem append_ok {blockSize : Nat} {docs : List DocId}
    (h : store.append blockSize docs = (.ok (), store')) :
    ∃ data skips, Posting.encode blockSize docs = .ok (data, skips) ∧
      store'.data = store.data ++ data.toArray ∧ store'.skips = store.skips ++ skips.toArray := by
  unfold append at h
  split at h
  · cases h
  · rename_i hsize
    split at h
    · cases h
    · rename_i hascending
      obtain ⟨data, skips, hencode, hstore⟩ := writeBlocks_ok (Nat.le_refl _) h
      rw [Nat.sub_self] at hencode
      refine ⟨data, skips, ?_, hstore⟩
      rw [Posting.encode, if_neg hsize, if_neg hascending, hencode]

/-- Blocks that start less than 4 GiB behind the start of their list can be written. -/
theorem writeBlocks_total {base : Nat} {blocks : List (List DocId)} (hbase : base ≤ store.data.size)
    (hroom : store.data.size - base + 10 * blocks.flatten.length < UInt32.size) :
    ∃ store', store.writeBlocks base blocks = (.ok (), store') := by
  induction blocks generalizing store with
  | nil => exact ⟨store, rfl⟩
  | cons block rest ih =>
    have hbytes := Posting.length_deltaBytes_le 0 block
    rw [List.flatten_cons, List.length_append] at hroom
    have hsize := size_append_list store.data (Posting.deltaBytes 0 block)
    unfold writeBlocks
    dsimp only
    rw [if_neg (by omega)]
    exact ih (by dsimp only; omega) (by dsimp only; omega)

theorem append_total {blockSize : Nat} {docs : List DocId} (hsize : 0 < blockSize)
    (ha : Ascending docs) (hroom : 10 * docs.length < UInt32.size) :
    ∃ store', store.append blockSize docs = (.ok (), store') := by
  have hascending : (!Posting.ascending docs) = false := by
    rw [(Posting.ascending_iff docs).mpr ha]
    rfl
  unfold append
  rw [if_neg (by omega), hascending, if_neg Bool.false_ne_true]
  apply writeBlocks_total (Nat.le_refl _)
  rw [flatten_chunks, Nat.sub_self, Nat.zero_add]
  exact hroom

/-- Writing a list only adds to a store, and a cursor over what was added delivers the list. A block
size of zero or a list that is not in order is refused, and the store stays as it was. -/
theorem append_reads (store : PostingStore) (blockSize : Nat) (docs : List DocId) :
    (0 < blockSize → Ascending docs → docs.length < UInt32.size →
        ∀ store', store.append blockSize docs = (.ok (), store') →
          ∃ data : Array UInt8, ∃ skips : Array SkipEntry,
            store'.data = store.data ++ data ∧ store'.skips = store.skips ++ skips ∧
              PostingCursor.Delivers docs { data, skips }) ∧
      (blockSize = 0 ∨ ¬ Ascending docs →
        ∃ e, store.append blockSize docs = (.error e, store)) := by
  constructor
  · intro _ ha hlength store' h
    obtain ⟨data, skips, hencode, hdata, hskips⟩ := append_ok h
    have hlayout := Posting.encode_layout hencode hlength
    have hreads : PostingCursor.Reads (chunks blockSize docs)
        { data := data.toArray, skips := skips.toArray } (chunks blockSize docs).flatten :=
      PostingCursor.reads_start hlayout
    have hdelivers := PostingCursor.delivers_of_reads hreads
    rw [flatten_chunks] at hdelivers
    refine ⟨data.toArray, skips.toArray, hdata, hskips, ?_⟩
    exact hdelivers ha (Nat.lt_trans hlength (by decide))
  · intro hrefused
    unfold append
    by_cases hsize : blockSize = 0
    · exact ⟨_, if_pos hsize⟩
    · have hascending : (!Posting.ascending docs) = true := by
        rw [Bool.not_eq_true', Bool.eq_false_iff, Ne, Posting.ascending_iff]
        exact hrefused.resolve_left hsize
      rw [if_neg hsize, if_pos hascending]
      exact ⟨_, rfl⟩

/-- Three ids in blocks of two, written behind another byte and another skip entry. -/
theorem append_reads_three :
    let store : PostingStore := { data := #[9], skips := #[⟨4, 0, 1⟩] }
    let docs : List DocId := [1, 200, 40000]
    0 < 2 ∧ Ascending docs ∧ docs.length < UInt32.size ∧
      (∃ store', store.append 2 docs = (.ok (), store') ∧
        ∃ data : Array UInt8, ∃ skips : Array SkipEntry,
          store'.data = #[9] ++ data ∧ store'.skips = #[⟨4, 0, 1⟩] ++ skips ∧
            (PostingCursor.run { data, skips }
                [.fill 2, .contains 40000, .contains 7, .fill 5, .reset, .fill 1]).1 =
              [.ok (.served [1, 200]), .ok (.found true), .ok (.found false),
                .ok (.served [40000]), .ok .rewound, .ok (.served [1])]) ∧
      ∃ e, store.append 0 docs = (.error e, store) := by
  intro store docs
  have ha : Ascending docs := by decide
  have hlength : docs.length < UInt32.size := by decide
  obtain ⟨hreads, -⟩ := append_reads store 2 docs
  obtain ⟨-, hrefuses⟩ := append_reads store 0 docs
  obtain ⟨store', hstore⟩ : ∃ store', store.append 2 docs = (.ok (), store') :=
    append_total (by decide) ha (by decide)
  obtain ⟨data, skips, hdata, hskips, hdelivers⟩ := hreads (by decide) ha hlength store' hstore
  refine ⟨by decide, ha, hlength, ⟨store', hstore, data, skips, hdata, hskips, ?_⟩,
    hrefuses (.inl rfl)⟩
  exact (hdelivers _).1

end PostingStore

end Concordance
