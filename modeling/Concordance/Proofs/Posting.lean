import Concordance.Proofs.Ascending
import Concordance.Proofs.Chunks
import Concordance.Proofs.Varint

/-!
# Reading posting lists

A cursor over an encoded list serves the list and tells membership in it: `fill_reads` and
`contains_reads`. Both follow from what a skip entry says about the bytes of its block.
-/

namespace Concordance

namespace Posting

/-- What a skip entry says about the bytes of a list: its block starts at the offset. -/
structure Locates (data : Bytes) (entry : SkipEntry) (block : List DocId) : Prop where
  nonempty : block ≠ []
  first : entry.firstDoc = block.headD 0
  count : entry.count.toNat = block.length
  bytes : deltaBytes 0 block <+: data.drop entry.offset.toNat

/-- The blocks of a list and the skip entries that point to them. -/
abbrev Layout (data : Bytes) : List SkipEntry → List (List DocId) → Prop :=
  List.Forall₂ (Locates data)

theorem encodeBlocks_cons_ok {offset : Nat} {block : List DocId} {rest : List (List DocId)}
    {data : Bytes} {skips : List SkipEntry}
    (h : encodeBlocks offset (block :: rest) = .ok (data, skips)) :
    offset < UInt32.size ∧ ∃ more entries,
      encodeBlocks (offset + (deltaBytes 0 block).length) rest = .ok (more, entries) ∧
      data = deltaBytes 0 block ++ more ∧
      skips = ⟨block.headD 0, UInt32.ofNat offset, UInt32.ofNat block.length⟩ :: entries := by
  unfold encodeBlocks at h
  split at h
  · simp at h
  · rename_i hlt
    dsimp only at h
    split at h
    · rename_i more entries hr
      obtain ⟨rfl, rfl⟩ := Prod.mk.inj (Except.ok.inj h)
      exact ⟨by omega, more, entries, hr, rfl, rfl⟩
    · simp at h

/-- Blocks encoded after other bytes are where their skip entries say. -/
theorem encodeBlocks_layout {blocks : List (List DocId)} (before : Bytes) {data : Bytes}
    {skips : List SkipEntry} (h : encodeBlocks before.length blocks = .ok (data, skips))
    (hb : ∀ b ∈ blocks, b ≠ [] ∧ b.length < UInt32.size) :
    Layout (before ++ data) skips blocks := by
  induction blocks generalizing before data skips with
  | nil =>
    simp only [encodeBlocks, Except.ok.injEq, Prod.mk.injEq] at h
    rw [← h.2]
    exact .nil
  | cons block rest ih =>
    obtain ⟨hlt, more, entries, hr, rfl, rfl⟩ := encodeBlocks_cons_ok h
    obtain ⟨hne, hlen⟩ := hb block List.mem_cons_self
    refine .cons ?_ ?_
    · have ho : (UInt32.ofNat before.length).toNat = before.length := UInt32.toNat_ofNat_of_lt' hlt
      refine ⟨hne, rfl, UInt32.toNat_ofNat_of_lt' hlen, ?_⟩
      rw [ho, List.drop_left]
      exact List.prefix_append _ _
    · rw [← List.append_assoc]
      rw [← List.length_append] at hr
      exact ih _ hr fun b hm => hb b (List.mem_cons_of_mem _ hm)

theorem length_encodeBlocks {offset : Nat} {blocks : List (List DocId)} {data : Bytes}
    {skips : List SkipEntry} (h : encodeBlocks offset blocks = .ok (data, skips)) :
    skips.length = blocks.length := by
  induction blocks generalizing offset data skips with
  | nil =>
    simp only [encodeBlocks, Except.ok.injEq, Prod.mk.injEq] at h
    rw [← h.2]
    rfl
  | cons block rest ih =>
    obtain ⟨_, more, entries, hr, rfl, rfl⟩ := encodeBlocks_cons_ok h
    rw [List.length_cons, List.length_cons, ih hr]

theorem length_deltaBytes_le (last : DocId) (ids : List DocId) :
    (deltaBytes last ids).length ≤ 10 * ids.length := by
  induction ids generalizing last with
  | nil => simp [deltaBytes]
  | cons d ids ih =>
    have h1 := ih d
    have h2 := Varint.length_encode_le (d - last)
    rw [deltaBytes, List.length_append, List.length_cons]
    omega

theorem length_data_encodeBlocks {offset : Nat} {blocks : List (List DocId)} {data : Bytes}
    {skips : List SkipEntry} (h : encodeBlocks offset blocks = .ok (data, skips)) :
    data.length ≤ 10 * blocks.flatten.length := by
  induction blocks generalizing offset data skips with
  | nil =>
    simp only [encodeBlocks, Except.ok.injEq, Prod.mk.injEq] at h
    rw [← h.1]
    simp
  | cons block rest ih =>
    obtain ⟨_, more, entries, hr, rfl, rfl⟩ := encodeBlocks_cons_ok h
    have h1 := ih hr
    have h2 := length_deltaBytes_le 0 block
    rw [List.flatten_cons, List.length_append, List.length_append]
    omega

theorem encode_ok {size : Nat} {docs : List DocId} {data : Bytes} {skips : List SkipEntry}
    (h : encode size docs = .ok (data, skips)) :
    0 < size ∧ Ascending docs ∧ encodeBlocks 0 (chunks size docs) = .ok (data, skips) := by
  unfold encode at h
  split at h
  · simp at h
  · rename_i hs
    split at h
    · simp at h
    · rename_i ha
      exact ⟨Nat.pos_of_ne_zero hs, (ascending_iff docs).mp (by simpa using ha), h⟩

theorem encode_layout {size : Nat} {docs : List DocId} {data : Bytes} {skips : List SkipEntry}
    (h : encode size docs = .ok (data, skips)) (hd : docs.length < UInt32.size) :
    Layout data skips (chunks size docs) := by
  obtain ⟨hs, _, hb⟩ := encode_ok h
  refine encodeBlocks_layout [] hb fun b hm => ⟨ne_nil_of_mem_chunks hm, ?_⟩
  have hsub := (List.sublist_flatten_of_mem hm).length_le
  rw [flatten_chunks] at hsub
  omega

end Posting

namespace PostingCursor

/-- A cursor over a list cut into blocks that has `rest` of the list still to serve. -/
structure Reads (blocks : List (List DocId)) (c : PostingCursor) (rest : List DocId) : Prop where
  layout : Posting.Layout c.data.toList c.skips.toList blocks
  position : ∃ pending,
    c.remaining.toNat = pending.length ∧
    Posting.deltaBytes c.last pending <+: c.data.toList.drop c.offset ∧
    rest = pending ++ (blocks.drop c.nextBlock).flatten

theorem reads_start {data : Array UInt8} {skips : Array SkipEntry} {blocks : List (List DocId)}
    (h : Posting.Layout data.toList skips.toList blocks) :
    Reads blocks { data, skips } blocks.flatten :=
  ⟨h, [], rfl, List.nil_prefix, rfl⟩

theorem reads_reset {blocks : List (List DocId)} {c : PostingCursor} {rest : List DocId}
    (h : Reads blocks c rest) : Reads blocks c.reset blocks.flatten :=
  reads_start h.layout

theorem decodeAt_of_prefix {data : Array UInt8} {offset : Nat} {n : UInt64} {rest : Bytes}
    (h : Varint.encode n ++ rest <+: data.toList.drop offset) :
    decodeAt data offset = .ok (n, (Varint.encode n).length) := by
  obtain ⟨more, hm⟩ := h
  have hne : data.toList.drop offset ≠ [] := by
    rw [← hm, List.append_assoc]
    exact List.append_ne_nil_of_left_ne_nil (Varint.encode_ne_nil n) _
  have hle : offset ≤ data.size := by
    by_cases hle : offset ≤ data.size
    · exact hle
    · exact (hne (List.drop_eq_nil_of_le (by rw [Array.length_toList]; omega))).elim
  rw [decodeAt, if_pos hle, Varint.decodeAt_eq, ← hm, List.append_assoc, Varint.decode_encode]

theorem prefix_behind {data : Bytes} {offset : Nat} {first rest : Bytes}
    (h : first ++ rest <+: data.drop offset) : rest <+: data.drop (offset + first.length) := by
  obtain ⟨more, hm⟩ := h
  refine ⟨more, ?_⟩
  rw [← List.drop_drop, ← hm, List.append_assoc, List.drop_left]

theorem toNat_sub_one {n : UInt32} {k : Nat} (h : n.toNat = k + 1) : (n - 1).toNat = k := by
  have hone : (1 : UInt32) ≤ n := by
    rw [UInt32.le_iff_toNat_le, h]
    simp
  rw [UInt32.toNat_sub_of_le _ _ hone, h]
  simp

/-- Opening a block serves its first id. -/
theorem next_opens {blocks more : List (List DocId)} {block : List DocId} {c : PostingCursor}
    (hl : Posting.Layout c.data.toList c.skips.toList blocks) (hr : c.remaining = 0)
    (hb : blocks.drop c.nextBlock = block :: more) :
    ∃ d rest c', block = d :: rest ∧ c.next = (.ok (some d), c') ∧
      Reads blocks c' (rest ++ more.flatten) := by
  have hlt : c.nextBlock < blocks.length := by
    by_cases hlt : c.nextBlock < blocks.length
    · exact hlt
    · rw [List.drop_eq_nil_of_le (by omega)] at hb
      simp at hb
  have hblock : blocks[c.nextBlock] = block := by
    rw [List.drop_eq_getElem_cons hlt] at hb
    exact (List.cons.inj hb).1
  have hmore : blocks.drop (c.nextBlock + 1) = more := by
    rw [List.drop_eq_getElem_cons hlt] at hb
    exact (List.cons.inj hb).2
  have hlt' : c.nextBlock < c.skips.size := by
    rw [← Array.length_toList, hl.length_eq]
    exact hlt
  have hloc : Posting.Locates c.data.toList c.skips[c.nextBlock] block := by
    have := hl.get (i := c.nextBlock) (by simpa using hlt') hlt
    simpa [hblock] using this
  generalize hentry : c.skips[c.nextBlock] = entry at hloc
  obtain ⟨d, rest, rfl⟩ := List.exists_cons_of_ne_nil hloc.nonempty
  have hbytes := hloc.bytes
  rw [Posting.deltaBytes, UInt64.sub_zero] at hbytes
  have hdec := decodeAt_of_prefix hbytes
  let opened : PostingCursor :=
    { c with
      nextBlock := c.nextBlock + 1
      offset := entry.offset.toNat + (Varint.encode d).length
      remaining := entry.count - 1
      last := d }
  refine ⟨d, rest, opened, rfl, ?_, ?_⟩
  · unfold next
    rw [if_pos hr, Array.getElem?_eq_getElem hlt', hentry]
    simp only [hdec]
    rfl
  · refine ⟨hl, rest, ?_, prefix_behind hbytes, by rw [hmore]⟩
    exact toNat_sub_one hloc.count

theorem next_reads {blocks : List (List DocId)} {c : PostingCursor} {rest : List DocId}
    (h : Reads blocks c rest) :
    ∃ c', c.next = (.ok rest.head?, c') ∧ Reads blocks c' rest.tail := by
  obtain ⟨hl, pending, hrem, hbytes, rfl⟩ := h
  cases pending with
  | nil =>
    have hr : c.remaining = 0 := UInt32.toNat_inj.mp hrem
    cases hb : blocks.drop c.nextBlock with
    | nil =>
      have hnone : c.skips[c.nextBlock]? = none := by
        rw [Array.getElem?_eq_none_iff, ← Array.length_toList, hl.length_eq]
        exact List.drop_eq_nil_iff.mp hb
      refine ⟨c, ?_, hl, [], hrem, hbytes, by rw [hb]; rfl⟩
      unfold next
      rw [if_pos hr, hnone]
      rfl
    | cons block more =>
      obtain ⟨d, rest, c', rfl, hn, hreads⟩ := next_opens hl hr hb
      exact ⟨c', hn, hreads⟩
  | cons d pending =>
    rw [Posting.deltaBytes] at hbytes
    have hdec := decodeAt_of_prefix hbytes
    have hr : ¬c.remaining = 0 := by
      intro hr
      rw [hr] at hrem
      simp at hrem
    have hsum : c.last + (d - c.last) = d := by rw [UInt64.add_comm, UInt64.sub_add_cancel]
    let read : PostingCursor :=
      { c with
        offset := c.offset + (Varint.encode (d - c.last)).length
        remaining := c.remaining - 1
        last := d }
    refine ⟨read, ?_, hl, pending, ?_, ?_, rfl⟩
    · unfold next
      rw [if_neg hr]
      simp only [hdec, hsum]
      rfl
    · exact toNat_sub_one hrem
    · exact prefix_behind hbytes

theorem fill_reads {blocks : List (List DocId)} {c : PostingCursor} {rest : List DocId} (n : Nat)
    (h : Reads blocks c rest) :
    ∃ c', c.fill n = (.ok (rest.take n), c') ∧ Reads blocks c' (rest.drop n) := by
  induction n generalizing c rest with
  | zero => exact ⟨c, rfl, h⟩
  | succ n ih =>
    obtain ⟨c₁, hn, h₁⟩ := next_reads h
    cases rest with
    | nil =>
      refine ⟨c₁, ?_, h₁⟩
      rw [fill, hn]
      rfl
    | cons d rest =>
      obtain ⟨c₂, hf, h₂⟩ := ih h₁
      refine ⟨c₂, ?_, h₂⟩
      rw [fill, hn]
      simp only [List.head?_cons, List.tail_cons] at hf ⊢
      rw [hf]
      rfl

/-! ### Membership -/

/-- Reading on in a block stops at the target or past it, so that it finds the target if it is
there. -/
theorem advance_finds {data : Array UInt8} (target : DocId) {current : DocId} {offset : Nat}
    {more : List DocId} (hb : Posting.deltaBytes current more <+: data.toList.drop offset)
    (ha : Ascending (current :: more)) :
    ∃ d, advance data target more.length offset current = .ok d ∧
      (d == target) = decide (target ∈ current :: more) := by
  induction more generalizing current offset with
  | nil =>
    refine ⟨current, rfl, ?_⟩
    rw [Bool.beq_eq_decide_eq]
    exact decide_eq_decide.mpr ⟨fun h => List.mem_singleton.mpr h.symm,
      fun h => (List.mem_singleton.mp h).symm⟩
  | cons next more ih =>
    obtain ⟨hlt, ha'⟩ := List.pairwise_cons.mp ha
    rw [List.length_cons, advance]
    by_cases hle : target ≤ current
    · refine ⟨current, if_pos hle, ?_⟩
      rw [Bool.beq_eq_decide_eq]
      refine decide_eq_decide.mpr ⟨fun h => h ▸ List.mem_cons_self, fun h => ?_⟩
      rcases List.mem_cons.mp h with h | h
      · exact h.symm
      · exact (UInt64.not_lt.mpr hle (hlt target h)).elim
    · rw [Posting.deltaBytes] at hb
      have hsum : current + (next - current) = next := by rw [UInt64.add_comm, UInt64.sub_add_cancel]
      obtain ⟨d, hd, hfound⟩ := ih (prefix_behind hb) ha'
      refine ⟨d, ?_, ?_⟩
      · rw [if_neg hle, decodeAt_of_prefix hb]
        simp only [hsum]
        exact hd
      · rw [hfound]
        refine decide_eq_decide.mpr ⟨List.mem_cons_of_mem _, fun h => ?_⟩
        rcases List.mem_cons.mp h with rfl | h
        · exact (hle (UInt64.le_refl _)).elim
        · exact h

theorem lt_of_mem_flatten {blocks : List (List DocId)} {d : DocId} (ha : Ascending blocks.flatten)
    (hne : ∀ b ∈ blocks, b ≠ []) (hd : ∀ b ∈ blocks.head?, d < b.headD 0) :
    ∀ x ∈ blocks.flatten, d < x := by
  intro x hx
  cases blocks with
  | nil => simp at hx
  | cons block rest =>
    obtain ⟨first, ids, rfl⟩ := List.exists_cons_of_ne_nil (hne block List.mem_cons_self)
    have hfirst : d < first := hd (first :: ids) rfl
    rw [List.flatten_cons, List.cons_append] at ha hx
    rcases List.mem_cons.mp hx with rfl | hx
    · exact hfirst
    · exact UInt64.lt_trans hfirst ((List.pairwise_cons.mp ha).1 x hx)

/-- When the blocks behind one start after an id and the block itself does not, only the block can
have the id. -/
theorem mem_flatten_iff {before after : List (List DocId)} {block : List DocId} {d : DocId}
    (ha : Ascending (before ++ block :: after).flatten) (hne : block ≠ []) (hb : block.headD 0 ≤ d)
    (hafter : ∀ x ∈ after.flatten, d < x) :
    d ∈ (before ++ block :: after).flatten ↔ d ∈ block := by
  obtain ⟨first, rest, rfl⟩ := List.exists_cons_of_ne_nil hne
  rw [List.flatten_append, List.flatten_cons] at ha ⊢
  obtain ⟨_, _, hbefore⟩ := List.pairwise_append.mp ha
  rw [List.mem_append, List.mem_append]
  refine ⟨?_, fun h => Or.inr (Or.inl h)⟩
  rintro (h | h | h)
  · have := hbefore d h first (List.mem_append_left _ List.mem_cons_self)
    exact (UInt64.not_lt.mpr hb this).elim
  · exact h
  · exact (UInt64.lt_irrefl d (hafter d h)).elim

/-- The blocks that start at or before an id come first. -/
theorem starts_pairwise {blocks : List (List DocId)} (ha : Ascending blocks.flatten)
    (hne : ∀ b ∈ blocks, b ≠ []) (d : DocId) :
    blocks.Pairwise fun a b => decide (b.headD 0 ≤ d) = true → decide (a.headD 0 ≤ d) = true := by
  induction blocks with
  | nil => exact .nil
  | cons block rest ih =>
    rw [List.flatten_cons] at ha
    obtain ⟨_, hrest, hcross⟩ := List.pairwise_append.mp ha
    refine .cons (fun b hb => ?_) (ih hrest fun b hb => hne b (List.mem_cons_of_mem _ hb))
    obtain ⟨x, xs, rfl⟩ := List.exists_cons_of_ne_nil (hne block List.mem_cons_self)
    obtain ⟨y, ys, rfl⟩ := List.exists_cons_of_ne_nil (hne b (List.mem_cons_of_mem _ hb))
    have hxy : x < y := hcross x List.mem_cons_self y (List.mem_flatten_of_mem hb List.mem_cons_self)
    intro hy
    exact decide_eq_true (UInt64.le_trans (UInt64.le_of_lt hxy) (of_decide_eq_true hy))

theorem any_skips_eq {data : Bytes} {skips : Array SkipEntry} {blocks : List (List DocId)}
    (hl : Posting.Layout data skips.toList blocks) (d : DocId) (i : Nat) :
    skips[i]?.any (·.firstDoc ≤ d) = blocks[i]?.any (·.headD 0 ≤ d) := by
  rw [← Array.getElem?_toList]
  generalize skips.toList = entries at hl
  induction hl generalizing i with
  | nil => rfl
  | cons hloc _ ih =>
    cases i with
    | zero => simp only [List.getElem?_cons_zero, Option.any_some, hloc.first]
    | succ i => simpa only [List.getElem?_cons_succ] using ih i

theorem layout_getElem? {data : Bytes} {skips : Array SkipEntry} {blocks : List (List DocId)}
    {i : Nat} {block : List DocId} (hl : Posting.Layout data skips.toList blocks)
    (hb : blocks[i]? = some block) :
    ∃ entry, skips[i]? = some entry ∧ Posting.Locates data entry block := by
  obtain ⟨hi, rfl⟩ := List.getElem?_eq_some_iff.mp hb
  have hi' : i < skips.toList.length := by rw [hl.length_eq]; exact hi
  refine ⟨skips.toList[i], ?_, hl.get hi' hi⟩
  rw [← Array.getElem?_toList, List.getElem?_eq_getElem hi']

theorem layout_nonempty {data : Bytes} {skips : List SkipEntry} {blocks : List (List DocId)}
    (hl : Posting.Layout data skips blocks) : ∀ b ∈ blocks, b ≠ [] := by
  induction hl with
  | nil => simp
  | cons hloc _ ih =>
    intro b hb
    rcases List.mem_cons.mp hb with rfl | hb
    · exact hloc.nonempty
    · exact ih b hb

/-- Halving over the skip entries finds the blocks that start at or before an id. -/
theorem partitionPoint_skips {data : Bytes} {skips : Array SkipEntry} {blocks : List (List DocId)}
    (hl : Posting.Layout data skips.toList blocks) (ha : Ascending blocks.flatten) (d : DocId) :
    partitionPoint skips.size (fun i => skips[i]?.any (·.firstDoc ≤ d)) =
      (blocks.takeWhile fun b => b.headD 0 ≤ d).length := by
  apply partitionPoint_eq
  · intro i _
    rw [any_skips_eq hl]
    exact any_getElem?_eq (starts_pairwise ha (layout_nonempty hl) d) i
  · rw [← Array.length_toList, hl.length_eq]
    exact (List.takeWhile_sublist _).length_le

/-- The blocks behind those that start at or before an id hold larger ids only. -/
theorem lt_of_mem_dropWhile {blocks : List (List DocId)} (ha : Ascending blocks.flatten)
    (hne : ∀ b ∈ blocks, b ≠ []) (d : DocId) :
    ∀ x ∈ (blocks.dropWhile fun b => b.headD 0 ≤ d).flatten, d < x := by
  let starts : List DocId → Bool := fun b => b.headD 0 ≤ d
  apply lt_of_mem_flatten
  · rw [← List.takeWhile_append_dropWhile (p := starts) (l := blocks), List.flatten_append] at ha
    exact (List.pairwise_append.mp ha).2.1
  · intro b hb
    exact hne b ((List.dropWhile_sublist _).subset hb)
  · intro b hb
    have hstop := List.head?_dropWhile_not starts blocks
    rw [Option.mem_def.mp hb] at hstop
    exact UInt64.not_le.mp (of_decide_eq_false hstop)

/-- Reading the block of a skip entry tells whether it has an id. -/
theorem advance_block {data : Array UInt8} {entry : SkipEntry} {block : List DocId}
    (hloc : Posting.Locates data.toList entry block) (hasc : Ascending block) (d : DocId) :
    ∃ first used x, decodeAt data entry.offset.toNat = .ok (first, used) ∧
      advance data d (entry.count.toNat - 1) (entry.offset.toNat + used) first = .ok x ∧
      (x == d) = decide (d ∈ block) := by
  obtain ⟨first, more, rfl⟩ := List.exists_cons_of_ne_nil hloc.nonempty
  have hbytes := hloc.bytes
  rw [Posting.deltaBytes, UInt64.sub_zero] at hbytes
  obtain ⟨x, hx, hfound⟩ := advance_finds d (prefix_behind hbytes) hasc
  have hsteps : entry.count.toNat - 1 = more.length := by
    rw [hloc.count, List.length_cons, Nat.add_sub_cancel]
  rw [hsteps]
  exact ⟨first, _, x, decodeAt_of_prefix hbytes, hx, hfound⟩

/-- A cursor finds an id exactly when its list has it, wherever it stands. -/
theorem contains_reads {blocks : List (List DocId)} {c : PostingCursor} {rest : List DocId}
    (h : Reads blocks c rest) (ha : Ascending blocks.flatten) (d : DocId) :
    c.contains d = .ok (decide (d ∈ blocks.flatten)) := by
  have hl := h.layout
  let starts : List DocId → Bool := fun b => b.headD 0 ≤ d
  have hsplit := List.takeWhile_append_dropWhile (p := starts) (l := blocks)
  have hafter := lt_of_mem_dropWhile ha (layout_nonempty hl) d
  unfold contains
  rw [partitionPoint_skips hl ha d]
  rcases List.eq_nil_or_concat (blocks.takeWhile starts) with hnil | ⟨before, block, hconcat⟩
  · rw [hnil] at hsplit ⊢
    have hnot : d ∉ blocks.flatten := by
      intro hd
      rw [← hsplit, List.nil_append] at hd
      exact UInt64.lt_irrefl d (hafter d hd)
    rw [decide_eq_false hnot]
    rfl
  · have hmem : block ∈ blocks.takeWhile starts := by rw [hconcat]; simp
    have hstart : block.headD 0 ≤ d :=
      of_decide_eq_true (List.all_eq_true.mp List.all_takeWhile block hmem)
    rw [hconcat, List.concat_eq_append, List.append_assoc, List.singleton_append] at hsplit
    have hblock : blocks[before.length]? = some block := by
      rw [← hsplit, List.getElem?_append_right (Nat.le_refl _), Nat.sub_self]
      rfl
    obtain ⟨entry, hentry, hloc⟩ := layout_getElem? hl hblock
    have hasc : Ascending block :=
      ha.sublist (List.sublist_flatten_of_mem (List.mem_of_getElem? hblock))
    obtain ⟨first, used, x, hfirst, hx, hfound⟩ := advance_block hloc hasc d
    rw [← hsplit] at ha
    have hiff := mem_flatten_iff ha hloc.nonempty hstart hafter
    rw [hsplit] at hiff
    rw [hconcat, List.length_concat]
    simp only [hentry, hfirst, hx]
    rw [decide_eq_decide.mpr hiff, ← hfound]
    rfl

/-- The number of ids in the list, which is told from the skip entries. -/
theorem docFreq_reads {blocks : List (List DocId)} {c : PostingCursor} {rest : List DocId}
    (h : Reads blocks c rest) : c.docFreq = UInt64.ofNat blocks.flatten.length := by
  have hl := h.layout
  have hfold : ∀ (skips : List SkipEntry) (bs : List (List DocId)) (n : Nat),
      Posting.Layout c.data.toList skips bs →
      skips.foldl (fun n entry => n + entry.count.toUInt64) (UInt64.ofNat n) =
        UInt64.ofNat (n + bs.flatten.length) := by
    intro skips bs n hbs
    induction hbs generalizing n with
    | nil => rfl
    | cons hloc _ ih =>
      rw [List.foldl_cons, ← UInt64.ofNat_uInt32ToNat, ← UInt64.ofNat_add, ih, hloc.count,
        List.flatten_cons, List.length_append, Nat.add_assoc]
  unfold docFreq
  rw [← Array.foldl_toList]
  have h0 := hfold _ _ 0 hl
  rw [Nat.zero_add] at h0
  exact h0

end PostingCursor

end Concordance
