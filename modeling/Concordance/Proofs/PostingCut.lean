import Mathlib
import Concordance.Proofs.PostingSteps

/-!
# Posting lists cut short

A cursor over a list that lost bytes at its end reads as one over the whole list does until it needs
a missing byte, and then it fails: `next_cut`, `contains_cut`. It needs one before the list is at its
end, since the last block ends where the data ends (`Ends`). So the ids it serves are the first of
the list, and it never takes the list for finished; what does not need a missing byte stays as it
was. `Truncated` lists this, and `append_cut` says it of every list that was written.
-/

namespace Concordance

namespace Posting

/-- The last block ends where the data ends. -/
def Closes (data : Bytes) (skips : List SkipEntry) (blocks : List (List DocId)) : Prop :=
  ∀ i entry block, i + 1 = blocks.length → skips[i]? = some entry → blocks[i]? = some block →
    data.drop entry.offset.toNat = deltaBytes 0 block

theorem encodeBlocks_closes {blocks : List (List DocId)} (before : Bytes) {data : Bytes}
    {skips : List SkipEntry} (h : encodeBlocks before.length blocks = .ok (data, skips)) :
    Closes (before ++ data) skips blocks := by
  induction blocks generalizing before data skips with
  | nil => exact fun i _ _ hi => (Nat.succ_ne_zero i hi).elim
  | cons first rest ih =>
    obtain ⟨hlt, more, entries, hrest, rfl, rfl⟩ := encodeBlocks_cons_ok h
    intro i entry block hi hentry hblock
    cases i with
    | zero =>
      obtain rfl : rest = [] := List.eq_nil_of_length_eq_zero (Nat.succ.inj hi).symm
      obtain rfl := Option.some.inj hentry
      obtain rfl := Option.some.inj hblock
      obtain ⟨rfl, -⟩ := Prod.mk.inj (Except.ok.inj hrest)
      rw [UInt32.toNat_ofNat_of_lt' hlt, List.drop_left, List.append_nil]
    | succ i =>
      rw [← List.length_append] at hrest
      rw [← List.append_assoc]
      exact ih _ hrest i entry block (Nat.succ.inj hi) hentry hblock

theorem data_ne_nil {blockSize : Nat} {docs : List DocId} {data : Bytes} {skips : List SkipEntry}
    (h : encode blockSize docs = .ok (data, skips)) (hne : docs ≠ []) : data ≠ [] := by
  obtain ⟨d, docs, rfl⟩ := List.exists_cons_of_ne_nil hne
  obtain ⟨-, -, hblocks⟩ := encode_ok h
  rw [chunks_cons] at hblocks
  obtain ⟨-, more, entries, -, rfl, -⟩ := encodeBlocks_cons_ok hblocks
  rw [deltaBytes, List.append_assoc]
  exact List.append_ne_nil_of_left_ne_nil (Varint.encode_ne_nil _) _

end Posting

namespace PostingCursor

/-! ### One read of a cut list -/

/-- The same cursor over the first bytes only. -/
def cut (c : PostingCursor) (size : Nat) : PostingCursor := { c with data := c.data.take size }

/-- A varint is read as before, or it ends behind the cut. -/
theorem decodeAt_cut {data : Array UInt8} {offset used : Nat} {v : UInt64} (size : Nat)
    (h : decodeAt data offset = .ok (v, used)) :
    decodeAt (data.take size) offset = .ok (v, used) ∨
      (size < offset + used ∧ ∃ e, decodeAt (data.take size) offset = .error e) := by
  have hwithin := decodeAt_within h
  have hsize : (data.take size).size = min size data.size := by
    rw [Array.take_eq_extract, Array.size_extract, Nat.sub_zero]
  by_cases hle : offset ≤ (data.take size).size
  · have hbytes : (data.take size).toList.drop offset =
        (data.toList.drop offset).take (size - offset) := by
      rw [Array.take_eq_extract, Array.toList_extract, List.extract_eq_take_drop, List.drop_zero,
        Nat.sub_zero, List.drop_take]
    rw [decodeAt, if_pos (by omega), Varint.decodeAt_eq] at h
    rw [decodeAt, if_pos hle, Varint.decodeAt_eq, hbytes, Varint.decode, Varint.decodeFrom_take h]
    by_cases hread : used ≤ 0 + (size - offset)
    · exact .inl (if_pos hread)
    · exact .inr ⟨by omega, _, if_neg hread⟩
  · exact .inr ⟨by omega, _, if_neg hle⟩

variable {c c' : PostingCursor}

theorem next_cut {found : Option DocId} (size : Nat) (h : c.next = (.ok found, c')) :
    (c.cut size).next = (.ok found, c'.cut size) ∨
      (size < c'.offset ∧ ∃ e c'', (c.cut size).next = (.error e, c'')) := by
  have hstep := reading_next c
  rw [h] at hstep
  cases hstep with
  | exhausted hr hblock =>
    left
    simp only [next, cut, if_pos hr, hblock]
  | opened hr hblock hdecode =>
    rcases decodeAt_cut size hdecode with hcut | ⟨hbehind, e, hcut⟩
    · left
      simp only [next, cut, if_pos hr, hblock, hcut]
    · right
      simp only [next, cut, if_pos hr, hblock, hcut]
      exact ⟨hbehind, _, _, rfl⟩
  | read hr hdecode =>
    rcases decodeAt_cut size hdecode with hcut | ⟨hbehind, e, hcut⟩
    · left
      simp only [next, cut, if_neg hr, hcut]
    · right
      simp only [next, cut, if_neg hr, hcut]
      exact ⟨hbehind, _, _, rfl⟩

theorem advance_cut {data : Array UInt8} {target d current : DocId} {steps offset : Nat}
    (size : Nat) (h : advance data target steps offset current = .ok d) :
    advance (data.take size) target steps offset current = .ok d ∨
      ∃ e, advance (data.take size) target steps offset current = .error e := by
  induction steps generalizing offset current with
  | zero => exact .inl h
  | succ steps ih =>
    rw [advance] at h ⊢
    by_cases hle : target ≤ current
    · rw [if_pos hle] at h ⊢
      exact .inl h
    · rw [if_neg hle] at h ⊢
      cases hdecode : decodeAt data offset with
      | error e =>
        rw [hdecode] at h
        cases h
      | ok found =>
        rw [hdecode] at h
        rcases decodeAt_cut size hdecode with hcut | ⟨-, e, hcut⟩
        · rw [hcut]
          exact ih h
        · rw [hcut]
          exact .inr ⟨e, rfl⟩

/-- Asked for an id, a cursor over a cut list answers as one over the whole list or fails. -/
theorem contains_cut {d : DocId} {found : Bool} (size : Nat) (h : c.contains d = .ok found) :
    (c.cut size).contains d = .ok found ∨ ∃ e, (c.cut size).contains d = .error e := by
  have hsame : (c.cut size).blockOf? d = c.blockOf? d := rfl
  cases hblock : c.blockOf? d with
  | none =>
    rw [contains_of_none hblock] at h
    rw [contains_of_none (hsame.trans hblock)]
    exact .inl h
  | some entry =>
    rw [contains_of_some hblock] at h
    rw [contains_of_some (hsame.trans hblock)]
    dsimp only [cut]
    cases hdecode : decodeAt c.data entry.offset.toNat with
    | error e =>
      rw [hdecode] at h
      cases h
    | ok head =>
      rw [hdecode, Except.bind] at h
      rcases decodeAt_cut size hdecode with hcut | ⟨-, e, hcut⟩
      · rw [hcut, Except.bind]
        cases hadvance : advance c.data d (entry.count.toNat - 1)
            (entry.offset.toNat + head.2) head.1 with
        | error e =>
          rw [hadvance] at h
          cases h
        | ok x =>
          rw [hadvance] at h
          rcases advance_cut size hadvance with hreached | ⟨e, hreached⟩
          · rw [hreached]
            exact .inl h
          · rw [hreached]
            exact .inr ⟨e, rfl⟩
      · rw [hcut]
        exact .inr ⟨e, rfl⟩

theorem next_within {found : Option DocId} (hwithin : c.offset ≤ c.data.size)
    (h : c.next = (.ok found, c')) : c'.offset ≤ c'.data.size := by
  have hstep := reading_next c
  rw [h] at hstep
  cases hstep with
  | exhausted _ _ => exact hwithin
  | opened _ _ hdecode => exact decodeAt_within hdecode
  | read _ hdecode => exact decodeAt_within hdecode

/-! ### Before the cut -/

theorem fill_of_none (h : c.next = (.ok none, c')) (n : Nat) : c.fill n = (.ok [], c) := by
  cases n with
  | zero => rfl
  | succ n =>
    rw [fill, h, eq_of_next_none h]

theorem fill_of_some {d : DocId} (h : c.next = (.ok (some d), c')) (n : Nat) :
    c.fill (n + 1) = ((c'.fill n).1.map (d :: ·), (c'.fill n).2) := by
  rw [fill, h]
  dsimp only
  generalize c'.fill n = result
  obtain ⟨e | ids, c''⟩ := result <;> rfl

/-- A fill for more ids goes on where one for fewer stops. -/
theorem fill_add {ids : List DocId} {n : Nat} (more : Nat) (h : c.fill n = (.ok ids, c')) :
    (c.fill (n + more)).2 = (c'.fill more).2 := by
  induction n generalizing c ids with
  | zero =>
    obtain rfl : c = c' := (Prod.mk.inj h).2
    rw [Nat.zero_add]
  | succ n ih =>
    cases hnext : c.next with
    | mk found c₁ =>
      rcases found with e | _ | d
      · rw [fill, hnext] at h
        cases h
      · rw [fill_of_none hnext] at h
        obtain rfl : c = c' := (Prod.mk.inj h).2
        rw [fill_of_none hnext, fill_of_none hnext]
      · rw [fill_of_some hnext] at h
        rw [Nat.succ_add, fill_of_some hnext]
        obtain ⟨hids, hlater⟩ := Prod.mk.inj h
        cases hfill : (c₁.fill n).1 with
        | error e =>
          rw [hfill] at hids
          cases hids
        | ok served => exact ih (Prod.ext hfill hlater)

/-- A fill that ends each of its ids before the cut is not affected by it. -/
theorem fill_cut {size n : Nat} {ids : List DocId} (h : c.fill n = (.ok ids, c'))
    (hle : ∀ m ≤ n, (c.fill m).2.offset ≤ size) : (c.cut size).fill n = (.ok ids, c'.cut size) := by
  induction n generalizing c ids with
  | zero =>
    obtain ⟨hids, rfl⟩ := Prod.mk.inj h
    rw [← hids]
    rfl
  | succ n ih =>
    cases hnext : c.next with
    | mk found c₁ =>
      rcases found with e | _ | d
      · rw [fill, hnext] at h
        cases h
      · rw [fill_of_none hnext] at h
        obtain ⟨hids, rfl⟩ := Prod.mk.inj h
        obtain rfl := eq_of_next_none hnext
        have hread := (next_cut size hnext).resolve_right fun hbehind =>
          Nat.not_le.mpr hbehind.1 (hle 0 (Nat.zero_le _))
        rw [fill_of_none hread, ← hids]
      · have hbefore : ∀ m ≤ n, (c₁.fill m).2.offset ≤ size := fun m hm => by
          have hlater := hle (m + 1) (Nat.succ_le_succ hm)
          rwa [fill_of_some hnext] at hlater
        have hread := (next_cut size hnext).resolve_right fun hbehind =>
          Nat.not_le.mpr hbehind.1 (hbefore 0 (Nat.zero_le _))
        rw [fill_of_some hnext] at h
        obtain ⟨hids, hlater⟩ := Prod.mk.inj h
        cases hfill : (c₁.fill n).1 with
        | error e =>
          rw [hfill] at hids
          cases hids
        | ok served =>
          rw [hfill] at hids
          rw [fill_of_some hread, ih (Prod.ext hfill hlater) hbefore, ← hids]

variable {blocks : List (List DocId)} {rest : List DocId}

theorem run_cut {size : Nat} (h : Reads blocks c rest) (sizes : List Nat)
    (hle : ∀ m ≤ sizes.sum, (c.fill m).2.offset ≤ size) :
    ((c.cut size).run (sizes.map .fill)).1 = (c.run (sizes.map .fill)).1 := by
  induction sizes generalizing c rest with
  | nil => rfl
  | cons n sizes ih =>
    rw [List.sum_cons] at hle
    obtain ⟨c', hfill, h'⟩ := fill_reads n h
    have hcut := fill_cut hfill fun m hm => hle m (Nat.le_add_right_of_le hm)
    have hlater := ih h' fun m hm => by
      rw [← fill_add m hfill]
      exact hle (n + m) (Nat.add_le_add_left hm n)
    simp only [List.map_cons, run, call, hfill, hcut, hlater]

theorem advance_ok {data : Array UInt8} (target : DocId) {current : DocId} {offset : Nat}
    {more : List DocId} (hb : Posting.deltaBytes current more <+: data.toList.drop offset) :
    ∃ d, advance data target more.length offset current = .ok d := by
  induction more generalizing current offset with
  | nil => exact ⟨current, rfl⟩
  | cons next more ih =>
    rw [List.length_cons, advance]
    by_cases hle : target ≤ current
    · exact ⟨current, if_pos hle⟩
    · rw [Posting.deltaBytes] at hb
      have hsum : current + (next - current) = next := by
        rw [UInt64.add_comm, UInt64.sub_add_cancel]
      have hread := decodeAt_of_prefix hb
      rw [if_neg hle, hread]
      dsimp only
      rw [hsum]
      exact ih (prefix_behind hb)

/-- Where the bytes of the block that could have an id are there, asking for the id succeeds. -/
theorem contains_located {d : DocId} (h : ∀ entry, c.blockOf? d = some entry →
    ∃ block, Posting.Locates c.data.toList entry block) : ∃ found, c.contains d = .ok found := by
  cases hblock : c.blockOf? d with
  | none => exact ⟨false, contains_of_none hblock⟩
  | some entry =>
    obtain ⟨block, hloc⟩ := h entry hblock
    obtain ⟨first, more, rfl⟩ := List.exists_cons_of_ne_nil hloc.nonempty
    have hbytes := hloc.bytes
    rw [Posting.deltaBytes, UInt64.sub_zero] at hbytes
    obtain ⟨x, hx⟩ := advance_ok d (prefix_behind hbytes)
    have hread := decodeAt_of_prefix hbytes
    have hsteps : entry.count.toNat - 1 = more.length := by
      rw [hloc.count, List.length_cons, Nat.add_sub_cancel]
    rw [contains_of_some hblock, hread, Except.bind, hsteps, hx]
    exact ⟨x == d, rfl⟩

/-! ### The end of the data -/

/-- Once the last block is open, the data ends with what is still to be read of it. -/
def Ends (blocks : List (List DocId)) (c : PostingCursor) : Prop :=
  blocks.length ≤ c.nextBlock → ∃ pending, c.remaining.toNat = pending.length ∧
    c.data.toList.drop c.offset = Posting.deltaBytes c.last pending

theorem drop_behind {data : Bytes} {offset : Nat} {first rest : Bytes}
    (h : data.drop offset = first ++ rest) : data.drop (offset + first.length) = rest := by
  rw [← List.drop_drop, h, List.drop_left]

theorem decodeAt_of_drop {data : Array UInt8} {offset : Nat} {v : UInt64} {rest : Bytes}
    (h : data.toList.drop offset = Varint.encode v ++ rest) :
    decodeAt data offset = .ok (v, (Varint.encode v).length) :=
  decodeAt_of_prefix ⟨[], by rw [h, List.append_nil]⟩

theorem next_ends {found : Option DocId}
    (hlayout : Posting.Layout c.data.toList c.skips.toList blocks)
    (hcloses : Posting.Closes c.data.toList c.skips.toList blocks) (hends : Ends blocks c)
    (h : c.next = (.ok found, c')) : Ends blocks c' := by
  have hstep := reading_next c
  rw [h] at hstep
  cases hstep with
  | exhausted _ _ => exact hends
  | opened hr hentry hdecode =>
    rename_i entry first used
    intro hlast
    dsimp only at hlast ⊢
    have hlt : c.nextBlock < blocks.length := by
      rw [← hlayout.length_eq, Array.length_toList]
      exact (Array.getElem?_eq_some_iff.mp hentry).1
    have hblock := List.getElem?_eq_getElem hlt
    obtain ⟨entry', hentry', hloc⟩ := layout_getElem? hlayout hblock
    obtain rfl : entry = entry' := Option.some.inj (hentry.symm.trans hentry')
    rw [← Array.getElem?_toList] at hentry
    have hbytes := hcloses c.nextBlock entry _ (by omega) hentry hblock
    obtain ⟨d, more, hcons⟩ := List.exists_cons_of_ne_nil hloc.nonempty
    rw [hcons] at hloc hbytes
    rw [Posting.deltaBytes, UInt64.sub_zero] at hbytes
    have hfirst := decodeAt_of_drop hbytes
    rw [hdecode] at hfirst
    obtain ⟨rfl, rfl⟩ := Prod.mk.inj (Except.ok.inj hfirst)
    exact ⟨more, toNat_sub_one hloc.count, drop_behind hbytes⟩
  | read hr hdecode =>
    rename_i delta used
    intro hlast
    obtain ⟨pending, hrem, hbytes⟩ := hends hlast
    dsimp only
    cases pending with
    | nil => exact (hr (UInt32.toNat_inj.mp hrem)).elim
    | cons d more =>
      rw [Posting.deltaBytes] at hbytes
      have hdelta := decodeAt_of_drop hbytes
      rw [hdecode] at hdelta
      obtain ⟨rfl, rfl⟩ := Prod.mk.inj (Except.ok.inj hdelta)
      have hsum : c.last + (d - c.last) = d := by rw [UInt64.add_comm, UInt64.sub_add_cancel]
      rw [hsum]
      exact ⟨more, toNat_sub_one hrem, drop_behind hbytes⟩

/-- A cursor over a cut list that stands as one over the whole list does, with `rest` of the list
still to serve. -/
structure Short (blocks : List (List DocId)) (c : PostingCursor) (rest : List DocId) : Prop where
  within : c.offset ≤ c.data.size
  whole : ∃ whole size, c = whole.cut size ∧ size < whole.data.size ∧ Reads blocks whole rest ∧
    Posting.Closes whole.data.toList whole.skips.toList blocks ∧ Ends blocks whole

/-- At the end of the list a cursor over it has read past the cut. -/
theorem Short.rest_ne_nil (h : Short blocks c rest) : rest ≠ [] := by
  obtain ⟨hwithin, whole, size, rfl, hsize, ⟨hlayout, pending, hrem, -, hrest⟩, -, hends⟩ := h
  rintro rfl
  obtain ⟨rfl, hflatten⟩ := List.append_eq_nil_iff.mp hrest.symm
  have hlast : blocks.length ≤ whole.nextBlock := by
    rw [← List.drop_eq_nil_iff]
    by_contra hne
    obtain ⟨block, more, hcons⟩ := List.exists_cons_of_ne_nil hne
    rw [hcons, List.flatten_cons, List.append_eq_nil_iff] at hflatten
    have hmem : block ∈ blocks := (List.drop_sublist _ _).subset (hcons ▸ List.mem_cons_self)
    exact layout_nonempty hlayout block hmem hflatten.1
  obtain ⟨left, hleft, hbytes⟩ := hends hlast
  obtain rfl : left = [] := List.eq_nil_of_length_eq_zero (hleft.symm.trans hrem)
  have hread := List.drop_eq_nil_iff.mp hbytes
  have hcut : whole.offset ≤ min size whole.data.size := by
    simpa [cut] using hwithin
  rw [Array.length_toList] at hread
  omega

theorem Short.next (h : Short blocks c rest) :
    (∃ c', c.next = (.ok rest.head?, c') ∧ Short blocks c' rest.tail) ∨
      ∃ e c', c.next = (.error e, c') := by
  obtain ⟨hwithin, whole, size, rfl, hsize, hreads, hcloses, hends⟩ := h
  obtain ⟨whole', hnext, hreads'⟩ := next_reads hreads
  obtain ⟨hdata, hskips⟩ := next_list whole
  rw [hnext] at hdata hskips
  rcases next_cut size hnext with hcut | ⟨-, hcut⟩
  · refine .inl ⟨_, hcut, next_within hwithin hcut, whole', size, rfl, ?_, hreads', ?_, ?_⟩
    · rw [hdata]
      exact hsize
    · rw [hdata, hskips]
      exact hcloses
    · exact next_ends hreads.layout hcloses hends hnext
  · exact .inr hcut

/-! ### Fills -/

theorem Short.fill (n : Nat) (h : Short blocks c rest) :
    (∃ c', c.fill n = (.ok (rest.take n), c') ∧ Short blocks c' (rest.drop n)) ∨
      ∃ e c', c.fill n = (.error e, c') := by
  induction n generalizing c rest with
  | zero => exact .inl ⟨c, rfl, h⟩
  | succ n ih =>
    obtain ⟨d, rest, rfl⟩ := List.exists_cons_of_ne_nil h.rest_ne_nil
    unfold PostingCursor.fill
    rcases h.next with ⟨c₁, hnext, h₁⟩ | ⟨e, c₁, hnext⟩
    · rw [hnext]
      rcases ih h₁ with ⟨c₂, hfill, h₂⟩ | ⟨e, c₂, hfill⟩
      · left
        simp only [List.head?_cons, List.tail_cons] at hfill h₂ ⊢
        rw [hfill]
        exact ⟨c₂, rfl, h₂⟩
      · right
        simp only [List.head?_cons, hfill]
        exact ⟨e, c₂, rfl⟩
    · rw [hnext]
      exact .inr ⟨e, c₁, rfl⟩

/-- Answers to fills of which one after another serves the next ids of a list, all that it asked
for, until one fails. -/
inductive Breaks : List DocId → List Nat → List (Except Failure Answer) → Prop
  | stopped {rest : List DocId} : Breaks rest [] []
  | served {rest : List DocId} {n : Nat} {sizes : List Nat}
      {answers : List (Except Failure Answer)} : n < rest.length →
      Breaks (rest.drop n) sizes answers →
      Breaks rest (n :: sizes) (.ok (.served (rest.take n)) :: answers)
  | failed {rest : List DocId} {n : Nat} {sizes : List Nat} {e : Failure}
      {answers : List (Except Failure Answer)} : e.kind = .storage →
      Breaks rest (n :: sizes) (.error e :: answers)

theorem Short.run (h : Short blocks c rest) (sizes : List Nat) :
    Breaks rest sizes (c.run (sizes.map .fill)).1 := by
  induction sizes generalizing c rest with
  | nil => exact .stopped
  | cons n sizes ih =>
    simp only [List.map_cons, PostingCursor.run, call]
    rcases h.fill n with ⟨c', hfill, h'⟩ | ⟨e, c', hfill⟩
    · rw [hfill]
      exact .served (Nat.not_le.mp fun hle => h'.rest_ne_nil (List.drop_eq_nil_of_le hle)) (ih h')
    · rw [hfill]
      exact .failed (kind_of_fill hfill)

/-- The ids that fills serve before one of them fails. -/
def servedIds : List (Except Failure Answer) → List DocId
  | .ok (.served ids) :: answers => ids ++ servedIds answers
  | _ => []

namespace Breaks

variable {sizes : List Nat} {answers : List (Except Failure Answer)}

theorem servedIds_starts (h : Breaks rest sizes answers) : servedIds answers <+: rest := by
  induction h with
  | stopped => exact List.nil_prefix
  | @served rest n _ _ _ _ ih =>
    have hprefix := (List.prefix_append_right_inj (rest.take n)).mpr ih
    rwa [List.take_append_drop] at hprefix
  | failed _ => exact List.nil_prefix

/-- A fill serves less than it asked for only behind one that failed. -/
theorem failed_before (h : Breaks rest sizes answers) {i n : Nat} {ids : List DocId}
    (hsize : sizes[i]? = some n) (hserved : answers[i]? = some (.ok (.served ids)))
    (hless : ids.length < n) :
    ∃ j < i, ∃ e, answers[j]? = some (.error e) ∧ e.kind = .storage := by
  induction h generalizing i with
  | stopped => cases hsize
  | @served rest m _ _ hn _ ih =>
    cases i with
    | zero =>
      obtain rfl := Option.some.inj hsize
      injection Except.ok.inj (Option.some.inj hserved) with hids
      rw [← hids, List.length_take] at hless
      omega
    | succ i =>
      obtain ⟨j, hj, e, herror, hkind⟩ := ih hsize hserved
      exact ⟨j + 1, Nat.succ_lt_succ hj, e, herror, hkind⟩
  | failed hkind =>
    cases i with
    | zero => cases hserved
    | succ i => exact ⟨0, Nat.succ_pos i, _, rfl, hkind⟩

/-- Fills that ask for as many ids as are left do not all succeed. -/
theorem fails (h : Breaks rest sizes answers) (hsum : rest.length ≤ sizes.sum)
    (hne : rest ≠ []) : ∃ e, .error e ∈ answers ∧ e.kind = .storage := by
  induction h with
  | stopped => exact (hne (List.eq_nil_of_length_eq_zero (Nat.le_zero.mp hsum))).elim
  | served hn _ ih =>
    rw [List.sum_cons] at hsum
    obtain ⟨e, herror, hkind⟩ := ih (by rw [List.length_drop]; omega)
      (by rw [Ne, List.drop_eq_nil_iff]; omega)
    exact ⟨e, List.mem_cons_of_mem _ herror, hkind⟩
  | failed hkind => exact ⟨_, List.mem_cons_self, hkind⟩

end Breaks

/-- How a cursor `c` over a list that lost bytes at its end answers, beside one over the whole
list. -/
structure Truncated (docs : List DocId) (whole c : PostingCursor) : Prop where
  /-- Before a fill fails, the first ids of the list are served. -/
  served (sizes : List Nat) : servedIds (c.run (sizes.map .fill)).1 <+: docs
  /-- A fill serves less than it asks for only behind one that failed. -/
  failed_before (sizes : List Nat) (i size : Nat) (ids : List DocId) : sizes[i]? = some size →
    (c.run (sizes.map .fill)).1[i]? = some (.ok (.served ids)) → ids.length < size →
      ∃ j < i, ∃ e, (c.run (sizes.map .fill)).1[j]? = some (.error e) ∧ e.kind = .storage
  /-- Fills for as many ids as the list has do not all succeed. -/
  fails (sizes : List Nat) : docs.length ≤ sizes.sum →
    ∃ e, .error e ∈ (c.run (sizes.map .fill)).1 ∧ e.kind = .storage
  /-- Where every id asked for ends before the cut, nothing fails. -/
  kept (sizes : List Nat) : (∀ m ≤ sizes.sum, (whole.fill m).2.offset ≤ c.data.size) →
    (c.run (sizes.map .fill)).1 = (Posting.run docs docs (sizes.map .fill)).1.map .ok
  /-- Whatever was called before, an id is found where the list has it, or the call fails. -/
  told (calls : List PostingCall) (d : DocId) :
    (c.run calls).2.contains d = .ok (decide (d ∈ docs)) ∨
      ∃ e, (c.run calls).2.contains d = .error e ∧ e.kind = .storage
  /-- Where the bytes of the block that could have the id are left, the call does not fail. -/
  located (calls : List PostingCall) (d : DocId) :
    (∀ entry, c.blockOf? d = some entry → ∃ block, Posting.Locates c.data.toList entry block) →
      (c.run calls).2.contains d = .ok (decide (d ∈ docs))

theorem truncated_of_short {whole : PostingCursor} {size : Nat}
    (hreads : Reads blocks whole blocks.flatten) (ha : Ascending blocks.flatten)
    (hne : blocks.flatten ≠ []) (hsize : size ≤ whole.data.size)
    (h : Short blocks (whole.cut size) blocks.flatten) :
    Truncated blocks.flatten whole (whole.cut size) where
  served sizes := (h.run sizes).servedIds_starts
  failed_before sizes i size ids := (h.run sizes).failed_before
  fails sizes hsum := (h.run sizes).fails hsum hne
  kept sizes hle := by
    have hcut : (whole.cut size).data.size = size := by
      simpa [cut] using hsize
    rw [hcut] at hle
    rw [run_cut hreads sizes hle]
    exact (run_reads hreads ha _).1
  told calls d := by
    obtain ⟨hdata, hskips⟩ := run_list (whole.cut size) calls
    rw [contains_congr hdata hskips d]
    exact (contains_cut size (contains_reads hreads ha d)).imp id
      fun ⟨e, he⟩ => ⟨e, he, kind_of_contains he⟩
  located calls d hlocated := by
    obtain ⟨hdata, hskips⟩ := run_list (whole.cut size) calls
    rw [contains_congr hdata hskips d]
    refine (contains_cut size (contains_reads hreads ha d)).resolve_right fun ⟨e, he⟩ => ?_
    obtain ⟨found, hfound⟩ := contains_located hlocated
    cases hfound.symm.trans he

end PostingCursor

namespace PostingStore

open PostingCursor

variable {store store' : PostingStore}

/-- When the last bytes of a list are gone, a cursor over what is left serves the first ids of the
list and fails before the list could be taken for finished, and it finds an id where the list has it
or fails. -/
theorem append_cut {blockSize : Nat} {docs : List DocId} (hne : docs ≠ [])
    (hlength : docs.length < UInt32.size)
    (h : store.append blockSize docs = (.ok (), store')) :
    ∃ data : Array UInt8, ∃ skips : Array SkipEntry,
      store'.data = store.data ++ data ∧ store'.skips = store.skips ++ skips ∧
        ∀ n : Nat, 0 < n → Truncated docs { data, skips }
          { data := data.take (data.size - n), skips } := by
  obtain ⟨data, skips, hencode, hdata, hskips⟩ := append_ok h
  obtain ⟨-, ha, hblocks⟩ := Posting.encode_ok hencode
  have hpos := List.length_pos_iff.mpr (Posting.data_ne_nil hencode hne)
  have hflatten : (chunks blockSize docs).flatten = docs := flatten_chunks _ _
  let whole : PostingCursor := { data := data.toArray, skips := skips.toArray }
  have hreads : Reads (chunks blockSize docs) whole (chunks blockSize docs).flatten :=
    reads_start (Posting.encode_layout hencode hlength)
  have hends : Ends (chunks blockSize docs) whole := fun hlast => by
    rw [List.eq_nil_of_length_eq_zero (Nat.le_zero.mp hlast)] at hflatten
    exact (hne hflatten.symm).elim
  refine ⟨data.toArray, skips.toArray, hdata, hskips, fun n hn => ?_⟩
  have hshort : Short (chunks blockSize docs) (whole.cut (data.length - n))
      (chunks blockSize docs).flatten :=
    ⟨Nat.zero_le _, whole, data.length - n, rfl, Nat.sub_lt hpos hn, hreads,
      Posting.encodeBlocks_closes [] hblocks, hends⟩
  have htruncated := truncated_of_short hreads (by rw [hflatten]; exact ha)
    (by rw [hflatten]; exact hne) (Nat.sub_le _ _) hshort
  rw [hflatten] at htruncated
  exact htruncated

/-- Three ids in blocks of two, without the last byte: two are served before a fill fails, and only
the block that lost the byte cannot be searched. -/
theorem append_cut_last_byte :
    let docs : List DocId := [1, 200, 40000]
    let data : Array UInt8 := #[1, 0xc7, 1, 0xc0, 0xb8, 2]
    let skips : Array SkipEntry := #[⟨1, 0, 2⟩, ⟨40000, 3, 1⟩]
    let whole : PostingCursor := { data, skips }
    let c : PostingCursor := { data := data.take (data.size - 1), skips }
    docs ≠ [] ∧ docs.length < UInt32.size ∧ 0 < 1 ∧
      PostingStore.append {} 2 docs = (.ok (), { data, skips }) ∧
      (c.run [.fill 2, .fill 2, .fill 1]).1 =
        [.ok (.served [1, 200]), .error .varintUnfinished, .ok (.served [])] ∧
      servedIds (c.run [.fill 2, .fill 2, .fill 1]).1 <+: docs ∧
      (∃ j < 2, ∃ e, (c.run [.fill 2, .fill 2, .fill 1]).1[j]? = some (.error e) ∧
        e.kind = .storage) ∧
      (∃ e, .error e ∈ (c.run [.fill 2, .fill 2, .fill 1]).1 ∧ e.kind = .storage) ∧
      (∀ m ≤ 2, (whole.fill m).2.offset ≤ c.data.size) ∧
      (c.run [.fill 2]).1 = (Posting.run docs docs [.fill 2]).1.map .ok ∧
      (c.contains 40000 = .ok true ∨ ∃ e, c.contains 40000 = .error e ∧ e.kind = .storage) ∧
      c.blockOf? 200 = some ⟨1, 0, 2⟩ ∧ Posting.Locates c.data.toList ⟨1, 0, 2⟩ [1, 200] ∧
      (c.run [.fill 2]).2.contains 200 = .ok true := by
  intro docs data skips whole c
  have hne : docs ≠ [] := by decide
  have hlength : docs.length < UInt32.size := by decide
  have hstore : PostingStore.append {} 2 docs = (.ok (), { data, skips }) := by cbv
  obtain ⟨data', skips', hdata, hskips, hcut⟩ := append_cut hne hlength hstore
  obtain rfl : data = data' := hdata.trans Array.empty_append
  obtain rfl : skips = skips' := hskips.trans Array.empty_append
  have htruncated : Truncated docs whole c := hcut 1 Nat.one_pos
  have hanswers : (c.run [.fill 2, .fill 2, .fill 1]).1 =
      [.ok (.served [1, 200]), .error .varintUnfinished, .ok (.served [])] := by cbv
  have hends : ∀ m ≤ 2, (whole.fill m).2.offset ≤ c.data.size := by
    intro m hm
    interval_cases m
    · cbv
    · cbv
    · cbv
  have hblock : c.blockOf? 200 = some ⟨1, 0, 2⟩ := by cbv
  have hloc : Posting.Locates c.data.toList ⟨1, 0, 2⟩ [1, 200] :=
    ⟨by decide, rfl, rfl, ⟨[0xc0, 0xb8], by cbv⟩⟩
  refine ⟨hne, hlength, Nat.one_pos, hstore, hanswers, htruncated.served [2, 2, 1],
    htruncated.failed_before [2, 2, 1] 2 1 [] rfl (congrArg (·[2]?) hanswers) Nat.one_pos,
    htruncated.fails [2, 2, 1] (by decide), hends, htruncated.kept [2] hends,
    htruncated.told [] 40000, hblock, hloc, htruncated.located [.fill 2] 200 fun entry hentry => ?_⟩
  obtain rfl := Option.some.inj (hblock.symm.trans hentry)
  exact ⟨_, hloc⟩

end PostingStore

end Concordance
