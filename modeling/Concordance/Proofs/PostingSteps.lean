import Concordance.Proofs.PostingCalls
import Concordance.Proofs.VarintCodec

/-!
# What a posting cursor does on any bytes

`reading_next` lists all that one read can do. From it follows for every run of calls, whatever the
bytes and skip entries are, what the calls leave alone (`run_keeps`, `run_list`) and that they fail
with storage failures only (`kind_of_run`).
-/

namespace Concordance.PostingCursor

/-! ### One read -/

/-- What a read answers and leaves. -/
inductive Reading (c : PostingCursor) : Except Failure (Option DocId) × PostingCursor → Prop
  | exhausted : c.remaining = 0 → c.skips[c.nextBlock]? = none → Reading c (.ok none, c)
  | unopened {entry : SkipEntry} {e : Failure} : c.remaining = 0 →
      c.skips[c.nextBlock]? = some entry → decodeAt c.data entry.offset.toNat = .error e →
      Reading c (.error e, { c with nextBlock := c.nextBlock + 1 })
  | opened {entry : SkipEntry} {first : DocId} {used : Nat} : c.remaining = 0 →
      c.skips[c.nextBlock]? = some entry →
      decodeAt c.data entry.offset.toNat = .ok (first, used) →
      Reading c (.ok (some first),
        { c with
          nextBlock := c.nextBlock + 1
          offset := entry.offset.toNat + used
          remaining := entry.count - 1
          last := first })
  | unread {e : Failure} : c.remaining ≠ 0 → decodeAt c.data c.offset = .error e →
      Reading c (.error e, c)
  | read {delta : UInt64} {used : Nat} : c.remaining ≠ 0 →
      decodeAt c.data c.offset = .ok (delta, used) →
      Reading c (.ok (some (c.last + delta)),
        { c with
          offset := c.offset + used
          remaining := c.remaining - 1
          last := c.last + delta })

theorem reading_next (c : PostingCursor) : Reading c c.next := by
  unfold next
  split
  · rename_i hr
    split
    · rename_i hblock
      exact .exhausted hr hblock
    · rename_i entry hblock
      split
      · rename_i e hdecode
        exact .unopened hr hblock hdecode
      · rename_i first used hdecode
        exact .opened hr hblock hdecode
  · rename_i hr
    split
    · rename_i e hdecode
      exact .unread hr hdecode
    · rename_i delta used hdecode
      exact .read hr hdecode

theorem decodeAt_within {data : Array UInt8} {offset used : Nat} {v : UInt64}
    (h : decodeAt data offset = .ok (v, used)) : offset + used ≤ data.size := by
  unfold decodeAt at h
  split at h
  · rename_i hle
    rw [Varint.decodeAt_eq] at h
    have hused := Varint.le_length_of_decode h
    rw [List.length_drop, Array.length_toList] at hused
    omega
  · cases h

theorem kind_of_decodeAt {data : Array UInt8} {offset : Nat} {e : Failure}
    (h : decodeAt data offset = .error e) : e.kind = .storage := by
  unfold decodeAt at h
  split at h
  · rw [Varint.decodeAt_eq] at h
    exact Varint.kind_of_decodeFrom h
  · exact Except.error.inj h ▸ rfl

theorem kind_of_next {c c' : PostingCursor} {e : Failure} (h : c.next = (.error e, c')) :
    e.kind = .storage := by
  have hstep := reading_next c
  rw [h] at hstep
  cases hstep with
  | unopened _ _ hdecode => exact kind_of_decodeAt hdecode
  | unread _ hdecode => exact kind_of_decodeAt hdecode

/-! ### Fills -/

variable {P : PostingCursor → Prop} {c : PostingCursor}

/-- What every read keeps is kept by a fill. -/
theorem fill_keeps (hnext : ∀ {c}, P c → P c.next.2) (n : Nat) (h : P c) : P (c.fill n).2 := by
  induction n generalizing c with
  | zero => exact h
  | succ n ih =>
    have h' := hnext h
    unfold fill
    generalize c.next = result at h'
    obtain ⟨e | _ | d, c'⟩ := result
    · exact h'
    · exact h'
    · have h'' := ih h'
      dsimp only
      generalize c'.fill n = result at h''
      obtain ⟨e | ids, c''⟩ := result <;> exact h''

theorem kind_of_fill {n : Nat} {c' : PostingCursor} {e : Failure}
    (h : c.fill n = (.error e, c')) : e.kind = .storage := by
  induction n generalizing c with
  | zero => cases h
  | succ n ih =>
    unfold fill at h
    split at h
    · rename_i hnext
      obtain ⟨he, -⟩ := Prod.mk.inj h
      exact kind_of_next (Except.error.inj he ▸ hnext)
    · cases h
    · split at h
      · cases h
      · rename_i hfill
        obtain ⟨he, -⟩ := Prod.mk.inj h
        exact ih (by rw [hfill, Except.error.inj he, (Prod.mk.inj h).2])

/-! ### Membership -/

theorem kind_of_advance {data : Array UInt8} {target current : DocId} {steps offset : Nat}
    {e : Failure} (h : advance data target steps offset current = .error e) :
    e.kind = .storage := by
  induction steps generalizing offset current with
  | zero => cases h
  | succ steps ih =>
    unfold advance at h
    split at h
    · cases h
    · split at h
      · rename_i hdecode
        exact kind_of_decodeAt (Except.error.inj h ▸ hdecode)
      · exact ih h

/-- The skip entry of the last block that starts at or before an id. -/
def blockOf? (c : PostingCursor) (d : DocId) : Option SkipEntry :=
  match partitionPoint c.skips.size fun i => c.skips[i]?.any (·.firstDoc ≤ d) with
  | 0 => none
  | block + 1 => c.skips[block]?

section

variable {d : DocId} {entry : SkipEntry}

theorem mem_of_blockOf? (h : c.blockOf? d = some entry) : entry ∈ c.skips := by
  unfold blockOf? at h
  split at h
  · cases h
  · exact Array.mem_of_getElem? h

theorem contains_of_none (h : c.blockOf? d = none) : c.contains d = .ok false := by
  unfold blockOf? at h
  unfold contains
  generalize partitionPoint c.skips.size (fun i => c.skips[i]?.any (·.firstDoc ≤ d)) = start
    at h ⊢
  cases start with
  | zero => rfl
  | succ block =>
    dsimp only at h
    simp only [h]

theorem contains_of_some (h : c.blockOf? d = some entry) :
    c.contains d = (decodeAt c.data entry.offset.toNat).bind fun found =>
      (advance c.data d (entry.count.toNat - 1) (entry.offset.toNat + found.2) found.1).map
        (· == d) := by
  unfold blockOf? at h
  unfold contains
  generalize partitionPoint c.skips.size (fun i => c.skips[i]?.any (·.firstDoc ≤ d)) = start
    at h ⊢
  cases start with
  | zero => cases h
  | succ block =>
    dsimp only at h
    simp only [h]
    cases decodeAt c.data entry.offset.toNat <;> rfl

end

theorem kind_of_contains {d : DocId} {e : Failure} (h : c.contains d = .error e) :
    e.kind = .storage := by
  cases hblock : c.blockOf? d with
  | none =>
    rw [contains_of_none hblock] at h
    cases h
  | some entry =>
    rw [contains_of_some hblock] at h
    cases hdecode : decodeAt c.data entry.offset.toNat with
    | error e' =>
      rw [hdecode] at h
      exact Except.error.inj h ▸ kind_of_decodeAt hdecode
    | ok found =>
      rw [hdecode, Except.bind] at h
      cases hadvance : advance c.data d (entry.count.toNat - 1)
          (entry.offset.toNat + found.2) found.1 with
      | ok x =>
        rw [hadvance] at h
        cases h
      | error e' =>
        rw [hadvance] at h
        exact Except.error.inj h ▸ kind_of_advance hadvance

/-- Only the bytes and the skip entries count, not where a cursor stands. -/
theorem contains_congr {c' : PostingCursor} (hdata : c'.data = c.data) (hskips : c'.skips = c.skips)
    (d : DocId) : c'.contains d = c.contains d := by
  unfold contains
  rw [hdata, hskips]

/-! ### Calls -/

theorem call_keeps (hnext : ∀ {c}, P c → P c.next.2) (hreset : ∀ {c}, P c → P c.reset)
    (first : PostingCall) (h : P c) : P (c.call first).2 := by
  cases first with
  | fill n => exact fill_keeps hnext n h
  | contains d => exact h
  | reset => exact hreset h

theorem run_keeps (hnext : ∀ {c}, P c → P c.next.2) (hreset : ∀ {c}, P c → P c.reset)
    (calls : List PostingCall) (h : P c) : P (c.run calls).2 := by
  induction calls generalizing c with
  | nil => exact h
  | cons first calls ih => exact ih (call_keeps @hnext @hreset first h)

theorem next_list (c : PostingCursor) : c.next.2.data = c.data ∧ c.next.2.skips = c.skips := by
  have hstep := reading_next c
  generalize c.next = result at hstep
  cases hstep <;> exact ⟨rfl, rfl⟩

theorem run_list (c : PostingCursor) (calls : List PostingCall) :
    (c.run calls).2.data = c.data ∧ (c.run calls).2.skips = c.skips := by
  refine run_keeps (P := fun c' => c'.data = c.data ∧ c'.skips = c.skips) ?_ (fun h => h) calls
    ⟨rfl, rfl⟩
  rintro c' ⟨hdata, hskips⟩
  obtain ⟨hdata', hskips'⟩ := next_list c'
  exact ⟨hdata'.trans hdata, hskips'.trans hskips⟩

theorem kind_of_call {first : PostingCall} {e : Failure} (h : (c.call first).1 = .error e) :
    e.kind = .storage := by
  cases first with
  | fill n =>
    cases hfill : (c.fill n).1 with
    | ok ids =>
      rw [call, hfill] at h
      cases h
    | error e' =>
      rw [call, hfill] at h
      exact Except.error.inj h ▸ kind_of_fill (Prod.ext hfill rfl)
  | contains d =>
    cases hcontains : c.contains d with
    | ok found =>
      rw [call, hcontains] at h
      cases h
    | error e' =>
      rw [call, hcontains] at h
      exact Except.error.inj h ▸ kind_of_contains hcontains
  | reset => cases h

theorem kind_of_run {calls : List PostingCall} {e : Failure}
    (h : .error e ∈ (c.run calls).1) : e.kind = .storage := by
  induction calls generalizing c with
  | nil => cases h
  | cons first calls ih =>
    rcases List.mem_cons.mp h with h | h
    · exact kind_of_call h.symm
    · exact ih h

end Concordance.PostingCursor
