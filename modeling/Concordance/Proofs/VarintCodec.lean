import Concordance.Proofs.Varint
import Mathlib.Tactic.Ring

/-!
# Which bytes are a varint

`decodeFrom_eq_ok_iff` says which bytes are read and as what: groups of seven bits up to the first
byte whose top bit is not set, at most ten of them and worth less than `2 ^ 64`. The loop on 64-bit
words, `wordFrom`, reads the same without shifting too far or losing a bit. `codec_exact` puts both
together with what writing a word does.
-/

namespace Concordance.Varint

/-- The number that groups of seven bits make, the lowest group first. -/
def groups : Bytes → Nat
  | [] => 0
  | b :: rest => b.toNat % 128 + 128 * groups rest

theorem groups_lt (bytes : Bytes) : groups bytes < 2 ^ (7 * bytes.length) := by
  induction bytes with
  | nil => exact Nat.one_pos
  | cons b rest ih =>
    have hpow : 2 ^ (7 * (rest.length + 1)) = 128 * 2 ^ (7 * rest.length) := by
      rw [Nat.mul_succ, Nat.pow_add, Nat.mul_comm]
    rw [groups, List.length_cons, hpow]
    omega

/-- The group of a byte in its place and the groups after it. -/
theorem shiftLeft_groups_cons (b : UInt8) (rest : Bytes) (shift : Nat) :
    groups (b :: rest) <<< shift =
      (b.toNat % 128) <<< shift + groups rest <<< (shift + 7) := by
  rw [groups, Nat.shiftLeft_eq, Nat.shiftLeft_eq, Nat.shiftLeft_eq, Nat.pow_add]
  ring

/-! ### One more group -/

section Group

variable {used value : Nat} {b : UInt8} {rest : Bytes}

/-- The next byte is refused, is the last one or has others behind it. -/
theorem byte_cases (hused : used ≤ 9) (b : UInt8) :
    (used = 9 ∧ 1 < b) ∨ (¬(used = 9 ∧ 1 < b) ∧ b < 128) ∨ (used + 1 ≤ 9 ∧ ¬b < 128) := by
  by_cases hrefused : used = 9 ∧ 1 < b
  · exact .inl hrefused
  · by_cases hlast : b < 128
    · exact .inr (.inl ⟨hrefused, hlast⟩)
    · refine .inr (.inr ⟨?_, hlast⟩)
      by_contra hnot
      have hle : b ≤ 1 := UInt8.not_lt.mp fun hlt => hrefused ⟨by omega, hlt⟩
      exact hlast (UInt8.lt_of_le_of_lt hle (by decide))

theorem decodeFrom_refused (h : used = 9 ∧ 1 < b) :
    decodeFrom (7 * used) value used (b :: rest) = .error .varintOverflow := by
  rw [decodeFrom, if_pos ⟨by omega, h.2⟩]

theorem decodeFrom_last (h : ¬(used = 9 ∧ 1 < b)) (hlast : b < 128) :
    decodeFrom (7 * used) value used (b :: rest) =
      .ok (UInt64.ofNat (value + (b.toNat % 128) <<< (7 * used)), used + 1) := by
  have hsmall : b.toNat < 128 := hlast
  rw [decodeFrom, if_neg fun h63 => h ⟨by omega, h63.2⟩, if_pos hlast, Nat.mod_eq_of_lt hsmall]

theorem decodeFrom_more (hlater : used + 1 ≤ 9) (hmore : ¬b < 128) :
    decodeFrom (7 * used) value used (b :: rest) =
      decodeFrom (7 * (used + 1)) (value + (b.toNat % 128) <<< (7 * used)) (used + 1) rest := by
  rw [decodeFrom, if_neg fun h63 => by omega, if_neg hmore, Nat.mul_succ]

theorem add_group_lt (b : UInt8) (hvalue : value < 2 ^ (7 * used)) :
    value + (b.toNat % 128) <<< (7 * used) < 2 ^ (7 * (used + 1)) := by
  have hgroup : b.toNat % 128 ≤ 127 := by omega
  calc value + (b.toNat % 128) <<< (7 * used)
      < 2 ^ (7 * used) + 127 * 2 ^ (7 * used) := by
        rw [Nat.shiftLeft_eq]
        exact Nat.add_lt_add_of_lt_of_le hvalue (Nat.mul_le_mul_right _ hgroup)
    _ = 2 ^ (7 * (used + 1)) := by
        rw [Nat.mul_succ, Nat.pow_add]
        omega

/-- A group that is not refused leaves the value a word. -/
theorem add_group_lt_size (hused : used ≤ 9) (hvalue : value < 2 ^ (7 * used))
    (hb : ¬(used = 9 ∧ 1 < b)) : value + (b.toNat % 128) <<< (7 * used) < UInt64.size := by
  by_cases h9 : used = 9
  · subst h9
    have hle : b.toNat ≤ 1 := UInt8.not_lt.mp fun hlt => hb ⟨rfl, hlt⟩
    rw [Nat.shiftLeft_eq]
    simp only [UInt64.size]
    omega
  · have hpow : 2 ^ (7 * (used + 1)) ≤ 2 ^ 63 := Nat.pow_le_pow_right (by decide) (by omega)
    exact Nat.lt_of_lt_of_le (add_group_lt b hvalue) (Nat.le_trans hpow (by decide))

theorem size_le_add_group (value : Nat) (hb : 1 < b) (hlast : b < 128) :
    UInt64.size ≤ value + (b.toNat % 128) <<< 63 := by
  have h1 : 1 < b.toNat := hb
  have h128 : b.toNat < 128 := hlast
  rw [Nat.shiftLeft_eq]
  simp only [UInt64.size]
  omega

end Group

/-! ### What is read -/

/-- The first byte without a top bit is the first of all or comes after a byte that has one. -/
theorem findIdx?_last {b : UInt8} {rest : Bytes} (hlast : b < 128) :
    (b :: rest).findIdx? (· < 128) = some 0 := by
  rw [List.findIdx?_cons, if_pos (decide_eq_true hlast)]

theorem findIdx?_more {b : UInt8} {rest : Bytes} (hmore : ¬b < 128) :
    (b :: rest).findIdx? (· < 128) = (rest.findIdx? (· < 128)).map (· + 1) := by
  rw [List.findIdx?_cons, if_neg (by simpa using hmore)]

theorem lt_of_findIdx? {bytes : Bytes} {i : Nat} (h : bytes.findIdx? (· < 128) = some i) :
    i < bytes.length :=
  (List.findIdx?_eq_some_iff_getElem.mp h).choose

/-- With `used` bytes read, the rest is read when it ends in time and its value fits. -/
theorem decodeFrom_eq_ok_iff {used value : Nat} {bytes : Bytes} {v : UInt64} {n : Nat}
    (hused : used ≤ 9) (hvalue : value < 2 ^ (7 * used)) :
    decodeFrom (7 * used) value used bytes = .ok (v, n) ↔
      ∃ i, bytes.findIdx? (· < 128) = some i ∧ n = used + i + 1 ∧ n ≤ 10 ∧
        value + groups (bytes.take (i + 1)) <<< (7 * used) = v.toNat := by
  induction bytes generalizing used value with
  | nil => simp [decodeFrom]
  | cons b rest ih =>
    have hfirst : groups ((b :: rest).take (0 + 1)) = b.toNat % 128 := by simp [groups]
    rcases byte_cases hused b with hrefused | ⟨hfits, hlast⟩ | ⟨hlater, hmore⟩
    · rw [decodeFrom_refused hrefused]
      constructor
      · intro h
        cases h
      · rintro ⟨i, hfind, rfl, hn, hv⟩
        obtain rfl : i = 0 := by omega
        obtain ⟨rfl, hb⟩ := hrefused
        have hlast : b < 128 := by
          simpa using (List.findIdx?_eq_some_iff_getElem.mp hfind).choose_spec.1
        have hlarge := size_le_add_group value hb hlast
        have hword : v.toNat < UInt64.size := v.toNat_lt
        rw [hfirst] at hv
        omega
    · have hsum := add_group_lt_size hused hvalue hfits
      rw [decodeFrom_last hfits hlast, findIdx?_last hlast]
      simp only [Except.ok.injEq, Prod.mk.injEq, Option.some.injEq]
      constructor
      · rintro ⟨rfl, rfl⟩
        refine ⟨0, rfl, rfl, by omega, ?_⟩
        rw [hfirst, UInt64.toNat_ofNat_of_lt' hsum]
      · rintro ⟨i, rfl, rfl, -, hv⟩
        rw [hfirst] at hv
        exact ⟨by rw [hv, UInt64.ofNat_toNat], rfl⟩
    · rw [decodeFrom_more hlater hmore, ih hlater (add_group_lt b hvalue), findIdx?_more hmore]
      simp only [Option.map_eq_some_iff]
      constructor
      · rintro ⟨i, hfind, rfl, hn, hv⟩
        refine ⟨i + 1, ⟨i, hfind, rfl⟩, by omega, hn, ?_⟩
        rw [List.take_succ_cons, shiftLeft_groups_cons, ← hv, Nat.add_assoc, Nat.mul_succ]
      · rintro ⟨-, ⟨i, hfind, rfl⟩, rfl, hn, hv⟩
        refine ⟨i, hfind, by omega, hn, ?_⟩
        rw [List.take_succ_cons, shiftLeft_groups_cons] at hv
        rw [← hv, Nat.add_assoc, Nat.mul_succ]

/-- Which bytes are read, how many of them and as which word. -/
theorem decode_eq_ok_iff {bytes : Bytes} {v : UInt64} {n : Nat} :
    decode bytes = .ok (v, n) ↔
      0 < n ∧ n ≤ 10 ∧ bytes.findIdx? (· < 128) = some (n - 1) ∧
        groups (bytes.take n) = v.toNat := by
  have h := @decodeFrom_eq_ok_iff 0 0 bytes v n (Nat.zero_le _) Nat.one_pos
  rw [Nat.mul_zero] at h
  rw [decode, h]
  constructor
  · rintro ⟨i, hfind, rfl, hn, hv⟩
    rw [Nat.zero_add] at hn hv ⊢
    exact ⟨Nat.succ_pos i, hn, hfind, hv⟩
  · rintro ⟨hpos, hn, hfind, hv⟩
    refine ⟨n - 1, hfind, by omega, hn, ?_⟩
    rw [Nat.sub_add_cancel hpos, Nat.zero_add]
    exact hv

theorem kind_of_decodeFrom {shift value used : Nat} {bytes : Bytes} {e : Failure}
    (h : decodeFrom shift value used bytes = .error e) : e.kind = .storage := by
  fun_induction decodeFrom shift value used bytes with
  | case1 => exact Except.error.inj h ▸ rfl
  | case2 => exact Except.error.inj h ▸ rfl
  | case3 => cases h
  | case4 shift value used b rest _ _ ih => exact ih h

theorem lt_of_decodeFrom {shift value used : Nat} {bytes : Bytes} {v : UInt64} {n : Nat}
    (h : decodeFrom shift value used bytes = .ok (v, n)) : used < n := by
  fun_induction decodeFrom shift value used bytes with
  | case1 => cases h
  | case2 => cases h
  | case3 => exact (Prod.mk.inj (Except.ok.inj h)).2 ▸ Nat.lt_succ_self _
  | case4 shift value used b rest _ _ ih => exact Nat.lt_of_succ_lt (ih h)

/-- Bytes that are cut off too early are not read as anything else. -/
theorem decodeFrom_take {shift value used size : Nat} {bytes : Bytes} {v : UInt64} {n : Nat}
    (h : decodeFrom shift value used bytes = .ok (v, n)) :
    decodeFrom shift value used (bytes.take size) =
      if n ≤ used + size then .ok (v, n) else .error .varintUnfinished := by
  have hlt := lt_of_decodeFrom h
  fun_induction decodeFrom shift value used bytes generalizing size with
  | case1 => cases h
  | case2 => cases h
  | case3 shift value used b rest hb hlast =>
    cases size with
    | zero => exact (if_neg (by omega)).symm
    | succ size =>
      have hn : used + 1 = n := (Prod.mk.inj (Except.ok.inj h)).2
      rw [List.take_succ_cons, decodeFrom, if_neg hb, if_pos hlast, if_pos (by omega)]
      exact h
  | case4 shift value used b rest hb hmore ih =>
    cases size with
    | zero => exact (if_neg (by omega)).symm
    | succ size =>
      rw [List.take_succ_cons, decodeFrom, if_neg hb, if_neg hmore, ih h (lt_of_decodeFrom h)]
      simp only [Nat.add_assoc, Nat.add_comm 1 size]

theorem le_length_of_decode {bytes : Bytes} {v : UInt64} {n : Nat}
    (h : decode bytes = .ok (v, n)) : n ≤ bytes.length := by
  obtain ⟨hpos, -, hfind, -⟩ := decode_eq_ok_iff.mp h
  have hlt := lt_of_findIdx? hfind
  omega

/-- Bytes that are read as a word are no fewer than those that it is written in. -/
theorem length_encode_le_of_decode {bytes : Bytes} {v : UInt64} {n : Nat}
    (h : decode bytes = .ok (v, n)) : (encode v).length ≤ n := by
  obtain ⟨hpos, -, -, hv⟩ := decode_eq_ok_iff.mp h
  have hlt := groups_lt (bytes.take n)
  rw [hv, List.length_take, Nat.min_eq_left (le_length_of_decode h)] at hlt
  exact length_encodeNat_le hpos hlt

/-! ### Reading into a word -/

/-- A group moved to its place in a word, which has to lie inside the word and hold every set bit of
the group. -/
def place? (group : UInt64) (shift : Nat) : Option UInt64 :=
  if shift < 64 ∧ group.toNat <<< shift < UInt64.size then some (group <<< UInt64.ofNat shift)
  else none

/-- Reads on as `decodeFrom` does, but collects the groups in a word. There is no result when a
group has no place in it. -/
def wordFrom (shift : Nat) (value : UInt64) (used : Nat) :
    Bytes → Option (Except Failure (UInt64 × Nat))
  | [] => some (.error .varintUnfinished)
  | b :: rest =>
      if shift = 63 ∧ 1 < b then some (.error .varintOverflow)
      else
        match place? (b &&& 0x7F).toUInt64 shift with
        | none => none
        | some group =>
            if b &&& 0x80 = 0 then some (.ok (value ||| group, used + 1))
            else wordFrom (shift + 7) (value ||| group) (used + 1) rest

theorem toNat_group (b : UInt8) : (b &&& 0x7F).toUInt64.toNat = b.toNat % 128 := by
  rw [UInt8.toNat_toUInt64, UInt8.toNat_and]
  exact Nat.and_two_pow_sub_one_eq_mod b.toNat 7

theorem top_bit_eq_zero_iff (b : UInt8) : b &&& 0x80 = 0 ↔ b < 128 := by
  have hbits : ∀ i : Fin 256, i.val &&& 128 = 0 ↔ i.val < 128 := by decide +kernel
  rw [← UInt8.toNat_inj, UInt8.toNat_and]
  exact hbits ⟨b.toNat, b.toNat_lt⟩

/-- A group that is not refused has a place above the groups before it, so that collecting it is
adding it. -/
theorem place?_group {used : Nat} {value : UInt64} {b : UInt8} (hused : used ≤ 9)
    (hvalue : value.toNat < 2 ^ (7 * used)) (hb : ¬(used = 9 ∧ 1 < b)) :
    ∃ group, place? (b &&& 0x7F).toUInt64 (7 * used) = some group ∧
      (value ||| group).toNat = value.toNat + (b.toNat % 128) <<< (7 * used) := by
  have hsum := add_group_lt_size hused hvalue hb
  have hgroup : (b.toNat % 128) <<< (7 * used) < UInt64.size := by omega
  refine ⟨_, if_pos ⟨by omega, by rw [toNat_group]; exact hgroup⟩, ?_⟩
  have hshift : (UInt64.ofNat (7 * used)).toNat % 64 = 7 * used := by
    rw [UInt64.toNat_ofNat_of_lt' (by simp only [UInt64.size]; omega)]
    omega
  rw [UInt64.toNat_or, UInt64.toNat_shiftLeft, hshift, toNat_group, Nat.mod_eq_of_lt hgroup,
    Nat.shiftLeft_eq, Nat.or_comm, Nat.mul_comm, ← Nat.two_pow_add_eq_or_of_lt hvalue, Nat.add_comm]

theorem wordFrom_eq {used : Nat} {value : UInt64} (bytes : Bytes) (hused : used ≤ 9)
    (hvalue : value.toNat < 2 ^ (7 * used)) :
    wordFrom (7 * used) value used bytes =
      some (decodeFrom (7 * used) value.toNat used bytes) := by
  induction bytes generalizing used value with
  | nil => rfl
  | cons b rest ih =>
    rw [wordFrom]
    rcases byte_cases hused b with hrefused | ⟨hfits, hlast⟩ | ⟨hlater, hmore⟩
    · rw [decodeFrom_refused hrefused, if_pos ⟨by omega, hrefused.2⟩]
    · obtain ⟨group, hplace, hsum⟩ := place?_group hused hvalue hfits
      rw [decodeFrom_last hfits hlast, if_neg fun h => hfits ⟨by omega, h.2⟩, hplace, ← hsum,
        UInt64.ofNat_toNat]
      exact if_pos ((top_bit_eq_zero_iff b).mpr hlast)
    · obtain ⟨group, hplace, hsum⟩ := place?_group (b := b) hused hvalue fun h => by omega
      have hvalue' := add_group_lt b hvalue
      rw [← hsum] at hvalue'
      rw [decodeFrom_more hlater hmore, if_neg fun h => by omega, hplace, ← hsum,
        ← ih hlater hvalue', Nat.mul_succ]
      exact if_neg fun h => hmore ((top_bit_eq_zero_iff b).mp h)

/-- No group is moved too far and no set bit is lost. -/
theorem wordFrom_eq_decode (bytes : Bytes) : wordFrom 0 0 0 bytes = some (decode bytes) :=
  wordFrom_eq bytes (Nat.zero_le _) Nat.one_pos

/-! ### What is written -/

theorem toNat_lowest (value : UInt64) : (value &&& 0x7F).toUInt8.toNat = value.toNat % 128 := by
  rw [UInt64.toNat_toUInt8, UInt64.toNat_and]
  have hmod : value.toNat &&& 127 = value.toNat % 128 := Nat.and_two_pow_sub_one_eq_mod _ 7
  show (value.toNat &&& 127) % 256 = _
  omega

theorem lowest_eq (value : UInt64) :
    (value &&& 0x7F).toUInt8 = UInt8.ofNat (value.toNat % 128) := by
  rw [← toNat_lowest, UInt8.ofNat_toNat]

theorem lowest_or_eq (value : UInt64) :
    (value &&& 0x7F).toUInt8 ||| 0x80 = UInt8.ofNat (value.toNat % 128 + 128) := by
  have hor := Nat.two_pow_add_eq_or_of_lt (i := 7) (b := value.toNat % 128) (by omega) 1
  rw [← UInt8.toNat_inj, UInt8.toNat_or, toNat_lowest, Nat.or_comm]
  rw [UInt8.toNat_ofNat_of_lt' (by simp only [UInt8.size]; omega), Nat.add_comm]
  exact hor.symm

theorem above_eq_zero_iff (value : UInt64) : value >>> 7 = 0 ↔ value.toNat < 128 := by
  rw [← UInt64.toNat_inj, toNat_above]
  show value.toNat / 128 = 0 ↔ _
  omega

theorem writeFrom_eq (buffer : Array UInt8) (value : UInt64) (written : Nat) :
    writeFrom buffer value written =
      (buffer ++ encode value, written + (encode value).length) := by
  fun_induction writeFrom buffer value written with
  | case1 buffer value written group above hlast =>
    have hsmall : value.toNat < 128 := (above_eq_zero_iff value).mp hlast
    have hbytes : encode value = [group] := by
      rw [encode, encodeNat_of_lt hsmall, show group = _ from lowest_eq value,
        Nat.mod_eq_of_lt hsmall]
    rw [hbytes]
    simp
  | case2 buffer value written group above hmore ih =>
    have hlarge : 128 ≤ value.toNat := Nat.not_lt.mp fun h => hmore ((above_eq_zero_iff value).mpr h)
    have hbytes : encode value = (group ||| 0x80) :: encode above := by
      rw [encode, encodeNat_of_le hlarge, show group ||| 0x80 = _ from lowest_or_eq value, encode,
        show above.toNat = _ from toNat_above value]
    rw [ih, hbytes]
    simp [Nat.add_assoc, Nat.add_comm 1]

/-- Writing adds the bytes of a word and tells their number. -/
theorem write_eq (buffer : Array UInt8) (value : UInt64) :
    write buffer value = (buffer ++ encode value, (encode value).length) := by
  rw [write, writeFrom_eq, Nat.zero_add]

/-! ### The codec -/

/-- Bytes are read exactly when the first of them without a top bit is among the first ten and the
groups up to it are worth less than `2 ^ 64`; anything else is a storage failure, and reading into a
word neither shifts too far nor loses a bit. A word is read from the bytes that are written for it,
whatever follows them, and from no fewer. -/
theorem codec_exact (bytes : Bytes) (v : UInt64) (buffer : Array UInt8) :
    (∀ n, decode bytes = .ok (v, n) ↔
        0 < n ∧ n ≤ 10 ∧ bytes.findIdx? (· < 128) = some (n - 1) ∧
          groups (bytes.take n) < UInt64.size ∧ groups (bytes.take n) = v.toNat) ∧
      ((∃ word n, decode bytes = .ok (word, n)) ∨
        ∃ e, decode bytes = .error e ∧ e.kind = .storage) ∧
      wordFrom 0 0 0 bytes = some (decode bytes) ∧
      write buffer v = (buffer ++ encode v, (encode v).length) ∧
      (∀ rest, decode (encode v ++ rest) = .ok (v, (encode v).length)) ∧
      (bytes.length < (encode v).length → ∀ n, decode bytes ≠ .ok (v, n)) := by
  refine ⟨fun n => ?_, ?_, wordFrom_eq_decode bytes, write_eq buffer v, decode_encode v,
    fun hshort n h => ?_⟩
  · rw [decode_eq_ok_iff]
    refine and_congr_right fun _ => and_congr_right fun _ => and_congr_right fun _ => ?_
    exact ⟨fun hv => ⟨hv ▸ v.toNat_lt, hv⟩, And.right⟩
  · cases h : decode bytes with
    | ok found => exact .inl ⟨found.1, found.2, rfl⟩
    | error e => exact .inr ⟨e, rfl, kind_of_decodeFrom h⟩
  · have hle := le_length_of_decode h
    have hmin := length_encode_le_of_decode h
    omega

/-- The tenth byte of ten may have its lowest bit only, and nine bytes do not make that word. -/
theorem codec_exact_tenth :
    let zeros : Bytes := List.replicate 9 0x80
    decode (zeros ++ [1]) = .ok (9223372036854775808, 10) ∧
      (∃ e, decode (zeros ++ [2]) = .error e ∧ e.kind = .storage) ∧
      zeros.length < (encode 9223372036854775808).length ∧
      ∀ n, decode zeros ≠ .ok (9223372036854775808, n) := by
  intro zeros
  obtain ⟨hread, -⟩ := codec_exact (zeros ++ [1]) 9223372036854775808 #[]
  obtain ⟨-, hrefused, -⟩ := codec_exact (zeros ++ [2]) 0 #[]
  obtain ⟨-, -, -, -, -, hshort⟩ := codec_exact zeros 9223372036854775808 #[]
  have hten : decode (zeros ++ [1]) = .ok (9223372036854775808, 10) := (hread 10).mpr (by decide)
  have hlength : zeros.length < (encode 9223372036854775808).length := by
    rw [encode]
    repeat rw [encodeNat_of_le (by decide)]
    rw [encodeNat_of_lt (by decide)]
    decide
  refine ⟨hten, hrefused.resolve_left ?_, hlength, hshort hlength⟩
  rintro ⟨v, n, h⟩
  have hrefuse : decode (zeros ++ [2]) = .error .varintOverflow := rfl
  rw [hrefuse] at h
  cases h

end Concordance.Varint
