import Concordance.Failure
import Concordance.Text.Utf8

/-!
# Variable-length integers

A number is written seven bits to the byte, the lowest first, and every byte but the last has its
top bit set. A 64-bit word takes at most ten bytes, of whose tenth only the lowest bit counts.
-/

namespace Concordance.Varint

def encodeNat (n : Nat) : Bytes :=
  if n < 128 then [UInt8.ofNat n] else UInt8.ofNat (n % 128 + 128) :: encodeNat (n / 128)

def encode (n : UInt64) : Bytes := encodeNat n.toNat

/-! ### Writing behind a buffer -/

theorem toNat_above (value : UInt64) : (value >>> 7).toNat = value.toNat / 128 := by
  rw [UInt64.toNat_shiftRight, Nat.shiftRight_eq_div_pow]
  rfl

/-- Writes what is left of a word that took `written` bytes so far. -/
def writeFrom (buffer : Array UInt8) (value : UInt64) (written : Nat) : Array UInt8 × Nat :=
  let group := (value &&& 0x7F).toUInt8
  let above := value >>> 7
  if above = 0 then (buffer.push group, written + 1)
  else writeFrom (buffer.push (group ||| 0x80)) above (written + 1)
termination_by value.toNat
decreasing_by
  rename_i habove
  have hne : (value >>> 7).toNat ≠ 0 := fun h => habove (UInt64.toNat_inj.mp h)
  have hdiv := toNat_above value
  show (value >>> 7).toNat < value.toNat
  omega

/-- Writes a word behind the bytes of a buffer: the buffer, and how many bytes the word takes. -/
def write (buffer : Array UInt8) (value : UInt64) : Array UInt8 × Nat := writeFrom buffer value 0

/-! ### Reading -/

/-- Reads on after `used` bytes whose groups add up to `value`; the next group is worth
`2 ^ shift`. -/
def decodeFrom (shift value used : Nat) : Bytes → Except Failure (UInt64 × Nat)
  | [] => .error .varintUnfinished
  | b :: rest =>
      if shift = 63 ∧ 1 < b then .error .varintOverflow
      else if b < 128 then .ok (UInt64.ofNat (value + b.toNat <<< shift), used + 1)
      else decodeFrom (shift + 7) (value + (b.toNat % 128) <<< shift) (used + 1) rest

def decode (bytes : Bytes) : Except Failure (UInt64 × Nat) := decodeFrom 0 0 0 bytes

/-! ### Reading inside an array -/

/-- As `decodeFrom`, on the bytes of an array from an offset on. -/
def decodeFromAt (data : Array UInt8) (offset shift value used : Nat) :
    Except Failure (UInt64 × Nat) :=
  if h : offset < data.size then
    let b := data[offset]
    if shift = 63 ∧ 1 < b then .error .varintOverflow
    else if b < 128 then .ok (UInt64.ofNat (value + b.toNat <<< shift), used + 1)
    else decodeFromAt data (offset + 1) (shift + 7) (value + (b.toNat % 128) <<< shift) (used + 1)
  else .error .varintUnfinished
termination_by data.size - offset

/-- The word at an offset of an array, and how many bytes it takes; most take one. -/
@[inline] def decodeAt (data : Array UInt8) (offset : Nat) : Except Failure (UInt64 × Nat) :=
  if h : offset < data.size then
    if data[offset] < 128 then .ok (data[offset].toUInt64, 1) else decodeFromAt data offset 0 0 0
  else .error .varintUnfinished

theorem decodeFromAt_eq (data : Array UInt8) (offset shift value used : Nat) :
    decodeFromAt data offset shift value used =
      decodeFrom shift value used (data.toList.drop offset) := by
  fun_induction decodeFromAt data offset shift value used with
  | case1 offset shift value used h b hb =>
    have hd := List.drop_eq_getElem_cons (Array.length_toList ▸ h : offset < data.toList.length)
    rw [hd]
    simp only [decodeFrom, Array.getElem_toList]
    rw [if_pos hb]
  | case2 offset shift value used h b hb hs =>
    have hd := List.drop_eq_getElem_cons (Array.length_toList ▸ h : offset < data.toList.length)
    rw [hd]
    simp only [decodeFrom, Array.getElem_toList]
    rw [if_neg hb, if_pos hs]
  | case3 offset shift value used h b hb hs ih =>
    have hd := List.drop_eq_getElem_cons (Array.length_toList ▸ h : offset < data.toList.length)
    rw [hd, ih]
    simp only [decodeFrom, Array.getElem_toList]
    rw [if_neg hb, if_neg hs]
  | case4 offset shift value used h =>
    rw [List.drop_eq_nil_of_le (by simpa using h)]
    rfl

/-- Reading inside an array is reading the bytes from the offset on. -/
theorem decodeAt_eq (data : Array UInt8) (offset : Nat) :
    decodeAt data offset = decode (data.toList.drop offset) := by
  rw [decode, ← decodeFromAt_eq]
  unfold decodeAt
  split
  · rename_i h
    split
    · rename_i hb
      unfold decodeFromAt
      simp only [h, hb, dif_pos, if_pos]
      simp
    · rfl
  · rename_i h
    unfold decodeFromAt
    rw [dif_neg h]

end Concordance.Varint
