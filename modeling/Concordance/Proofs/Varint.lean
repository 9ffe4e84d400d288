import Concordance.Varint
import Mathlib.Algebra.Ring.Nat

/-!
# Reading back a varint

`decode_encode` says that the word at the front of some bytes is the one that was written there.
-/

namespace Concordance.Varint

theorem encodeNat_of_lt {n : Nat} (h : n < 128) : encodeNat n = [UInt8.ofNat n] := by
  rw [encodeNat, if_pos h]

theorem encodeNat_of_le {n : Nat} (h : 128 ≤ n) :
    encodeNat n = UInt8.ofNat (n % 128 + 128) :: encodeNat (n / 128) := by
  rw [encodeNat, if_neg (by omega)]

theorem encodeNat_ne_nil (n : Nat) : encodeNat n ≠ [] := by
  rw [encodeNat]
  split <;> exact List.cons_ne_nil _ _

/-- The lowest group of a number, moved to its place, and the groups above it. -/
theorem shiftLeft_groups (n shift : Nat) :
    (n % 128) <<< shift + (n / 128) <<< (shift + 7) = n <<< shift := by
  have h := Nat.mod_add_div n 128
  have hpow : 2 ^ (shift + 7) = 2 ^ shift * 128 := Nat.pow_add 2 shift 7
  rw [Nat.shiftLeft_eq, Nat.shiftLeft_eq, Nat.shiftLeft_eq, hpow]
  calc n % 128 * 2 ^ shift + n / 128 * (2 ^ shift * 128)
      = (n % 128 + 128 * (n / 128)) * 2 ^ shift := by
        rw [Nat.add_mul, Nat.mul_comm (2 ^ shift), ← Nat.mul_assoc, Nat.mul_comm (n / 128)]
    _ = n * 2 ^ shift := by rw [h]

/-- Reading goes through the groups of a number that fits above the groups read before. -/
theorem decodeFrom_encodeNat (n shift value used : Nat) (rest : Bytes)
    (hs : shift ≤ 63) (h7 : shift % 7 = 0) (hn : n < 2 ^ (64 - shift)) :
    decodeFrom shift value used (encodeNat n ++ rest) =
      .ok (UInt64.ofNat (value + n <<< shift), used + (encodeNat n).length) := by
  induction n using Nat.strongRecOn generalizing shift value used with
  | ind n ih =>
    -- The tenth group has one bit.
    have htop : shift = 63 → n < 2 := by
      rintro rfl
      simpa using hn
    by_cases hlt : n < 128
    · have hb : (UInt8.ofNat n).toNat = n := by simp; omega
      rw [encodeNat_of_lt hlt, List.singleton_append, decodeFrom, if_neg, if_pos, hb]
      · rfl
      · rw [UInt8.lt_iff_toNat_lt, hb]
        exact hlt
      · rw [UInt8.lt_iff_toNat_lt, hb]
        rintro ⟨h63, h1⟩
        have := htop h63
        simp at h1
        omega
    · have hle : 128 ≤ n := by omega
      have hs' : shift + 7 ≤ 63 := by
        by_cases h63 : shift = 63
        · have := htop h63
          omega
        · omega
      have hb : (UInt8.ofNat (n % 128 + 128)).toNat = n % 128 + 128 := by simp; omega
      have hdiv : n / 128 < 2 ^ (64 - (shift + 7)) := by
        rw [Nat.div_lt_iff_lt_mul (by omega), show 128 = 2 ^ 7 from rfl, ← Nat.pow_add]
        rwa [show 64 - (shift + 7) + 7 = 64 - shift by omega]
      rw [encodeNat_of_le hle, List.cons_append, decodeFrom, if_neg, if_neg, hb,
        ih (n / 128) (Nat.div_lt_self (by omega) (by omega)) _ _ _ hs' (by omega) hdiv]
      · rw [show (n % 128 + 128) % 128 = n % 128 by omega, Nat.add_assoc, shiftLeft_groups,
          List.length_cons, Nat.add_assoc, Nat.add_comm 1]
      · rw [UInt8.lt_iff_toNat_lt, hb]
        simp
      · rintro ⟨h63, _⟩
        omega

/-- The word at the front of some bytes is the one written there. -/
theorem decode_encode (n : UInt64) (rest : Bytes) :
    decode (encode n ++ rest) = .ok (n, (encode n).length) := by
  have h := decodeFrom_encodeNat n.toNat 0 0 0 rest (by omega) rfl n.toNat_lt
  simpa [decode, encode] using h

theorem encode_ne_nil (n : UInt64) : encode n ≠ [] := encodeNat_ne_nil _

/-- A number of `k` groups takes `k` bytes. -/
theorem length_encodeNat_le {n k : Nat} (hk : 0 < k) (h : n < 2 ^ (7 * k)) :
    (encodeNat n).length ≤ k := by
  induction k generalizing n with
  | zero => omega
  | succ k ih =>
    by_cases hlt : n < 128
    · rw [encodeNat_of_lt hlt, List.length_singleton]
      omega
    · have hk0 : 0 < k := by
        by_cases h0 : k = 0
        · subst h0
          simp at h
          omega
        · omega
      rw [encodeNat_of_le (by omega), List.length_cons]
      refine Nat.succ_le_succ (ih hk0 ?_)
      rw [Nat.div_lt_iff_lt_mul (by omega), show 128 = 2 ^ 7 from rfl, ← Nat.pow_add]
      exact h

theorem length_encode_le (n : UInt64) : (encode n).length ≤ 10 :=
  length_encodeNat_le (by omega) (Nat.lt_of_lt_of_le n.toNat_lt (by decide))

end Concordance.Varint
