import Concordance.Binary
import Mathlib

/-!
# Rounding of integers

Rounding an integer to a binary format keeps the order: `BinaryFormat.orderKey_ofInt_mono`.
-/

namespace Concordance

/-! ### Rounding to a natural number -/

theorem roundHalfEven_mono {a b : Nat} (den : Nat) (hab : a ≤ b) :
    roundHalfEven a den ≤ roundHalfEven b den := by
  have hdiv : a / den ≤ b / den := Nat.div_le_div_right hab
  unfold roundHalfEven
  rcases Nat.lt_or_eq_of_le hdiv with hlt | heq
  · dsimp only
    split_ifs <;> omega
  · have hmod : a % den ≤ b % den := by
      have ha := Nat.div_add_mod a den
      have hb := Nat.div_add_mod b den
      rw [heq] at ha
      omega
    rw [heq]
    dsimp only
    split_ifs <;> omega

theorem roundHalfEven_mul {den : Nat} (hden : 0 < den) (k : Nat) :
    roundHalfEven (k * den) den = k := by
  unfold roundHalfEven
  rw [Nat.mul_mod_left, Nat.mul_div_cancel _ hden]
  exact if_pos hden

namespace BinaryFormat

variable (f : BinaryFormat)

/-! ### Magnitudes of integers -/

/-- The exponent that the significant bits of an integer are counted in. -/
def exponentFor (num : Nat) : Int := max (num.log2 - (f.precision - 1 : Nat)) f.minExponent

def significandFor (num : Nat) : Nat :=
  roundHalfEven (num <<< (-f.exponentFor num).toNat) (1 <<< (f.exponentFor num).toNat)

theorem significandFor_eq (num : Nat) : f.significandFor num =
    roundHalfEven (num * 2 ^ (-f.exponentFor num).toNat) (2 ^ (f.exponentFor num).toNat) := by
  rw [significandFor, Nat.shiftLeft_eq, Nat.one_shiftLeft]

theorem floorLog2_one {num : Nat} (hnum : num ≠ 0) : floorLog2 num 1 = num.log2 := by
  have hpow : 2 ^ num.log2 ≤ num := Nat.log2_self_le hnum
  have hguess : (num.log2 : Int) - ((1 : Nat).log2 : Int) = num.log2 := Int.sub_zero _
  unfold floorLog2
  rw [hguess]
  dsimp only
  rw [if_neg]
  simpa [Nat.shiftLeft_eq] using hpow

theorem round_one {num : Nat} (hnum : num ≠ 0) :
    f.round num 1 = min ((f.exponentFor num - f.minExponent).toNat * f.exponentUnit +
      f.significandFor num) f.infinity := by
  rw [round, if_neg hnum, floorLog2_one hnum]
  rfl

theorem exponentUnit_eq : f.exponentUnit = 2 ^ (f.precision - 1) := Nat.one_shiftLeft _

theorem significandFor_le (hp : 0 < f.precision) (num : Nat) :
    f.significandFor num ≤ 2 * f.exponentUnit := by
  have hexponent : (num.log2 - (f.precision - 1 : Nat) : Int) ≤ f.exponentFor num :=
    Int.le_max_left _ _
  have hunit : 2 * f.exponentUnit = 2 ^ f.precision := by
    rw [exponentUnit_eq, ← Nat.pow_succ', Nat.succ_eq_add_one, Nat.sub_add_cancel hp]
  have hden : 0 < 2 ^ (f.exponentFor num).toNat := Nat.two_pow_pos _
  have hnum : num * 2 ^ (-f.exponentFor num).toNat ≤
      2 * f.exponentUnit * 2 ^ (f.exponentFor num).toNat := by
    calc num * 2 ^ (-f.exponentFor num).toNat
        ≤ 2 ^ (num.log2 + 1) * 2 ^ (-f.exponentFor num).toNat :=
          Nat.mul_le_mul_right _ (Nat.le_of_lt Nat.lt_log2_self)
      _ = 2 ^ (num.log2 + 1 + (-f.exponentFor num).toNat) := (Nat.pow_add _ _ _).symm
      _ ≤ 2 ^ (f.precision + (f.exponentFor num).toNat) :=
          Nat.pow_le_pow_right Nat.zero_lt_two (by omega)
      _ = 2 * f.exponentUnit * 2 ^ (f.exponentFor num).toNat := by rw [Nat.pow_add, hunit]
  rw [significandFor_eq]
  calc roundHalfEven _ _
      ≤ roundHalfEven (2 * f.exponentUnit * 2 ^ (f.exponentFor num).toNat) _ :=
        roundHalfEven_mono _ hnum
    _ = 2 * f.exponentUnit := roundHalfEven_mul hden _

/-- Above the smallest exponent the leading significant bit is set. -/
theorem exponentUnit_le_significandFor {num : Nat} (hnum : num ≠ 0)
    (hnormal : f.minExponent < f.exponentFor num) : f.exponentUnit ≤ f.significandFor num := by
  have hexponent : f.exponentFor num = num.log2 - (f.precision - 1 : Nat) := by
    unfold exponentFor at hnormal ⊢
    omega
  have hden : 0 < 2 ^ (f.exponentFor num).toNat := Nat.two_pow_pos _
  have hle : f.exponentUnit * 2 ^ (f.exponentFor num).toNat ≤
      num * 2 ^ (-f.exponentFor num).toNat := by
    calc f.exponentUnit * 2 ^ (f.exponentFor num).toNat
        = 2 ^ (f.precision - 1 + (f.exponentFor num).toNat) := by rw [exponentUnit_eq, Nat.pow_add]
      _ = 2 ^ (num.log2 + (-f.exponentFor num).toNat) := congrArg (2 ^ ·) (by omega)
      _ = 2 ^ num.log2 * 2 ^ (-f.exponentFor num).toNat := Nat.pow_add _ _ _
      _ ≤ num * 2 ^ (-f.exponentFor num).toNat := Nat.mul_le_mul_right _ (Nat.log2_self_le hnum)
  rw [significandFor_eq]
  calc f.exponentUnit
      = roundHalfEven (f.exponentUnit * 2 ^ (f.exponentFor num).toNat) _ :=
        (roundHalfEven_mul hden _).symm
    _ ≤ roundHalfEven _ _ := roundHalfEven_mono _ hle

theorem exponentFor_mono {a b : Nat} (hab : a ≤ b) : f.exponentFor a ≤ f.exponentFor b := by
  have hlog : a.log2 ≤ b.log2 := by
    rw [Nat.log2_eq_log_two, Nat.log2_eq_log_two]
    exact Nat.log_mono_right hab
  unfold exponentFor
  omega

theorem round_one_mono (hp : 0 < f.precision) {a b : Nat} (hab : a ≤ b) :
    f.round a 1 ≤ f.round b 1 := by
  by_cases ha : a = 0
  · rw [ha, round, if_pos rfl]
    exact Nat.zero_le _
  have hb : b ≠ 0 := by omega
  rw [f.round_one ha, f.round_one hb]
  apply min_le_min_right
  rcases Int.lt_or_eq_of_le (f.exponentFor_mono hab) with hlt | heq
  · -- the significand of `a` carries by one exponent at the most
    have hmin : f.minExponent ≤ f.exponentFor a := Int.le_max_right _ _
    have hsteps : (f.exponentFor a - f.minExponent).toNat + 1 ≤
        (f.exponentFor b - f.minExponent).toNat := by omega
    have hmul := Nat.mul_le_mul_right f.exponentUnit hsteps
    have hcarry := f.significandFor_le hp a
    have hlead := f.exponentUnit_le_significandFor hb (by omega)
    rw [Nat.add_mul] at hmul
    omega
  · rw [heq]
    apply Nat.add_le_add_left
    rw [significandFor_eq, significandFor_eq, heq]
    exact roundHalfEven_mono _ (Nat.mul_le_mul_right _ hab)

/-! ### Order -/

theorem infinity_lt_signWeight : f.infinity < f.signWeight := by
  unfold infinity signWeight
  rw [Nat.shiftLeft_eq f.exponentUnit, Nat.one_shiftLeft, Nat.mul_comm f.exponentUnit]
  have hunit : 0 < f.exponentUnit := f.exponentUnit_eq ▸ Nat.two_pow_pos _
  exact Nat.mul_lt_mul_of_pos_right (Nat.sub_lt (Nat.two_pow_pos _) Nat.zero_lt_one) hunit

theorem round_lt_signWeight (num den : Nat) : f.round num den < f.signWeight := by
  refine Nat.lt_of_le_of_lt ?_ f.infinity_lt_signWeight
  unfold round
  split
  · exact Nat.zero_le _
  · exact Nat.min_le_right _ _

theorem ofInt_lt (n : Int) : f.ofInt n < 2 * f.signWeight := by
  have hlt := f.round_lt_signWeight n.natAbs 1
  unfold ofInt withSign
  split <;> omega

theorem orderKey_withSign (negative : Bool) {magnitude : Nat} (h : magnitude < f.signWeight) :
    f.orderKey (f.withSign negative magnitude) =
      if negative then -(magnitude : Int) - 1 else magnitude := by
  cases negative with
  | true =>
    have hmod : (f.signWeight + magnitude) % f.signWeight = magnitude := by
      rw [Nat.add_mod_left, Nat.mod_eq_of_lt h]
    simp [orderKey, withSign, isNegative, BinaryFormat.magnitude, hmod]
  | false => simp [orderKey, withSign, isNegative, BinaryFormat.magnitude, Nat.mod_eq_of_lt h, h]

theorem orderKey_ofInt_mono (hp : 0 < f.precision) {m n : Int} (hmn : m ≤ n) :
    f.orderKey (f.ofInt m) ≤ f.orderKey (f.ofInt n) := by
  unfold ofInt
  rw [f.orderKey_withSign _ (f.round_lt_signWeight _ _),
    f.orderKey_withSign _ (f.round_lt_signWeight _ _)]
  by_cases hm : m < 0
  · by_cases hn : n < 0
    · have hround := f.round_one_mono hp (a := n.natAbs) (b := m.natAbs) (by omega)
      simp only [hm, hn, decide_true, if_true]
      omega
    · simp only [hm, hn, decide_true, decide_false, if_true, Bool.false_eq_true, if_false]
      omega
  · have hn : ¬n < 0 := by omega
    have hround := f.round_one_mono hp (a := m.natAbs) (b := n.natAbs) (by omega)
    simp only [hm, hn, decide_false, Bool.false_eq_true, if_false]
    omega

/-- The key tells all bits apart. -/
theorem orderKey_inj {a b : Nat} (ha : a < 2 * f.signWeight) (hb : b < 2 * f.signWeight)
    (h : f.orderKey a = f.orderKey b) : a = b := by
  have hpositive : ∀ {x}, x < f.signWeight → f.orderKey x = x := fun {x} hx =>
    f.orderKey_withSign false hx
  have hnegative : ∀ {x}, f.signWeight ≤ x → x < 2 * f.signWeight →
      f.orderKey x = -((x - f.signWeight : Nat) : Int) - 1 := fun {x} hle hlt => by
    have hsign : f.withSign true (x - f.signWeight) = x := Nat.add_sub_cancel' hle
    have hmagnitude : x - f.signWeight < f.signWeight := by omega
    have hkey := f.orderKey_withSign true hmagnitude
    rwa [hsign] at hkey
  rcases Nat.lt_or_ge a f.signWeight with hla | hla
  · rcases Nat.lt_or_ge b f.signWeight with hlb | hlb
    · rw [hpositive hla, hpositive hlb] at h
      exact Int.ofNat.inj h
    · rw [hpositive hla, hnegative hlb hb] at h
      omega
  · rcases Nat.lt_or_ge b f.signWeight with hlb | hlb
    · rw [hnegative hla ha, hpositive hlb] at h
      omega
    · rw [hnegative hla ha, hnegative hlb hb] at h
      omega

end BinaryFormat

end Concordance
