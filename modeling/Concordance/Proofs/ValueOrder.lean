import Concordance.Match.Ordering
import Concordance.Proofs.Grouping
import Concordance.Proofs.Rounding

/-!
# The order of values

Values compare by their kinds, and within a kind by a total order; only for numbers two orders meet,
the exact one of integers and that of floats. Comparing is reflexive and antisymmetric throughout,
and transitive but for integers that round to one float between them: `Value.compare_orders`.
-/

namespace Concordance

/-! ### Bytes -/

namespace Value

theorem isLE_compareBytes {a b : Bytes} : (compareBytes a b).isLE ↔ a ≤ b := by
  unfold compareBytes
  by_cases hab : a < b
  · rw [if_pos hab]
    exact iff_of_true rfl (List.le_of_lt hab)
  · by_cases hba : b < a
    · rw [if_neg hab, if_pos hba]
      exact iff_of_false (by decide) (fun hle => hle hba)
    · rw [if_neg hab, if_neg hba]
      exact iff_of_true rfl hba

theorem compareBytes_swap (a b : Bytes) : compareBytes a b = (compareBytes b a).swap := by
  unfold compareBytes
  by_cases hab : a < b
  · rw [if_pos hab, if_neg (List.lt_asymm hab), if_pos hab]
    rfl
  · rw [if_neg hab, if_neg hab]
    split <;> rfl

theorem compareBytes_trans {a b c : Bytes} (hab : (compareBytes a b).isLE)
    (hbc : (compareBytes b c).isLE) : (compareBytes a c).isLE :=
  isLE_compareBytes.mpr (List.le_trans (isLE_compareBytes.mp hab) (isLE_compareBytes.mp hbc))

end Value

/-! ### Floats -/

namespace Binary64

open BinaryFormat (binary64)

/-- The place of a float in the total order. -/
def orderKey (x : Binary64) : Int := binary64.orderKey x.bits.toNat

theorem orderKey_inj {x y : Binary64} (h : x.orderKey = y.orderKey) : x = y := by
  have hbits : x.bits.toNat = y.bits.toNat :=
    binary64.orderKey_inj x.bits.toNat_lt y.bits.toNat_lt h
  obtain ⟨bits⟩ := x
  obtain ⟨bits'⟩ := y
  exact congrArg mk (UInt64.toNat_inj.mp hbits)

theorem orderKey_ofInt_mono {m n : Int} (hmn : m ≤ n) :
    (ofInt m).orderKey ≤ (ofInt n).orderKey := by
  have hbits : ∀ n, (ofInt n).orderKey = binary64.orderKey (binary64.ofInt n) := fun n => by
    have hlt : binary64.ofInt n < UInt64.size := binary64.ofInt_lt n
    unfold orderKey ofInt ofNatBits
    rw [UInt64.toNat_ofNat_of_lt' hlt]
  rw [hbits, hbits]
  exact binary64.orderKey_ofInt_mono (by decide) hmn

instance : Std.TransCmp totalCompare :=
  inferInstanceAs (Std.TransCmp (compareOn orderKey))

theorem totalCompare_swap (x y : Binary64) : x.totalCompare y = (y.totalCompare x).swap :=
  Std.OrientedCmp.eq_swap

theorem isLE_totalCompare {x y : Binary64} : (x.totalCompare y).isLE ↔ x.orderKey ≤ y.orderKey :=
  Int.isLE_compare

end Binary64

/-! ### Values -/

namespace Value

variable {a b c : Value}

theorem compare_swap (a b : Value) : a.compare b = (b.compare a).swap := by
  cases a with
  | text s =>
    cases b with
    | text t => exact compareBytes_swap _ _
    | _ => rfl
  | integer m =>
    cases b with
    | integer n => exact Std.OrientedOrd.eq_swap
    | float y => exact Binary64.totalCompare_swap _ _
    | _ => rfl
  | float x =>
    cases b with
    | integer _ | float _ => exact Binary64.totalCompare_swap _ _
    | _ => rfl
  | boolean x =>
    cases b with
    | boolean y => exact Std.OrientedOrd.eq_swap
    | _ => rfl
  | binary s =>
    cases b with
    | binary t => exact compareBytes_swap _ _
    | _ => rfl

theorem compare_self (a : Value) : a.compare a = .eq := by
  have h := compare_swap a a
  cases hself : a.compare a with
  | eq => rfl
  | lt | gt =>
    rw [hself] at h
    cases h

theorem compare_of_rank_ne (h : a.rank ≠ b.rank) :
    a.compare b = Ord.compare a.rank b.rank := by
  cases a with
  | text =>
    cases b with
    | text => exact absurd rfl h
    | _ => rfl
  | integer | float =>
    cases b with
    | integer | float => exact absurd rfl h
    | _ => rfl
  | boolean =>
    cases b with
    | boolean => exact absurd rfl h
    | _ => rfl
  | binary =>
    cases b with
    | binary => exact absurd rfl h
    | _ => rfl

theorem compare_of_rank_lt (h : a.rank < b.rank) : a.compare b = .lt :=
  (compare_of_rank_ne (Nat.ne_of_lt h)).trans (Nat.compare_eq_lt.mpr h)

theorem rank_le_of_isLE (h : (a.compare b).isLE) : a.rank ≤ b.rank := by
  by_contra hlt
  rw [compare_swap, compare_of_rank_lt (Nat.lt_of_not_le hlt)] at h
  cases h

theorem asFloat?_of_rank_eq {y : Binary64} (hb : b.asFloat? = some y) (h : a.rank = b.rank) :
    ∃ x, a.asFloat? = some x := by
  cases a <;> cases b <;> simp_all [rank, asFloat?]

/-- Numbers compare as floats unless both are integers. -/
theorem compare_numbers {x y : Binary64} (ha : a.asFloat? = some x) (hb : b.asFloat? = some y) :
    a.compare b = x.totalCompare y ∨ ∃ m n, a = .integer m ∧ b = .integer n := by
  cases a with
  | integer m =>
    cases b with
    | integer n => exact .inr ⟨m, n, rfl, rfl⟩
    | float z =>
      obtain rfl := Option.some.inj ha
      obtain rfl := Option.some.inj hb
      exact .inl rfl
    | _ => cases hb
  | float w =>
    obtain rfl := Option.some.inj ha
    cases b with
    | integer _ | float _ =>
      obtain rfl := Option.some.inj hb
      exact .inl rfl
    | _ => cases hb
  | _ => cases ha

theorem orderKey_le_of_isLE {x y : Binary64} (ha : a.asFloat? = some x) (hb : b.asFloat? = some y)
    (h : (a.compare b).isLE) : x.orderKey ≤ y.orderKey := by
  rcases compare_numbers ha hb with heq | ⟨m, n, rfl, rfl⟩
  · rw [heq] at h
    exact Binary64.isLE_totalCompare.mp h
  · obtain rfl := Option.some.inj ha
    obtain rfl := Option.some.inj hb
    exact Binary64.orderKey_ofInt_mono (Int.isLE_compare.mp h)

theorem isLE_trans_of_no_number (hb : b.asFloat? = none) (hab : (a.compare b).isLE)
    (hbc : (b.compare c).isLE) : (a.compare c).isLE := by
  have hab' := rank_le_of_isLE hab
  have hbc' := rank_le_of_isLE hbc
  by_cases hlt : a.rank < c.rank
  · rw [compare_of_rank_lt hlt]
    rfl
  have ha : a.rank = b.rank := by omega
  have hc : c.rank = b.rank := by omega
  cases b with
  | text t =>
    obtain ⟨s, rfl⟩ : ∃ s, a = .text s := by cases a <;> simp_all [rank]
    obtain ⟨u, rfl⟩ : ∃ u, c = .text u := by cases c <;> simp_all [rank]
    exact compareBytes_trans hab hbc
  | binary t =>
    obtain ⟨s, rfl⟩ : ∃ s, a = .binary s := by cases a <;> simp_all [rank]
    obtain ⟨u, rfl⟩ : ∃ u, c = .binary u := by cases c <;> simp_all [rank]
    exact compareBytes_trans hab hbc
  | boolean y =>
    obtain ⟨x, rfl⟩ : ∃ x, a = .boolean x := by cases a <;> simp_all [rank]
    obtain ⟨z, rfl⟩ : ∃ z, c = .boolean z := by cases c <;> simp_all [rank]
    exact Nat.isLE_compare.mpr (Nat.le_trans (Nat.isLE_compare.mp hab) (Nat.isLE_compare.mp hbc))
  | integer | float => cases hb

/-- Two integers out of order, between which a float stands that both round to. -/
def Blurred (a b c : Value) : Prop :=
  ∃ m x n, a = .integer m ∧ b = .float x ∧ c = .integer n ∧ n < m ∧
    Binary64.ofInt m.toInt = x ∧ Binary64.ofInt n.toInt = x

theorem Blurred.compare_eq (h : Blurred a b c) : a.compare c = .gt := by
  obtain ⟨m, -, n, rfl, -, rfl, hnm, -⟩ := h
  exact Int.compare_eq_gt.mpr (Int64.lt_iff_toInt_lt.mp hnm)

theorem isLE_trans_iff (hab : (a.compare b).isLE) (hbc : (b.compare c).isLE) :
    (a.compare c).isLE ↔ ¬Blurred a b c := by
  constructor
  · intro hac hblurred
    rw [hblurred.compare_eq] at hac
    cases hac
  intro hclear
  cases hb : b.asFloat? with
  | none => exact isLE_trans_of_no_number hb hab hbc
  | some y =>
    have hab' := rank_le_of_isLE hab
    have hbc' := rank_le_of_isLE hbc
    by_cases hlt : a.rank < c.rank
    · rw [compare_of_rank_lt hlt]
      rfl
    obtain ⟨x, ha⟩ := asFloat?_of_rank_eq hb (a := a) (by omega)
    obtain ⟨z, hc⟩ := asFloat?_of_rank_eq hb (a := c) (by omega)
    have hxy := orderKey_le_of_isLE ha hb hab
    have hyz := orderKey_le_of_isLE hb hc hbc
    rcases compare_numbers ha hc with heq | ⟨m, n, rfl, rfl⟩
    · rw [heq]
      exact Binary64.isLE_totalCompare.mpr (Int.le_trans hxy hyz)
    · -- the float between two integers that are out of order is the one that both round to
      apply Int.isLE_compare.mpr
      by_contra hnm
      obtain rfl := Option.some.inj ha
      obtain rfl := Option.some.inj hc
      have hzx := Binary64.orderKey_ofInt_mono (Int.le_of_lt (Int.not_le.mp hnm))
      cases b with
      | integer k => exact hnm (Int.le_trans (Int.isLE_compare.mp hab) (Int.isLE_compare.mp hbc))
      | float w =>
        obtain rfl := Option.some.inj hb
        exact hclear ⟨m, w, n, rfl, rfl, rfl, Int64.lt_iff_toInt_lt.mpr (Int.not_le.mp hnm),
          Binary64.orderKey_inj (Int.le_antisymm hxy (Int.le_trans hyz hzx)),
          Binary64.orderKey_inj (Int.le_antisymm (Int.le_trans hzx hxy) hyz)⟩
      | _ => cases hb

end Value

/-! ### Entries -/

namespace SortComparer

/-- Three values, none of them missing, two of which round to the one between them. -/
def Blurred : Bool → Option Value → Option Value → Option Value → Prop
  | false, some a, some b, some c => Value.Blurred a b c
  | true, some a, some b, some c => Value.Blurred c b a
  | _, _, _, _ => False

variable {descending : Bool} {x y z : Option Value}

theorem compareValues_self (descending : Bool) (x : Option Value) :
    compareValues descending x x = .eq := by
  cases x with
  | none => rfl
  | some a => cases descending <;> exact a.compare_self

theorem compareValues_swap (descending : Bool) (x y : Option Value) :
    compareValues descending x y = (compareValues descending y x).swap := by
  cases x with
  | none => cases y <;> rfl
  | some a =>
    cases y with
    | none => rfl
    | some b => cases descending <;> exact Value.compare_swap _ _

theorem compareValues_trans_iff (hxy : (compareValues descending x y).isLE)
    (hyz : (compareValues descending y z).isLE) :
    (compareValues descending x z).isLE ↔ ¬Blurred descending x y z := by
  cases z with
  | none =>
    refine iff_of_true ?_ ?_
    · cases x <;> rfl
    · cases descending <;> cases x <;> cases y <;> exact not_false
  | some c =>
    cases y with
    | none => cases hyz
    | some b =>
      cases x with
      | none => cases hxy
      | some a =>
        cases descending with
        | false => exact Value.isLE_trans_iff hxy hyz
        | true => exact Value.isLE_trans_iff hyz hxy

end SortComparer

namespace Value

/-- Comparing is reflexive and antisymmetric, and transitive exactly where no two integers round to
a float between them; so is the order of entries by the values of a field, missing ones last. -/
theorem compare_orders (a b c : Value) (field : String) (descending : Bool) (e f g : SortEntry) :
    a.compare a = .eq ∧
    b.compare a = (a.compare b).swap ∧
    ((a.compare b).isLE → (b.compare c).isLE → ((a.compare c).isLE ↔ ¬Blurred a b c)) ∧
    let order := (SortComparer.byField field descending).compare
    order e e = .eq ∧
    order f e = (order e f).swap ∧
    (e.value.isSome → f.value.isNone → order e f = .lt) ∧
    ((order e f).isLE → (order f g).isLE →
      ((order e g).isLE ↔ ¬SortComparer.Blurred descending e.value f.value g.value)) := by
  refine ⟨a.compare_self, compare_swap b a, isLE_trans_iff,
    SortComparer.compareValues_self descending e.value,
    SortComparer.compareValues_swap descending f.value e.value, fun he hf => ?_,
    SortComparer.compareValues_trans_iff⟩
  obtain ⟨x, hx⟩ := Option.isSome_iff_exists.mp he
  show SortComparer.compareValues descending e.value f.value = .lt
  rw [hx, Option.isNone_iff_eq_none.mp hf]
  rfl

/-- The float equals the smaller of the integers and is what the larger one rounds to. -/
theorem compare_not_transitive :
    let a : Value := .integer 9007199254740993
    let b : Value := .float ⟨0x4340000000000000⟩
    let c : Value := .integer 9007199254740992
    a.compare b = .eq ∧ b.compare c = .eq ∧ a.compare c = .gt := by
  decide

theorem compare_orders_blurred :
    let a : Value := .integer 9007199254740993
    let b : Value := .float ⟨0x4340000000000000⟩
    let c : Value := .integer 9007199254740992
    let entry (value : Value) : SortEntry := ⟨0, 0, some value, 0⟩
    let order := (SortComparer.byField "size" true).compare
    (a.compare b).isLE ∧ (b.compare c).isLE ∧ ¬(a.compare c).isLE ∧
      (order (entry a) (entry b)).isLE ∧ (order (entry b) (entry c)).isLE ∧
      (order (entry a) (entry c)).isLE := by
  intro a b c entry order
  have hab : (a.compare b).isLE := by
    decide
  have hbc : (b.compare c).isLE := by
    decide
  have hba : (order (entry a) (entry b)).isLE := by
    decide
  have hcb : (order (entry b) (entry c)).isLE := by
    decide
  obtain ⟨-, -, htrans, -, -, -, horder⟩ :=
    compare_orders a b c "size" true (entry a) (entry b) (entry c)
  have hblurred : Blurred a b c :=
    ⟨9007199254740993, ⟨0x4340000000000000⟩, 9007199254740992, rfl, rfl, rfl, by decide, by decide,
      by decide⟩
  have hclear : ¬Blurred c b a := by
    rintro ⟨m, -, n, hm, -, hn, hlt, -⟩
    obtain rfl := integer.inj hm
    obtain rfl := integer.inj hn
    exact absurd hlt (by decide)
  exact ⟨hab, hbc, mt (htrans hab hbc).mp (not_not_intro hblurred), hba, hcb,
    (horder hba hcb).mpr hclear⟩

end Value

end Concordance
