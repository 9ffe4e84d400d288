import Mathlib.Data.List.DropRight
import Concordance.Json.Number
import Concordance.Json.Parser

/-!
# Numerals

A numeral without needless zeros in front is read back from its text (`Json.numeral?_text`). The
numerals that are written for integers and for floating-point values are of that shape.
-/

namespace Concordance

/-! ### Digits -/

namespace Digit

theorem ofChar?_char : ∀ d : Digit, ofChar? d.char = some d := by decide

theorem isDigit_char : ∀ d : Digit, d.char.isDigit = true := by decide

theorem ofNat_of_lt {n : Nat} (h : n < 10) : ofNat n = [⟨n, h⟩] := by
  rw [ofNat, Nat.toDigits_of_lt_base h]
  exact List.filterMap_cons_some (ofChar?_char ⟨n, h⟩)

theorem ofNat_of_le {n : Nat} (h : 10 ≤ n) : ofNat n = ofNat (n / 10) ++ [Fin.ofNat 10 n] := by
  rw [ofNat, Nat.toDigits_of_base_le (by decide) h, List.filterMap_append]
  exact congrArg _ (List.filterMap_cons_some (ofChar?_char (Fin.ofNat 10 n)))

theorem number_append (ds : List Digit) (d : Digit) : number (ds ++ [d]) = 10 * number ds + d.val := by
  rw [number, List.foldl_append]
  rfl

theorem number_ofNat (n : Nat) : number (ofNat n) = n := by
  induction n using Nat.strong_induction_on with
  | _ n ih =>
    by_cases h : n < 10
    · rw [ofNat_of_lt h]
      exact Nat.zero_add n
    · have hle : 10 ≤ n := Nat.le_of_not_lt h
      rw [ofNat_of_le hle, number_append, ih (n / 10) (by omega)]
      show 10 * (n / 10) + n % 10 = n
      omega

theorem ofNat_ne_nil (n : Nat) : ofNat n ≠ [] := by
  by_cases h : n < 10
  · rw [ofNat_of_lt h]
    exact List.cons_ne_nil _ _
  · rw [ofNat_of_le (Nat.le_of_not_lt h)]
    exact List.append_ne_nil_of_right_ne_nil _ (List.cons_ne_nil _ _)

theorem head?_ofNat {n : Nat} (hn : 0 < n) : (ofNat n).head? ≠ some zero := by
  induction n using Nat.strong_induction_on with
  | _ n ih =>
    by_cases h : n < 10
    · rw [ofNat_of_lt h]
      intro hzero
      have hval := congrArg Fin.val (Option.some.inj hzero)
      exact Nat.ne_of_gt hn hval
    · have hle : 10 ≤ n := Nat.le_of_not_lt h
      rw [ofNat_of_le hle, List.head?_append_of_ne_nil _ (ofNat_ne_nil _)]
      exact ih (n / 10) (by omega) (by omega)

end Digit

/-! ### Reading a numeral back -/

/-- Whole digits are given, and no zero is in front of others. -/
structure Numeral.WellFormed (n : Numeral) : Prop where
  ne_nil : n.whole ≠ []
  leading : n.whole.head? = some .zero → n.whole = [.zero]

namespace Json

/-- What may come behind a value: nothing, or the next part of the container it is in. -/
inductive Closes : List Char → Prop
  | nil : Closes []
  | comma (rest : List Char) : Closes (',' :: rest)
  | bracket (rest : List Char) : Closes (']' :: rest)
  | brace (rest : List Char) : Closes ('\x7d' :: rest)

/-- A text that does not go on with a digit. -/
def DigitFree (cs : List Char) : Prop := ∀ c ∈ cs.head?, c.isDigit = false

theorem Closes.digitFree {rest : List Char} (h : Closes rest) : DigitFree rest := by
  cases h <;> intro c hc <;> cases hc <;> rfl

theorem digits_map {rest : List Char} (h : DigitFree rest) (ds : List Digit) :
    digits (ds.map Digit.char ++ rest) = (ds, rest) := by
  have hall : ∀ c ∈ ds.map Digit.char, c.isDigit = true := by
    intro c hc
    obtain ⟨d, -, rfl⟩ := List.mem_map.mp hc
    exact Digit.isDigit_char d
  have htake : rest.takeWhile Char.isDigit = [] := by
    cases rest with
    | nil => rfl
    | cons c rest => exact List.takeWhile_cons_of_neg (by simp [h c rfl])
  have hdrop : rest.dropWhile Char.isDigit = rest := by
    cases rest with
    | nil => rfl
    | cons c rest => exact List.dropWhile_cons_of_neg (by simp [h c rfl])
  have hread : (ds.map Digit.char).filterMap Digit.ofChar? = ds := by
    rw [List.filterMap_map]
    exact (List.filterMap_congr fun d _ => Digit.ofChar?_char d).trans List.filterMap_some
  rw [digits, List.takeWhile_append_of_pos hall, List.dropWhile_append_of_pos hall, htake, hdrop,
    List.append_nil, hread]

theorem whole?_map {n : Numeral} (h : n.WellFormed) {rest : List Char} (hrest : DigitFree rest) :
    whole? (n.whole.map Digit.char ++ rest) = some (n.whole, rest) := by
  obtain ⟨hne, hleading⟩ := h
  unfold whole?
  rw [digits_map hrest]
  match hw : n.whole with
  | [] => exact (hne hw).elim
  | [d] => rfl
  | first :: second :: more =>
    rw [hw] at hleading
    have hzero : first ≠ .zero := by
      rintro rfl
      cases hleading rfl
    exact if_neg hzero

theorem exponentText_digitFree {e : Option Int} {rest : List Char} (hrest : Closes rest) :
    DigitFree (Numeral.exponentText e ++ rest) := by
  cases e with
  | none => exact hrest.digitFree
  | some e =>
    intro c hc
    obtain rfl := Option.some.inj hc
    rfl

theorem fractionText_digitFree {fraction : List Digit} {rest : List Char} (hrest : DigitFree rest) :
    DigitFree (Numeral.fractionText fraction ++ rest) := by
  cases fraction with
  | nil => exact hrest
  | cons d ds =>
    intro c hc
    obtain rfl := Option.some.inj hc
    rfl

theorem exponent?_text (e : Option Int) {rest : List Char} (hrest : Closes rest) :
    exponent? (Numeral.exponentText e ++ rest) = some (e, rest) := by
  cases e with
  | none => cases hrest <;> rfl
  | some e =>
    have hdigits := digits_map hrest.digitFree (Digit.ofNat e.natAbs)
    have hnumber := Digit.number_ofNat e.natAbs
    have hsign : exponentSign ((if e < 0 then '-' else '+') ::
        ((Digit.ofNat e.natAbs).map Digit.char ++ rest)) =
          (decide (e < 0), (Digit.ofNat e.natAbs).map Digit.char ++ rest) := by
      by_cases he : e < 0
      · rw [if_pos he, decide_eq_true he]
        rfl
      · rw [if_neg he, decide_eq_false he]
        rfl
    have hvalue : (if decide (e < 0) = true then -(e.natAbs : Int) else e.natAbs) = e := by
      by_cases he : e < 0
      · rw [if_pos (decide_eq_true he)]
        omega
      · rw [if_neg (by simpa using he)]
        omega
    show exponent? ('e' :: (if e < 0 then '-' else '+') ::
      ((Digit.ofNat e.natAbs).map Digit.char ++ rest)) = _
    rw [exponent?, if_pos (Or.inl rfl), hsign]
    dsimp only
    rw [hdigits]
    cases hds : Digit.ofNat e.natAbs with
    | nil => exact (Digit.ofNat_ne_nil _ hds).elim
    | cons d ds =>
      rw [hds] at hnumber
      dsimp only
      rw [hnumber, hvalue]

theorem fraction?_text (fraction : List Digit) {e : Option Int} {rest : List Char}
    (hrest : Closes rest) :
    fraction? (Numeral.fractionText fraction ++ (Numeral.exponentText e ++ rest)) =
      some (fraction, Numeral.exponentText e ++ rest) := by
  cases fraction with
  | nil =>
    cases e with
    | none => cases hrest <;> rfl
    | some e => rfl
  | cons d ds =>
    show fraction? ('.' :: ((d :: ds).map Digit.char ++ (Numeral.exponentText e ++ rest))) = _
    rw [fraction?, digits_map (exponentText_digitFree hrest)]

theorem sign_map (negative : Bool) {ds : List Digit} (hds : ds ≠ []) (rest : List Char) :
    sign ((if negative then ['-'] else []) ++ ds.map Digit.char ++ rest) =
      (negative, ds.map Digit.char ++ rest) := by
  cases negative with
  | true => rfl
  | false =>
    cases ds with
    | nil => exact (hds rfl).elim
    | cons d ds =>
      have hminus : ∀ d : Digit, d.char ≠ '-' := by decide
      show sign (d.char :: (ds.map Digit.char ++ rest)) = _
      unfold sign
      split
      · rename_i heq
        exact (hminus d (List.cons.inj heq).1).elim
      · rfl

theorem numeral?_text {n : Numeral} (h : n.WellFormed) {rest : List Char} (hrest : Closes rest) :
    numeral? (n.text ++ rest) = some (n, rest) := by
  have hfraction := fraction?_text n.fraction (e := n.exponent) hrest
  have hexponent := exponent?_text n.exponent hrest
  have hfree : DigitFree (Numeral.fractionText n.fraction ++
      (Numeral.exponentText n.exponent ++ rest)) :=
    fractionText_digitFree (exponentText_digitFree hrest)
  have hwhole := whole?_map h hfree
  have htext : n.text ++ rest = (if n.negative then ['-'] else []) ++ n.whole.map Digit.char ++
      (Numeral.fractionText n.fraction ++ (Numeral.exponentText n.exponent ++ rest)) := by
    simp only [Numeral.text, List.append_assoc]
  rw [htext, numeral?, sign_map _ h.ne_nil]
  dsimp only
  rw [hwhole]
  dsimp only [bind, Option.bind]
  rw [hfraction]
  dsimp only
  rw [hexponent]
  rfl

end Json

/-! ### The numerals that are written -/

theorem Numeral.wellFormed_ofInt (n : Int) : (ofInt n).WellFormed where
  ne_nil := Digit.ofNat_ne_nil _
  leading hzero := by
    by_cases hn : n.natAbs = 0
    · show Digit.ofNat n.natAbs = _
      rw [hn]
      rfl
    · exact (Digit.head?_ofNat (Nat.pos_of_ne_zero hn) hzero).elim

theorem Numeral.wellFormed_of_head? {n : Numeral} {d : Digit} (h : n.whole.head? = some d)
    (hd : d ≠ .zero) : n.WellFormed where
  ne_nil hnil := by
    rw [hnil] at h
    cases h
  leading hzero := by
    rw [h] at hzero
    exact (hd (Option.some.inj hzero)).elim

theorem Numeral.wellFormed_zero (negative : Bool) (fraction : List Digit) (exponent : Option Int) :
    (Numeral.mk negative [.zero] fraction exponent).WellFormed :=
  ⟨List.cons_ne_nil _ _, fun _ => rfl⟩

namespace Decimal

theorem Interval.multiple?_pos {i : Interval} {exponent : Int} {tie : Tie} {k : Int} {n : Nat}
    (hlow : 0 < i.low) (h : i.multiple? exponent tie k = some n) : 0 < n := by
  unfold multiple? at h
  extract_lets scale grid inside below rest at h
  have hscale : 0 < scale := by
    show 0 < Nat.pow 10 (-k).toNat <<< (exponent - 2).toNat
    rw [Nat.shiftLeft_eq]
    exact Nat.mul_pos (Nat.pow_pos (by decide)) (Nat.two_pow_pos _)
  have hinside : ∀ n, inside n = true → 0 < n := by
    intro n hn
    have hmin : 0 < i.low * scale := Nat.mul_pos hlow hscale
    have hgrid : 0 < n * grid := by
      simp only [inside] at hn
      split at hn <;> simp only [Bool.and_eq_true, decide_eq_true_eq] at hn <;> omega
    exact Nat.pos_of_mul_pos_right hgrid
  split at h
  · cases h
  · rename_i hbelow _
    exact Option.some.inj h ▸ hinside _ hbelow
  · exact Option.some.inj h ▸ Nat.succ_pos below
  · rename_i hbelow _
    have hpos := hinside _ hbelow
    split at h
    · exact Option.some.inj h ▸ hpos
    · split at h
      · exact Option.some.inj h ▸ Nat.succ_pos below
      · cases tie with
        | up => exact Option.some.inj h ▸ Nat.succ_pos below
        | even => exact Option.some.inj h ▸ Nat.add_pos_left hpos _

theorem Interval.coarsest_pos {i : Interval} {exponent : Int} {tie : Tie} {k : Int} {steps : Nat}
    {d : Decimal} (hlow : 0 < i.low) (h : i.coarsest exponent tie k steps = some d) :
    0 < d.coefficient := by
  induction steps generalizing k with
  | zero => cases h
  | succ steps ih =>
    unfold coarsest at h
    split at h
    · rename_i n hn
      rw [← Option.some.inj h]
      exact multiple?_pos hlow hn
    · exact ih h

/-- A shortest decimal has a digit, unless none was found and it is zero. -/
theorem shortest_pos (f : BinaryFormat) (tie : Tie) {significand : Nat} (exponent : Int)
    (hs : 0 < significand) :
    0 < (shortest f tie significand exponent).coefficient ∨
      shortest f tie significand exponent = ⟨0, 0⟩ := by
  have hlow : 0 < (Interval.around f significand exponent).low := by
    unfold Interval.around
    dsimp only
    split <;> omega
  unfold shortest
  dsimp only
  cases hd : (Interval.around f significand exponent).coarsest exponent tie
      (magnitudeBound (significand <<< exponent.toNat) (1 <<< (-exponent).toNat)) 20 with
  | none => exact .inr rfl
  | some d => exact .inl (Interval.coarsest_pos hlow hd)

theorem head?_significantDigits {coefficient : Nat} (h : 0 < coefficient) :
    ∃ d, (significantDigits coefficient).head? = some d ∧ d ≠ .zero := by
  have hne := Digit.ofNat_ne_nil coefficient
  have hhead := Digit.head?_ofNat h
  have hprefix : significantDigits coefficient <+: Digit.ofNat coefficient :=
    List.rdropWhile_prefix _ _
  cases hdigits : Digit.ofNat coefficient with
  | nil => exact (hne hdigits).elim
  | cons d ds =>
    rw [hdigits] at hhead hprefix
    have hd : d ≠ .zero := fun hzero => hhead (congrArg some hzero)
    cases hsig : significantDigits coefficient with
    | nil =>
      have hall := List.rdropWhile_eq_nil_iff.mp hsig d (hdigits ▸ List.mem_cons_self)
      exact (hd (of_decide_eq_true hall)).elim
    | cons d' ds' =>
      rw [hsig] at hprefix
      obtain ⟨rfl, -⟩ := List.cons_prefix_cons.mp hprefix
      exact ⟨d', rfl, hd⟩

namespace Layout

variable {layout : Layout}

theorem wellFormed_positionalNumeral (negative : Bool) {digits : List Digit} {d : Digit}
    (hhead : digits.head? = some d) (hd : d ≠ .zero) (e : Int) :
    (layout.positionalNumeral negative digits e).WellFormed := by
  obtain ⟨ds, rfl⟩ := List.head?_eq_some_iff.mp hhead
  unfold positionalNumeral
  split
  · exact Numeral.wellFormed_zero _ _ _
  · split
    · exact Numeral.wellFormed_of_head? rfl hd
    · exact Numeral.wellFormed_of_head? rfl hd

theorem wellFormed_ofDecimal (negative : Bool) {d : Decimal} (h : 0 < d.coefficient) :
    (layout.ofDecimal negative d).WellFormed := by
  obtain ⟨first, hhead, hfirst⟩ := head?_significantDigits h
  unfold ofDecimal
  dsimp only
  split
  · exact wellFormed_positionalNumeral negative hhead hfirst _
  · obtain ⟨ds, hdigits⟩ := List.head?_eq_some_iff.mp hhead
    rw [hdigits]
    exact Numeral.wellFormed_of_head? rfl hfirst

theorem wellFormed_numeral? (hlayout : layout.positional 0 = true) {f : BinaryFormat}
    {value : Decoded} {n : Numeral} (h : layout.numeral? f value = some n) : n.WellFormed := by
  cases value with
  | nan => cases h
  | infinite negative => cases h
  | finite negative significand exponent =>
    unfold numeral? at h
    dsimp only at h
    split at h
    · rw [← Option.some.inj h]
      exact Numeral.wellFormed_zero _ _ _
    · rename_i hs
      rw [← Option.some.inj h]
      rcases shortest_pos f layout.tie exponent (Nat.pos_of_ne_zero hs) with hpos | hzero
      · exact wellFormed_ofDecimal negative hpos
      · rw [hzero]
        have htext : layout.ofDecimal negative ⟨0, 0⟩ =
            ⟨negative, [.zero], layout.wholeFraction, none⟩ := if_pos hlayout
        rw [htext]
        exact Numeral.wellFormed_zero _ _ _

end Layout

end Decimal

theorem Single.wellFormed_numeral? {x : Float32} {n : Numeral} (h : numeral? x = some n) :
    n.WellFormed :=
  Decimal.Layout.wellFormed_numeral? rfl h

namespace Numeral

/-- An integer is read as itself when it is in range. -/
theorem integer?_ofInt {n : Int} (hlow : Int64.minValue.toInt ≤ n) (hhigh : n < UInt64.size) :
    (ofInt n).integer? = some n := by
  have hvalue : Digit.number (ofInt n).whole = n.natAbs := Digit.number_ofNat n.natAbs
  unfold integer?
  rw [hvalue]
  by_cases hn : n < 0
  · have hnegative : (ofInt n).negative = true := decide_eq_true hn
    have habs : -(n.natAbs : Int) = n := by omega
    show (if (ofInt n).negative then _ else _) = some n
    rw [if_pos hnegative, habs]
    exact if_pos ⟨by omega, hlow⟩
  · have hnegative : ¬(ofInt n).negative = true := by simpa [ofInt] using hn
    have habs : (n.natAbs : Int) = n := by omega
    show (if (ofInt n).negative then _ else _) = some n
    rw [if_neg hnegative, if_pos (by omega), habs]

theorem isSome_binary64?_of_integer? {n : Numeral} {i : Int} (h : n.integer? = some i) :
    n.binary64?.isSome = true := by
  rw [binary64?, h]
  rfl

/-- A numeral that has a single-precision value does not overflow. -/
theorem isSome_binary64?_of_float32? {n : Numeral} {x : Float32} (h : n.float32? = some x) :
    n.binary64?.isSome = true := by
  unfold float32? at h
  split at h
  · rename_i i hi
    exact isSome_binary64?_of_integer? hi
  · obtain ⟨y, hy, -⟩ := Option.map_eq_some_iff.mp h
    rw [hy]
    rfl

end Numeral

end Concordance
