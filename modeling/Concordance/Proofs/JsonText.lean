import Concordance.Json.Printer
import Concordance.Proofs.Numeral

/-!
# Texts of JSON values

A value whose literals spell texts and whose numerals have the shape of one is read back from its
compact text: `Json.parse?_render`.
-/

namespace Concordance.Json

/-! ### Strings -/

theorem hexValue?_digitChar : ∀ k : Fin 16, hexValue? (Nat.digitChar k) = some k.val := by decide

/-- The unit that a character is written as. -/
def unitOf (c : Char) : StringUnit :=
  if c ∈ ['"', '\\', '\x08', '\x0c', '\n', '\r', '\t'] then .char c
  else if c < ' ' then .code c.toNat
  else .char c

theorem stringUnits?_plain {c : Char} (hquote : c ≠ '"') (hbackslash : c ≠ '\\')
    (hcontrol : ¬c < ' ') (rest : List Char) :
    stringUnits? (c :: rest) =
      (stringUnits? rest).map fun (units, after) => (.char c :: units, after) := by
  rw [stringUnits?.eq_def]
  split
  · rename_i heq
    cases heq
  · rename_i heq
    exact (hquote (List.cons.inj heq).1).elim
  · rename_i heq
    exact (hbackslash (List.cons.inj heq).1).elim
  · rename_i heq
    exact (hbackslash (List.cons.inj heq).1).elim
  · rename_i heq
    obtain ⟨rfl, rfl⟩ := List.cons.inj heq
    exact if_neg hcontrol

theorem stringUnits?_escaped (c : Char) (rest : List Char) :
    stringUnits? (escaped c ++ rest) =
      (stringUnits? rest).map fun (units, after) => (unitOf c :: units, after) := by
  unfold escaped
  split
  · rfl
  · rfl
  · rfl
  · rfl
  · rfl
  · rfl
  · rfl
  · rename_i hquote hbackslash h08 h0c hn hr ht
    have hplain : c ∉ ['"', '\\', '\x08', '\x0c', '\n', '\r', '\t'] := by
      simp only [List.mem_cons, List.not_mem_nil, or_false, not_or]
      exact ⟨hquote, hbackslash, h08, h0c, hn, hr, ht⟩
    by_cases hcontrol : c < ' '
    · have hlt : c.toNat < 32 := hcontrol
      have hhigh : hexValue? (Nat.digitChar (c.toNat / 16)) = some (c.toNat / 16) :=
        hexValue?_digitChar ⟨c.toNat / 16, by omega⟩
      have hlow : hexValue? (Nat.digitChar (c.toNat % 16)) = some (c.toNat % 16) :=
        hexValue?_digitChar ⟨c.toNat % 16, by omega⟩
      have hzero : hexValue? '0' = some 0 := rfl
      have hunit : unitOf c =
          .code (4096 * 0 + 256 * 0 + 16 * (c.toNat / 16) + c.toNat % 16) := by
        rw [unitOf, if_neg hplain, if_pos hcontrol]
        congr 1
        omega
      rw [if_pos hcontrol, hunit]
      simp only [List.cons_append, List.nil_append]
      rw [stringUnits?, hzero, hhigh, hlow]
    · rw [unitOf, if_neg hplain, if_neg hcontrol, if_neg hcontrol]
      exact stringUnits?_plain hquote hbackslash hcontrol rest

theorem assemble_code {unit : Nat} (hhigh : isHighSurrogate unit = false)
    (hlow : isLowSurrogate unit = false) (units : List StringUnit) :
    assemble (.code unit :: units) = (assemble units).map (Char.ofNat unit :: ·) := by
  rw [assemble.eq_def]
  split <;> simp_all

theorem assemble_cons (c : Char) (units : List StringUnit) :
    assemble (unitOf c :: units) = (assemble units).map (c :: ·) := by
  unfold unitOf
  split
  · rfl
  · split
    · rename_i hcontrol
      have hlt : c.toNat < 32 := hcontrol
      have hhigh : isHighSurrogate c.toNat = false := by
        simp only [isHighSurrogate, Bool.and_eq_false_imp, decide_eq_true_eq]
        omega
      have hlow : isLowSurrogate c.toNat = false := by
        simp only [isLowSurrogate, Bool.and_eq_false_imp, decide_eq_true_eq]
        omega
      rw [assemble_code hhigh hlow, Char.ofNat_toNat]
    · rfl

theorem literal?_text (s : String) (rest : List Char) :
    literal? (s.toList.flatMap escaped ++ '"' :: rest) = some (some s, rest) := by
  have hunits : ∀ cs : List Char,
      stringUnits? (cs.flatMap escaped ++ '"' :: rest) = some (cs.map unitOf, rest) := by
    intro cs
    induction cs with
    | nil => rfl
    | cons c cs ih =>
      rw [List.flatMap_cons, List.append_assoc, stringUnits?_escaped, ih]
      rfl
  have hassemble : ∀ cs : List Char, assemble (cs.map unitOf) = some cs := by
    intro cs
    induction cs with
    | nil => rfl
    | cons c cs ih =>
      rw [List.map_cons, assemble_cons, ih]
      rfl
  rw [literal?, hunits, Option.map_some]
  dsimp only
  rw [hassemble]
  exact congrArg (fun s => some (some s, rest)) String.ofList_toList

/-! ### Values -/

/-- A value whose literals all spell texts, and whose numerals are all of one kind. -/
inductive Spelled (P : Numeral → Prop) : Json → Prop
  | null : Spelled P .null
  | bool (b : Bool) : Spelled P (.bool b)
  | number {n : Numeral} : P n → Spelled P (.number n)
  | text (s : String) : Spelled P (.text s)
  | array {items : List Json} : (∀ item ∈ items, Spelled P item) → Spelled P (.array items)
  | record {members : List (String × Json)} : (∀ m ∈ members, Spelled P m.2) →
      Spelled P (.record members)

/-- The first character of a value is neither a blank nor the end of an array. -/
def Starts (cs : List Char) : Prop := ∃ c rest, cs = c :: rest ∧ isBlank c = false ∧ c ≠ ']'

theorem Starts.append {cs : List Char} (h : Starts cs) (rest : List Char) : Starts (cs ++ rest) := by
  obtain ⟨c, more, rfl, hc⟩ := h
  exact ⟨c, more ++ rest, rfl, hc⟩

theorem Starts.skipBlank_eq {cs : List Char} (h : Starts cs) : skipBlank cs = cs := by
  obtain ⟨c, more, rfl, hblank, -⟩ := h
  exact List.dropWhile_cons_of_neg (by simp [hblank])

theorem starts_digit : ∀ d : Digit, isBlank d.char = false ∧ d.char ≠ ']' := by decide

theorem starts_numeral {n : Numeral} (h : n.WellFormed) : Starts n.text := by
  have hne := h.ne_nil
  obtain ⟨negative, whole, fraction, exponent⟩ := n
  cases negative with
  | true => exact ⟨'-', _, rfl, rfl, by decide⟩
  | false =>
    cases whole with
    | nil => exact (hne rfl).elim
    | cons d ds => exact ⟨d.char, _, rfl, starts_digit d⟩

theorem starts_chars {json : Json} (h : Spelled Numeral.WellFormed json) : Starts json.chars := by
  cases h with
  | null => exact ⟨'n', _, rfl, rfl, by decide⟩
  | bool b => cases b with
    | true => exact ⟨'t', _, rfl, rfl, by decide⟩
    | false => exact ⟨'f', _, rfl, rfl, by decide⟩
  | number h => exact starts_numeral h
  | text s => exact ⟨'"', _, rfl, rfl, by decide⟩
  | array _ => exact ⟨'[', _, rfl, rfl, by decide⟩
  | record _ => exact ⟨'\x7b', _, rfl, rfl, by decide⟩

theorem starts_itemChars {item : Json} (h : Spelled Numeral.WellFormed item) (items : List Json) :
    Starts (itemChars (item :: items)) := by
  cases items with
  | nil => exact starts_chars h
  | cons next items => exact (starts_chars h).append _

/-- A value that is read back from its text, whatever closes it. -/
def ReadsBack (json : Json) : Prop :=
  ∀ (fuel : Nat) (rest : List Char), 2 * json.chars.length + 1 ≤ fuel → Closes rest →
    value? fuel (json.chars ++ rest) = some (json, rest)

theorem value?_other {c : Char} {cs : List Char} (hblank : isBlank c = false)
    (hc : c ∉ ['n', 't', 'f', '"', '[', '\x7b']) (fuel : Nat) :
    value? (fuel + 1) (c :: cs) =
      (numeral? (c :: cs)).map fun (n, rest) => (.number n, rest) := by
  have hskip : skipBlank (c :: cs) = c :: cs := List.dropWhile_cons_of_neg (by simp [hblank])
  have hne : ∀ {x : Char} {more : List Char}, c :: cs = x :: more →
      x ∈ ['n', 't', 'f', '"', '[', '\x7b'] → False := by
    intro x more heq hx
    exact hc ((List.cons.inj heq).1 ▸ hx)
  rw [value?, hskip]
  split
  · rename_i heq
    exact (hne heq (by decide)).elim
  · rename_i heq
    exact (hne heq (by decide)).elim
  · rename_i heq
    exact (hne heq (by decide)).elim
  · rename_i heq
    exact (hne heq (by decide)).elim
  · rename_i heq
    exact (hne heq (by decide)).elim
  · rename_i heq
    exact (hne heq (by decide)).elim
  · rfl

theorem value?_numeral {n : Numeral} (h : n.WellFormed) {rest : List Char} (hrest : Closes rest)
    (fuel : Nat) : value? (fuel + 1) (n.text ++ rest) = some (.number n, rest) := by
  have hdigit : ∀ d : Digit, d.char ∉ ['n', 't', 'f', '"', '[', '\x7b'] := by decide
  have hread := numeral?_text h hrest
  have hne := h.ne_nil
  have hother : value? (fuel + 1) (n.text ++ rest) =
      (numeral? (n.text ++ rest)).map fun (n, rest) => (.number n, rest) := by
    obtain ⟨negative, whole, fraction, exponent⟩ := n
    cases negative with
    | true => exact value?_other rfl (by decide) fuel
    | false =>
      cases whole with
      | nil => exact (hne rfl).elim
      | cons d ds => exact value?_other (starts_digit d).1 (hdigit d) fuel
  rw [hother, hread]
  rfl

section Steps

variable {fuel : Nat} {cs rest : List Char}

theorem items?_last {item : Json} (h : value? fuel cs = some (item, ']' :: rest)) :
    items? (fuel + 1) cs = some ([item], rest) := by
  rw [items?, h]
  rfl

theorem items?_more {item : Json} (h : value? fuel cs = some (item, ',' :: rest)) :
    items? (fuel + 1) cs =
      (items? fuel rest).map fun (items, rest) => (item :: items, rest) := by
  rw [items?, h]
  rfl

theorem members?_last {key : Literal} {value : Json} {more : List Char}
    (hkey : literal? cs = some (key, ':' :: more))
    (h : value? fuel more = some (value, '\x7d' :: rest)) :
    members? (fuel + 1) ('"' :: cs) = some ([(key, value)], rest) := by
  simp [members?, skipBlank, isBlank, hkey, h]

theorem members?_more {key : Literal} {value : Json} {more : List Char}
    (hkey : literal? cs = some (key, ':' :: more))
    (h : value? fuel more = some (value, ',' :: rest)) :
    members? (fuel + 1) ('"' :: cs) =
      (members? fuel rest).map fun (members, rest) => ((key, value) :: members, rest) := by
  simp [members?, skipBlank, isBlank, hkey, h]

theorem value?_items {items : List Json} (hstart : Starts cs)
    (h : items? fuel cs = some (items, rest)) :
    value? (fuel + 1) ('[' :: cs) = some (.array items, rest) := by
  have hskip := hstart.skipBlank_eq
  obtain ⟨c, more, rfl, -, hc⟩ := hstart
  have hopen : skipBlank ('[' :: c :: more) = '[' :: c :: more := rfl
  rw [value?, hopen]
  simp [hskip, hc, h]

theorem value?_members {members : List (Literal × Json)}
    (h : members? fuel ('"' :: cs) = some (members, rest)) :
    value? (fuel + 1) ('\x7b' :: '"' :: cs) = some (.object members, rest) := by
  simp [value?, skipBlank, isBlank, h]

end Steps

theorem items?_chars {items : List Json} (hne : items ≠ []) (h : ∀ item ∈ items, ReadsBack item)
    (fuel : Nat) (rest : List Char) (hfuel : 2 * (itemChars items).length + 2 ≤ fuel) :
    items? fuel (itemChars items ++ ']' :: rest) = some (items, rest) := by
  induction items generalizing fuel with
  | nil => exact (hne rfl).elim
  | cons item items ih =>
    obtain ⟨hitem, hitems⟩ := List.forall_mem_cons.mp h
    obtain ⟨fuel, rfl⟩ : ∃ k, fuel = k + 1 := ⟨fuel - 1, by omega⟩
    cases items with
    | nil => exact items?_last (hitem fuel _ (Nat.le_of_succ_le_succ hfuel) (.bracket rest))
    | cons next items =>
      have hlength : (itemChars (item :: next :: items)).length =
          item.chars.length + ((itemChars (next :: items)).length + 1) := by
        rw [itemChars, List.length_append, List.length_cons]
      have htext : itemChars (item :: next :: items) ++ ']' :: rest =
          item.chars ++ ',' :: (itemChars (next :: items) ++ ']' :: rest) := by
        rw [itemChars, List.append_assoc]
        rfl
      rw [htext, items?_more (hitem fuel _ (by omega) (.comma _)),
        ih (List.cons_ne_nil _ _) hitems fuel (by omega)]
      rfl

/-- The members of a record, as they are read. -/
def keyed (members : List (String × Json)) : List (Literal × Json) :=
  members.map fun (name, value) => (some name, value)

theorem literalText_append (s : String) (rest : List Char) :
    literalText (some s) ++ rest = '"' :: (s.toList.flatMap escaped ++ '"' :: rest) := by
  show ('"' :: s.toList.flatMap escaped ++ ['"']) ++ rest = _
  rw [List.append_assoc]
  rfl

theorem members?_chars {members : List (String × Json)} (hne : members ≠ [])
    (h : ∀ m ∈ members, ReadsBack m.2) (fuel : Nat) (rest : List Char)
    (hfuel : 2 * (memberChars (keyed members)).length + 2 ≤ fuel) :
    ∃ cs, memberChars (keyed members) ++ '\x7d' :: rest = '"' :: cs ∧
      members? fuel ('"' :: cs) = some (keyed members, rest) := by
  induction members generalizing fuel with
  | nil => exact (hne rfl).elim
  | cons member members ih =>
    obtain ⟨key, value⟩ := member
    obtain ⟨hvalue, hmembers⟩ := List.forall_mem_cons.mp h
    obtain ⟨fuel, rfl⟩ : ∃ k, fuel = k + 1 := ⟨fuel - 1, by omega⟩
    cases members with
    | nil =>
      have hlength : (memberChars (keyed [(key, value)])).length =
          (literalText (some key)).length + (value.chars.length + 1) := by
        show (literalText (some key) ++ ':' :: value.chars).length = _
        rw [List.length_append, List.length_cons]
      have hread := hvalue fuel _ (by dsimp only; omega) (.brace rest)
      refine ⟨_, ?_, members?_last (literal?_text key _) hread⟩
      show (literalText (some key) ++ ':' :: value.chars) ++ '\x7d' :: rest = _
      rw [List.append_assoc, literalText_append]
      rfl
    | cons next members =>
      have hlength : (memberChars (keyed ((key, value) :: next :: members))).length =
          (literalText (some key)).length +
            (value.chars.length + ((memberChars (keyed (next :: members))).length + 1) + 1) := by
        show (literalText (some key) ++ ':' :: value.chars ++
          ',' :: memberChars (keyed (next :: members))).length = _
        simp only [List.length_append, List.length_cons]
        omega
      obtain ⟨cs, htext, hmore⟩ := ih (List.cons_ne_nil _ _) hmembers fuel (by omega)
      have hread := hvalue fuel _ (by dsimp only; omega) (.comma ('"' :: cs))
      refine ⟨key.toList.flatMap escaped ++ '"' :: ':' :: (value.chars ++ ',' :: '"' :: cs), ?_, ?_⟩
      · show (literalText (some key) ++ ':' :: value.chars ++
          ',' :: memberChars (keyed (next :: members))) ++ '\x7d' :: rest = _
        simp only [List.append_assoc, List.cons_append, htext, literalText_append]
      · rw [members?_more (literal?_text key _) hread, hmore]
        rfl

theorem readsBack {json : Json} (h : Spelled Numeral.WellFormed json) : ReadsBack json := by
  induction h with
  | null =>
    intro fuel rest hfuel _
    obtain ⟨fuel, rfl⟩ : ∃ k, fuel = k + 1 := ⟨fuel - 1, by omega⟩
    rfl
  | bool b =>
    intro fuel rest hfuel _
    obtain ⟨fuel, rfl⟩ : ∃ k, fuel = k + 1 := ⟨fuel - 1, by omega⟩
    cases b <;> rfl
  | number hn =>
    intro fuel rest hfuel hrest
    obtain ⟨fuel, rfl⟩ : ∃ k, fuel = k + 1 := ⟨fuel - 1, by omega⟩
    exact value?_numeral hn hrest fuel
  | text s =>
    intro fuel rest hfuel _
    obtain ⟨fuel, rfl⟩ : ∃ k, fuel = k + 1 := ⟨fuel - 1, by omega⟩
    show value? (fuel + 1) (literalText (some s) ++ rest) = _
    rw [literalText_append]
    simp [value?, skipBlank, isBlank, literal?_text, Json.text]
  | @array items hitems ih =>
    intro fuel rest hfuel _
    obtain ⟨fuel, rfl⟩ : ∃ k, fuel = k + 1 := ⟨fuel - 1, by omega⟩
    show value? (fuel + 1) ('[' :: (itemChars items ++ [']']) ++ rest) = _
    have htext : '[' :: (itemChars items ++ [']']) ++ rest =
        '[' :: (itemChars items ++ ']' :: rest) := by
      rw [List.cons_append, List.append_assoc]
      rfl
    have hlength : (Json.chars (.array items)).length = (itemChars items).length + 2 := by
      show ('[' :: (itemChars items ++ [']'])).length = _
      rw [List.length_cons, List.length_append]
      rfl
    rw [htext]
    cases items with
    | nil => rfl
    | cons item items =>
      have hstart := starts_itemChars (hitems item List.mem_cons_self) items
      exact value?_items (hstart.append _)
        (items?_chars (List.cons_ne_nil _ _) ih fuel rest (by omega))
  | @record members hmembers ih =>
    intro fuel rest hfuel _
    obtain ⟨fuel, rfl⟩ : ∃ k, fuel = k + 1 := ⟨fuel - 1, by omega⟩
    have htext : Json.chars (.record members) ++ rest =
        '\x7b' :: (memberChars (keyed members) ++ '\x7d' :: rest) := by
      show '\x7b' :: (memberChars (keyed members) ++ ['\x7d']) ++ rest = _
      rw [List.cons_append, List.append_assoc]
      rfl
    have hlength : (Json.chars (.record members)).length =
        (memberChars (keyed members)).length + 2 := by
      show ('\x7b' :: (memberChars (keyed members) ++ ['\x7d'])).length = _
      rw [List.length_cons, List.length_append]
      rfl
    rw [htext]
    cases members with
    | nil => rfl
    | cons member members =>
      obtain ⟨cs, hcs, hread⟩ :=
        members?_chars (List.cons_ne_nil _ _) ih fuel rest (by omega)
      rw [hcs]
      exact value?_members hread

/-- The text of a value, with nothing around it, is the text of that value only. -/
theorem parse?_render {json : Json} (h : Spelled Numeral.WellFormed json) :
    parse? json.render = some json := by
  have hread := readsBack h (2 * json.chars.length + 1) [] (Nat.le_refl _) .nil
  rw [List.append_nil] at hread
  unfold parse? render
  rw [String.toList_ofList]
  dsimp only
  rw [hread]
  rfl

end Concordance.Json
