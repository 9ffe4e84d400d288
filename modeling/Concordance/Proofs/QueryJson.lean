import Concordance.Proofs.JsonText
import Concordance.Query.Json

/-!
# Queries in JSON

A query is read back from its text when its floating-point values are finite and the text does not
nest too deep, and every other query's text is refused: `Query.ofText_toText`. What is taken for
granted is that the numerals of the query's own floating-point values are read as these values.
-/

namespace Concordance

open Json (Decoder Fields Spelled Variants keyed)

/-! ### Nesting -/

namespace Json

mutual

/-- How deep arrays and objects are nested in a value. -/
def nesting : Json → Nat
  | .null | .bool _ | .number _ | .string _ => 0
  | .array items => nestingItems items + 1
  | .object members => nestingMembers members + 1

def nestingItems : List Json → Nat
  | [] => 0
  | item :: rest => max item.nesting (nestingItems rest)

def nestingMembers : List (Literal × Json) → Nat
  | [] => 0
  | (_, value) :: rest => max value.nesting (nestingMembers rest)

end

variable {levels : Nat}

theorem nestingItems_le {items : List Json} :
    nestingItems items ≤ levels ↔ ∀ item ∈ items, item.nesting ≤ levels := by
  induction items with
  | nil => simp [nestingItems]
  | cons item items ih => rw [nestingItems, Nat.max_le, ih, List.forall_mem_cons]

theorem nestingMembers_le {members : List (String × Json)} :
    nestingMembers (keyed members) ≤ levels ↔ ∀ m ∈ members, m.2.nesting ≤ levels := by
  induction members with
  | nil => simp [keyed, nestingMembers]
  | cons member members ih =>
    show max member.2.nesting (nestingMembers (keyed members)) ≤ levels ↔ _
    rw [Nat.max_le, ih, List.forall_mem_cons]

theorem nesting_record {members : List (String × Json)} :
    (Json.record members).nesting ≤ levels + 1 ↔ ∀ m ∈ members, m.2.nesting ≤ levels := by
  rw [← nestingMembers_le]
  exact Nat.succ_le_succ_iff

theorem admittedItems_iff {items : List Json} :
    admittedItems levels items = true ↔ ∀ item ∈ items, item.admitted levels = true := by
  induction items with
  | nil => simp [admittedItems]
  | cons item items ih => rw [admittedItems, Bool.and_eq_true, ih, List.forall_mem_cons]

theorem admittedMembers_iff {members : List (String × Json)} :
    admittedMembers levels (keyed members) = true ↔
      ∀ m ∈ members, m.2.admitted levels = true := by
  induction members with
  | nil => simp [keyed, admittedMembers]
  | cons member members ih =>
    show (true && member.2.admitted levels && admittedMembers levels (keyed members)) = true ↔ _
    rw [Bool.true_and, Bool.and_eq_true, ih, List.forall_mem_cons]

/-- A value whose numerals do not overflow is admitted when it is not nested too deep. -/
theorem Spelled.admitted_iff {json : Json} (h : Spelled (fun n => n.binary64?.isSome = true) json)
    (levels : Nat) : json.admitted levels = true ↔ json.nesting ≤ levels := by
  induction h generalizing levels with
  | null | bool | text => simp [admitted, nesting, Json.text]
  | number hn => simp [admitted, nesting, hn]
  | @array items hitems ih =>
    cases levels with
    | zero => simp [admitted, nesting]
    | succ levels =>
      rw [admitted, nesting, Nat.succ_le_succ_iff, admittedItems_iff, nestingItems_le]
      exact forall₂_congr fun item hitem => ih item hitem levels
  | @record members hmembers ih =>
    cases levels with
    | zero => simp [admitted, nesting, Json.record]
    | succ levels =>
      rw [nesting_record]
      show admittedMembers levels (keyed members) = true ↔ _
      rw [admittedMembers_iff]
      exact forall₂_congr fun m hm => ih m hm levels

end Json

/-! ### Reading variants -/

namespace Json

theorem select?_keyed {names : List String} {members : List (String × Json)}
    (hnames : ∀ m ∈ members, m.1 ∈ names) (hnodup : (members.map (·.1)).Nodup) :
    Fields.select? names (keyed members) = some members := by
  induction members with
  | nil => rfl
  | cons member members ih =>
    obtain ⟨key, value⟩ := member
    obtain ⟨hkey, hnames⟩ := List.forall_mem_cons.mp hnames
    obtain ⟨hfresh, hnodup⟩ := List.nodup_cons.mp hnodup
    have hnone : members.any (·.1 == key) = false := by
      rw [List.any_eq_false]
      intro m hm heq
      exact hfresh (List.mem_map.mpr ⟨m, hm, beq_iff_eq.mp heq⟩)
    have hkeyed : keyed ((key, value) :: members) = (some key, value) :: keyed members := rfl
    rw [hkeyed, Fields.select?, ih hnames hnodup]
    dsimp only
    rw [if_neg (not_not.mpr hkey), hnone]
    rfl

/-- The tag of a variant is found, and its fields, which are some of those that the variant has. -/
theorem select?_variant {variants : Variants} {tag : String} {names : List String}
    {members : List (String × Json)} (nested : Bool)
    (hfind : variants.find? (·.1 == tag) = some (tag, names))
    (hnodup : (tagKey :: names).Nodup) (hmembers : (members.map (·.1)).Sublist names) :
    variants.select? nested (Query.variant tag members) = some (tag, ⟨true, members⟩) := by
  obtain ⟨htag, hnames⟩ := List.nodup_cons.mp hnodup
  have hmem : ∀ m ∈ members, m.1 ∈ names := fun m hm =>
    hmembers.subset (List.mem_map.mpr ⟨m, hm, rfl⟩)
  have hother : ∀ m ∈ keyed members, (m.1 == some tagKey) = false := by
    intro m hm
    obtain ⟨member, hmember, rfl⟩ := List.mem_map.mp hm
    rw [beq_eq_false_iff_ne]
    intro heq
    exact htag (Option.some.inj heq ▸ hmem member hmember)
  have htags : ((some tagKey, .text tag) :: keyed members).filter (·.1 == some tagKey) =
      [(some tagKey, .text tag)] := by
    rw [List.filter_cons_of_pos (by rfl)]
    exact congrArg _ (List.filter_eq_nil_iff.mpr fun m hm => by simp [hother m hm])
  have hfields : ((some tagKey, .text tag) :: keyed members).filter (·.1 != some tagKey) =
      keyed members := by
    rw [List.filter_cons_of_neg (by simp)]
    exact List.filter_eq_self.mpr fun m hm => by simp [bne, hother m hm]
  show Variants.select? variants nested (.object ((some tagKey, .text tag) :: keyed members)) = _
  rw [Variants.select?, htags, hfields]
  show ((variants.find? (·.1 == tag)).bind fun found =>
    (Fields.select? found.2 (keyed members)).bind fun values =>
      some (found.1, Fields.mk true values)) = _
  rw [hfind, Option.bind_some, select?_keyed hmem (hmembers.nodup hnames)]
  rfl

end Json

/-! ### Floating-point values -/

namespace Single

def isFinite (x : Float32) : Bool :=
  match decode x with
  | .finite .. => true
  | _ => false

/-- Whether a finite value is read from the numeral that is written for it. -/
def Recovered (x : Float32) : Prop :=
  isFinite x = true → (numeral? x).bind Numeral.float32? = some x

theorem isSome_numeral? (x : Float32) : (numeral? x).isSome = isFinite x := by
  unfold numeral? isFinite Decimal.Layout.numeral?
  split
  · simp_all
  · simp_all
  · rename_i hfinite
    rw [hfinite]
    dsimp only
    split <;> rfl

end Single

/-! ### What is read -/

/-- A result that is a certain value, or nothing when something is wrong. -/
def Gives (fine : Bool) (a : α) (r : Option α) : Prop := r = if fine then some a else none

namespace Gives

variable {fine : Bool} {a : α}

theorem some : Gives true a (some a) := rfl

theorem bind {other : Bool} {b : β} {r : Option α} {k : α → Option β} (h : Gives fine a r)
    (hk : Gives other b (k a)) : Gives (fine && other) b (r.bind k) := by
  cases fine with
  | false =>
    obtain rfl : r = none := h
    rfl
  | true =>
    obtain rfl : r = Option.some a := h
    exact hk

theorem map {r : Option α} (h : Gives fine a r) (f : α → β) : Gives fine (f a) (r.map f) := by
  cases fine with
  | false =>
    obtain rfl : r = none := h
    rfl
  | true =>
    obtain rfl : r = Option.some a := h
    rfl

theorem bind_some {r : Option α} (h : Gives fine a r) (f : α → β) :
    Gives fine (f a) (r.bind fun a => Option.some (f a)) := by
  show Gives fine (f a) (r.bind (Option.some ∘ f))
  rw [← Option.map_eq_bind]
  exact h.map f

end Gives

theorem Json.Decoder.single_toJson {x : Float32} (h : Single.Recovered x) (levels : Nat) :
    Gives (Single.isFinite x) x (Json.Decoder.single levels (Single.toJson x)) := by
  have hsome := Single.isSome_numeral? x
  unfold Single.toJson
  cases hn : Single.numeral? x with
  | none =>
    rw [hn] at hsome
    rw [← hsome]
    rfl
  | some n =>
    rw [hn] at hsome
    have hread := h hsome.symm
    rw [hn] at hread
    rw [← hsome]
    exact hread

theorem Numeral.integer?_toInt (i : Int64) : (ofInt i.toInt).integer? = some i.toInt :=
  integer?_ofInt (Int64.toInt_minValue ▸ i.le_toInt) (Int.lt_trans i.toInt_lt (by decide))

theorem Json.Decoder.int64_ofInt (i : Int64) (levels : Nat) :
    Json.Decoder.int64 levels (.int i.toInt) = some i := by
  have hlow : Int64.minValue.toInt ≤ i.toInt := Int64.toInt_minValue ▸ i.le_toInt
  have hhigh : i.toInt ≤ Int64.maxValue.toInt := i.toInt_le
  show (((Numeral.ofInt i.toInt).integer?.filter _).map Int64.ofInt) = some i
  rw [Numeral.integer?_toInt, Option.filter_some, if_pos (decide_eq_true ⟨hlow, hhigh⟩),
    Option.map_some, Int64.ofInt_toInt]

namespace ScoreSpec

def floats : ScoreSpec → List Float32
  | constant value => [value]
  | termFrequency | idf => []

theorem decoder_toJson (spec : ScoreSpec) (h : ∀ x ∈ spec.floats, Single.Recovered x)
    {levels : Nat} (hlevels : spec.toJson.nesting ≤ levels) :
    Gives (spec.floats.all Single.isFinite) spec (decoder levels spec.toJson) := by
  obtain ⟨levels, rfl⟩ : ∃ k, levels = k + 1 := by
    cases levels with
    | zero => cases spec <;> cases hlevels
    | succ levels => exact ⟨levels, rfl⟩
  cases spec with
  | constant value =>
    have hselect : variants.select? true (constant value).toJson =
        some ("constant", ⟨true, [("value", Single.toJson value)]⟩) :=
      Json.select?_variant true rfl (by decide) (.refl _)
    have hvalue := Decoder.single_toJson (h value List.mem_cons_self) levels
    rw [decoder, hselect]
    exact hvalue.bind .some
  | termFrequency =>
    have hselect : variants.select? true termFrequency.toJson =
        some ("term_frequency", ⟨true, []⟩) :=
      Json.select?_variant true rfl (by decide) (.refl _)
    rw [decoder, hselect]
    exact .some
  | idf =>
    have hselect : variants.select? true idf.toJson = some ("idf", ⟨true, []⟩) :=
      Json.select?_variant true rfl (by decide) (.refl _)
    rw [decoder, hselect]
    exact .some

end ScoreSpec

namespace Query

/-! ### Queries -/

def scoreFloats (score : Option ScoreSpec) : List Float32 := (score.map (·.floats)).getD []

mutual

/-- The boost factors of a query and the constants among its score functions. -/
def floats : Query → List Float32
  | term .. | all => []
  | multiTerm _ _ score | oneOf _ _ score => scoreFloats score
  | and children | or children => floatsOfAll children
  | andNot base exclusion => base.floats ++ exclusion.floats
  | boost child factor => factor :: child.floats
  | boostBy child function => function.floats ++ child.floats
  | orderByScore child _ _ | orderByField child _ _ _ => child.floats

def floatsOfAll : List Query → List Float32
  | [] => []
  | q :: rest => q.floats ++ floatsOfAll rest

end

theorem optional_sublist (name : String) (json : Option Json) :
    ((optional name json).map (·.1)).Sublist [name] := by
  cases json with
  | none => exact List.nil_sublist _
  | some json => exact .refl _

theorem nesting_variant {tag : String} {members : List (String × Json)} {levels : Nat}
    (h : (variant tag members).nesting ≤ levels + 1) : ∀ m ∈ members, m.2.nesting ≤ levels :=
  (List.forall_mem_cons.mp (Json.nesting_record.mp h)).2

/-- What the fields of a variant give is what is read from the variant. -/
theorem gives_variant {tag : String} {names : List String} {members : List (String × Json)}
    {nested fine : Bool} {levels : Nat} {q : Query}
    (hfind : variants.find? (·.1 == tag) = some (tag, names)) (hnodup : (Json.tagKey :: names).Nodup)
    (hmembers : (members.map (·.1)).Sublist names)
    (h : Gives fine q
      (ofFields levels (decoder true levels) (listDecoder levels) tag ⟨true, members⟩)) :
    Gives fine q (decoder nested (levels + 1) (variant tag members)) := by
  rw [decoder, Json.select?_variant nested hfind hnodup hmembers]
  exact h

theorem get?_append (front : List (String × Json)) {name : String}
    (hfront : front.lookup name = none) (json : Option Json) :
    (Fields.mk true (front ++ optional name json)).get? name = json := by
  show (front ++ optional name json).lookup name = json
  rw [List.lookup_append, hfront]
  cases json with
  | none => rfl
  | some json => simp [optional]

/-- The score function that a variant has behind its other fields is read. -/
theorem score_given {tag : String} (front : List (String × Json)) {score : Option ScoreSpec}
    {levels : Nat} (h : ∀ x ∈ scoreFloats score, Single.Recovered x)
    (hfront : front.lookup "score" = none)
    (hlevels : (variant tag (front ++ optional "score" (score.map (·.toJson)))).nesting ≤
      levels + 1) :
    Gives ((scoreFloats score).all Single.isFinite) score
      ((Fields.mk true (front ++ optional "score" (score.map (·.toJson)))).withDefault "score" none
        (Decoder.nullable ScoreSpec.decoder levels)) := by
  unfold Fields.withDefault
  rw [get?_append front hfront]
  cases score with
  | none => exact .some
  | some spec =>
    have hspec := nesting_variant hlevels ("score", spec.toJson)
      (List.mem_append_right _ List.mem_cons_self)
    have hread := (spec.decoder_toJson h hspec).map Option.some
    cases spec <;> exact hread

theorem multiTerm_given (field : String) (predicate : TermPredicate String)
    (score : Option ScoreSpec) (h : ∀ x ∈ scoreFloats score, Single.Recovered x) (nested : Bool)
    {levels : Nat} (hlevels : (multiTerm field predicate score).toJson.nesting ≤ levels + 1) :
    Gives ((scoreFloats score).all Single.isFinite) (multiTerm field predicate score)
      (decoder nested (levels + 1) (multiTerm field predicate score).toJson) := by
  let operand := optional (predicateTag predicate).2 (predicate.operand?.map Json.text)
  have hoperand : (("field", Json.text field) :: operand).lookup "score" = none := by
    cases predicate <;> rfl
  have hread := (score_given _ h hoperand hlevels).bind_some (multiTerm field predicate)
  have hnames := optional_sublist "score" (score.map (·.toJson))
  cases predicate with
  | startsWith | notStartsWith | endsWith | contains | notContains =>
    exact gives_variant rfl (by decide) ((hnames.cons_cons _).cons_cons _) hread
  | present => exact gives_variant rfl (by decide) (hnames.cons_cons _) hread

theorem mapM_text (values : List String) (levels : Nat) :
    (values.map Json.text).mapM (Decoder.text levels) = some values := by
  induction values with
  | nil => rfl
  | cons value values ih =>
    rw [List.map_cons, List.mapM_cons, ih]
    rfl

theorem oneOf_given (field : String) (values : List String) (score : Option ScoreSpec)
    (h : ∀ x ∈ scoreFloats score, Single.Recovered x) (nested : Bool) {levels : Nat}
    (hlevels : (oneOf field values score).toJson.nesting ≤ levels + 1) :
    Gives ((scoreFloats score).all Single.isFinite) (oneOf field values score)
      (decoder nested (levels + 1) (oneOf field values score).toJson) := by
  have hscore := score_given [("field", .text field), ("values", .array (values.map .text))] h rfl
    hlevels
  have hvalues : Decoder.list Decoder.text levels (.array (values.map .text)) = some values := by
    have hlist := nesting_variant hlevels ("values", .array (values.map .text))
      (List.mem_cons_of_mem _ List.mem_cons_self)
    cases levels with
    | zero => cases hlist
    | succ levels => exact mapM_text values levels
  refine gives_variant rfl (by decide) (((optional_sublist _ _).cons_cons _).cons_cons _) ?_
  show Gives _ _ ((Decoder.list Decoder.text levels (.array (values.map .text))).bind fun values => _)
  rw [hvalues]
  exact hscore.bind_some (oneOf field values)

mutual

theorem decoder_toJson : (q : Query) → (∀ x ∈ q.floats, Single.Recovered x) → (nested : Bool) →
    (levels : Nat) → q.toJson.nesting ≤ levels →
    Gives (q.floats.all Single.isFinite) q (decoder nested levels q.toJson)
  | q, h, nested, 0, hlevels => by
    cases q <;> cases hlevels
  | .term field value, h, nested, levels + 1, hlevels =>
    gives_variant rfl (by decide) (.refl _) .some
  | .multiTerm field predicate score, h, nested, levels + 1, hlevels =>
    multiTerm_given field predicate score h nested hlevels
  | .oneOf field values score, h, nested, levels + 1, hlevels =>
    oneOf_given field values score h nested hlevels
  | .all, h, nested, levels + 1, hlevels => gives_variant rfl (by decide) (.refl _) .some
  | .and children, h, nested, levels + 1, hlevels => by
    have hchildren := listDecoder_toJsons children h levels
      (nesting_variant hlevels _ List.mem_cons_self)
    exact gives_variant rfl (by decide) (.refl _) (hchildren.bind_some and)
  | .or children, h, nested, levels + 1, hlevels => by
    have hchildren := listDecoder_toJsons children h levels
      (nesting_variant hlevels _ List.mem_cons_self)
    exact gives_variant rfl (by decide) (.refl _) (hchildren.bind_some or)
  | .andNot base exclusion, h, nested, levels + 1, hlevels => by
    obtain ⟨hbase, hexclusion⟩ := List.forall_mem_append.mp h
    have hmembers := nesting_variant hlevels
    have hbase := decoder_toJson base hbase true levels (hmembers _ List.mem_cons_self)
    have hexclusion := decoder_toJson exclusion hexclusion true levels
      (hmembers _ (List.mem_cons_of_mem _ List.mem_cons_self))
    rw [floats, List.all_append]
    exact gives_variant rfl (by decide) (.refl _)
      (hbase.bind (hexclusion.bind_some (andNot base)))
  | .boost child factor, h, nested, levels + 1, hlevels => by
    obtain ⟨hfactor, hchild⟩ := List.forall_mem_cons.mp h
    have hfactor := Decoder.single_toJson hfactor levels
    have hchild := decoder_toJson child hchild true levels
      (nesting_variant hlevels _ List.mem_cons_self)
    exact gives_variant rfl (by decide) (.refl _)
      (hfactor.bind (hchild.bind_some fun child => boost child factor))
  | .boostBy child function, h, nested, levels + 1, hlevels => by
    obtain ⟨hfunction, hchild⟩ := List.forall_mem_append.mp h
    have hmembers := nesting_variant hlevels
    have hfunction := function.decoder_toJson hfunction
      (hmembers _ (List.mem_cons_of_mem _ List.mem_cons_self))
    have hchild := decoder_toJson child hchild true levels (hmembers _ List.mem_cons_self)
    rw [floats, List.all_append]
    exact gives_variant rfl (by decide) (.refl _)
      (hfunction.bind (hchild.bind_some fun child => boostBy child function))
  | .orderByScore child take ascending, h, nested, levels + 1, hlevels => by
    have hchild := decoder_toJson child h true levels
      (nesting_variant hlevels _ List.mem_cons_self)
    have hread := hchild.bind_some fun child => orderByScore child take ascending
    have hnames : ((optional "take" (takeJson take) ++ [("ascending", Json.bool ascending)]).map
        Prod.fst).Sublist ["take", "ascending"] := by
      rw [List.map_append]
      exact (optional_sublist _ _).append (.refl _)
    cases take with
    | none => exact gives_variant rfl (by decide) (hnames.cons_cons _) hread
    | some k =>
      refine gives_variant rfl (by decide) (hnames.cons_cons _) ?_
      show Gives _ _ ((decoder true levels child.toJson).bind fun child =>
        ((Decoder.int64 levels (.int k.toInt)).map some).bind fun take =>
          some (orderByScore child take ascending))
      rw [Decoder.int64_ofInt]
      exact hread
  | .orderByField child field descending take, h, nested, levels + 1, hlevels => by
    have hchild := decoder_toJson child h true levels
      (nesting_variant hlevels _ List.mem_cons_self)
    have hread := hchild.bind_some fun child => orderByField child field descending take
    have hnames := ((optional_sublist "take" (takeJson take)).cons_cons "descending").cons_cons "field"
    cases take with
    | none => exact gives_variant rfl (by decide) (hnames.cons_cons _) hread
    | some k =>
      refine gives_variant rfl (by decide) (hnames.cons_cons _) ?_
      show Gives _ _ ((decoder true levels child.toJson).bind fun child =>
        ((Decoder.int64 levels (.int k.toInt)).map some).bind fun take =>
          some (orderByField child field descending take))
      rw [Decoder.int64_ofInt]
      exact hread

theorem listDecoder_toJsons : (qs : List Query) → (∀ x ∈ floatsOfAll qs, Single.Recovered x) →
    (levels : Nat) → (Json.array (toJsons qs)).nesting ≤ levels →
    Gives ((floatsOfAll qs).all Single.isFinite) qs (listDecoder levels (.array (toJsons qs)))
  | qs, h, 0, hlevels => by
    cases hlevels
  | [], h, levels + 1, hlevels => .some
  | q :: qs, h, levels + 1, hlevels => by
    obtain ⟨hq, hqs⟩ := List.forall_mem_append.mp h
    obtain ⟨hfirst, hrest⟩ := Nat.max_le.mp (Nat.le_of_succ_le_succ hlevels)
    have hq := decoder_toJson q hq true levels hfirst
    have hqs := listDecoder_toJsons qs hqs (levels + 1) (Nat.succ_le_succ hrest)
    rw [listDecoder] at hqs
    rw [listDecoder, floatsOfAll, List.all_append, toJsons, List.mapM_cons]
    exact hq.bind (hqs.bind_some fun qs => q :: qs)

end

/-! ### Reading a query back -/

section Spelled

variable {P : Numeral → Prop}

theorem spelled_single {x : Float32} (h : ∀ n, Single.numeral? x = some n → P n) :
    Spelled P (Single.toJson x) := by
  unfold Single.toJson
  cases hn : Single.numeral? x with
  | none => exact .null
  | some n => exact .number (h n hn)

/-- Members whose values are all spelled. -/
abbrev SpelledMembers (P : Numeral → Prop) (members : List (String × Json)) : Prop :=
  ∀ m ∈ members, Spelled P m.2

theorem SpelledMembers.nil : SpelledMembers P [] := fun _ hm => (List.not_mem_nil hm).elim

theorem SpelledMembers.cons {name : String} {value : Json} {members : List (String × Json)}
    (hvalue : Spelled P value) (h : SpelledMembers P members) :
    SpelledMembers P ((name, value) :: members) :=
  List.forall_mem_cons.mpr ⟨hvalue, h⟩

theorem SpelledMembers.append {front back : List (String × Json)} (hfront : SpelledMembers P front)
    (hback : SpelledMembers P back) : SpelledMembers P (front ++ back) :=
  List.forall_mem_append.mpr ⟨hfront, hback⟩

theorem spelled_variant {tag : String} {members : List (String × Json)}
    (h : SpelledMembers P members) : Spelled P (variant tag members) :=
  .record (SpelledMembers.cons (.text tag) h)

theorem spelled_optional {name : String} {json : Option Json} (h : ∀ value ∈ json, Spelled P value) :
    SpelledMembers P (optional name json) := by
  cases json with
  | none => exact .nil
  | some value => exact .cons (h value rfl) .nil

theorem spelled_spec {spec : ScoreSpec}
    (h : ∀ x ∈ spec.floats, ∀ n, Single.numeral? x = some n → P n) : Spelled P spec.toJson := by
  cases spec with
  | constant value =>
    exact spelled_variant (.cons (spelled_single (h value List.mem_cons_self)) .nil)
  | termFrequency | idf => exact spelled_variant .nil

theorem spelled_score {score : Option ScoreSpec}
    (h : ∀ x ∈ scoreFloats score, ∀ n, Single.numeral? x = some n → P n) :
    SpelledMembers P (optional "score" (score.map (·.toJson))) := by
  apply spelled_optional
  cases score with
  | none => exact fun value hvalue => by cases hvalue
  | some spec =>
    intro value hvalue
    obtain rfl : spec.toJson = value := Option.some.inj hvalue
    exact spelled_spec h

theorem spelled_take (hint : ∀ i : Int64, P (.ofInt i.toInt)) (take : Option Int64) :
    SpelledMembers P (optional "take" (takeJson take)) := by
  apply spelled_optional
  cases take with
  | none => exact fun value hvalue => by cases hvalue
  | some k =>
    intro value hvalue
    obtain rfl : Json.int k.toInt = value := Option.some.inj hvalue
    exact .number (hint k)

mutual

theorem spelled_toJson (hint : ∀ i : Int64, P (.ofInt i.toInt)) : (q : Query) →
    (∀ x ∈ q.floats, ∀ n, Single.numeral? x = some n → P n) → Spelled P q.toJson
  | .term field value, _ => spelled_variant (.cons (.text field) (.cons (.text value) .nil))
  | .multiTerm field predicate score, h => by
    have hoperand : SpelledMembers P
        (optional (predicateTag predicate).2 (predicate.operand?.map .text)) := by
      apply spelled_optional
      cases predicate with
      | present => exact fun value hvalue => by cases hvalue
      | startsWith a | notStartsWith a | endsWith a | contains a | notContains a =>
        intro value hvalue
        obtain rfl : Json.text a = value := Option.some.inj hvalue
        exact .text a
    exact spelled_variant (.cons (.text field) (hoperand.append (spelled_score h)))
  | .oneOf field values score, h => by
    have hvalues : ∀ item ∈ values.map Json.text, Spelled P item := by
      intro item hitem
      obtain ⟨value, -, rfl⟩ := List.mem_map.mp hitem
      exact .text value
    exact spelled_variant (.cons (.text field) (.cons (.array hvalues) (spelled_score h)))
  | .all, _ => spelled_variant .nil
  | .and children, h | .or children, h =>
    spelled_variant (.cons (.array (spelled_toJsons hint children h)) .nil)
  | .andNot base exclusion, h => by
    obtain ⟨hbase, hexclusion⟩ := List.forall_mem_append.mp h
    exact spelled_variant (.cons (spelled_toJson hint base hbase)
      (.cons (spelled_toJson hint exclusion hexclusion) .nil))
  | .boost child factor, h => by
    obtain ⟨hfactor, hchild⟩ := List.forall_mem_cons.mp h
    exact spelled_variant (.cons (spelled_toJson hint child hchild)
      (.cons (spelled_single hfactor) .nil))
  | .boostBy child function, h => by
    obtain ⟨hfunction, hchild⟩ := List.forall_mem_append.mp h
    exact spelled_variant (.cons (spelled_toJson hint child hchild)
      (.cons (spelled_spec hfunction) .nil))
  | .orderByScore child take ascending, h =>
    spelled_variant (.cons (spelled_toJson hint child h)
      ((spelled_take hint take).append (.cons (.bool ascending) .nil)))
  | .orderByField child field descending take, h =>
    spelled_variant (.cons (spelled_toJson hint child h)
      (.cons (.text field) (.cons (.bool descending) (spelled_take hint take))))

theorem spelled_toJsons (hint : ∀ i : Int64, P (.ofInt i.toInt)) : (qs : List Query) →
    (∀ x ∈ floatsOfAll qs, ∀ n, Single.numeral? x = some n → P n) →
    ∀ json ∈ toJsons qs, Spelled P json
  | [], _ => fun json hjson => (List.not_mem_nil hjson).elim
  | q :: qs, h => by
    obtain ⟨hq, hqs⟩ := List.forall_mem_append.mp h
    exact List.forall_mem_cons.mpr ⟨spelled_toJson hint q hq, spelled_toJsons hint qs hqs⟩

end

end Spelled

/-- A query is read back from its text, when its floating-point values are finite and the text does
not nest too deep. No other text of a query is read. -/
theorem ofText_toText (q : Query) (hcodec : ∀ x ∈ q.floats, Single.Recovered x) :
    ofText q.toText =
      if q.floats.all Single.isFinite = true ∧ q.toJson.nesting ≤ 127 then .ok q
      else .error .malformedJson := by
  have hparse : Json.parse? q.toText = some q.toJson := by
    refine Json.parse?_render (spelled_toJson (fun i => Numeral.wellFormed_ofInt _) q ?_)
    exact fun x _ n hn => Single.wellFormed_numeral? hn
  have hspelled : Spelled (fun n => n.binary64?.isSome = true) q.toJson := by
    refine spelled_toJson (fun i => ?_) q fun x hx n hn => ?_
    · exact Numeral.isSome_binary64?_of_integer? (Numeral.integer?_toInt i)
    · have hfinite : Single.isFinite x = true := by
        rw [← Single.isSome_numeral?, hn]
        rfl
      have hread := hcodec x hx hfinite
      rw [hn] at hread
      exact Numeral.isSome_binary64?_of_float32? hread
  have hadmitted := hspelled.admitted_iff Json.nestingLimit
  have hread : ofText? q.toText =
      if q.toJson.admitted Json.nestingLimit then decoder false Json.nestingLimit q.toJson
      else none := by
    unfold ofText?
    rw [hparse]
    rfl
  unfold ofText
  rw [hread]
  by_cases hlevels : q.toJson.nesting ≤ 127
  · have hgives : Gives _ q _ := decoder_toJson q hcodec false Json.nestingLimit hlevels
    rw [if_pos (hadmitted.mpr hlevels), hgives]
    by_cases hfinite : q.floats.all Single.isFinite = true
    · rw [if_pos hfinite, if_pos ⟨hfinite, hlevels⟩]
    · rw [if_neg hfinite, if_neg fun h => hfinite h.1]
  · rw [if_neg (hadmitted.not.mpr hlevels), if_neg fun h => hlevels h.2]

/-- Terms with a constant score, boosted by the factor and bounded. -/
def boosted (factor : Float32) : Query :=
  .orderByScore (.boost (.multiTerm "tag" (.startsWith "a\"\n") (some (.constant 0.5))) factor)
    (some (-3)) true

/-- The query is read back with a factor that is finite, and refused with one that is not. -/
theorem ofText_toText_boosted :
    (∀ x ∈ (boosted 2.5).floats, Single.Recovered x) ∧
      (∀ x ∈ (boosted (1 / 0)).floats, Single.Recovered x) ∧
      ofText (boosted 2.5).toText = .ok (boosted 2.5) ∧
      ofText (boosted (1 / 0)).toText = .error .malformedJson := by
  have hhalf : Single.Recovered 0.5 := fun _ => by decide +kernel
  have hfactor : Single.Recovered 2.5 := fun _ => by decide +kernel
  have hinfinite : Single.isFinite (1 / 0) = false := by decide +kernel
  have hnone : Single.Recovered (1 / 0) := by
    intro hfinite
    rw [hinfinite] at hfinite
    cases hfinite
  have hfine : ∀ x ∈ (boosted 2.5).floats, Single.Recovered x :=
    List.forall_mem_cons.mpr ⟨hfactor, List.forall_mem_singleton.mpr hhalf⟩
  have hlost : ∀ x ∈ (boosted (1 / 0)).floats, Single.Recovered x :=
    List.forall_mem_cons.mpr ⟨hnone, List.forall_mem_singleton.mpr hhalf⟩
  refine ⟨hfine, hlost, ?_, ?_⟩
  · rw [ofText_toText _ hfine]
    exact if_pos (by decide +kernel)
  · rw [ofText_toText _ hlost]
    have hall : (boosted (1 / 0)).floats.all Single.isFinite = false := by
      show (Single.isFinite (1 / 0) && _) = false
      rw [hinfinite, Bool.false_and]
    exact if_neg fun h => Bool.false_ne_true (hall ▸ h.1)

end Query

end Concordance
