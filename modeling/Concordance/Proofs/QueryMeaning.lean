import Concordance.Match.Root
import Concordance.Proofs.MultiTerm
import Concordance.Proofs.Tree
import Concordance.Query.Basic

/-!
# What queries stand for

The meaning of a query over a catalog, and the mistakes it holds in the order in which they are
found. Neither speaks of a reader, of posting lists or of batches.
-/

namespace Concordance

namespace Catalog

variable (c : Catalog)

def having (p : DocId → Bool) (score : DocId → Float32) (scored : Bool) (cost : UInt64) :
    Meaning where
  ids := (AllMatch.below c.docCount).filter p
  ascending := (AllMatch.ascending_below _).filter p
  score
  scored
  cost

theorem mem_having {p : DocId → Bool} {score : DocId → Float32} {scored : Bool} {cost : UInt64}
    {d : DocId} : d ∈ (c.having p score scored cost).ids ↔ d < c.docCount ∧ p d = true := by
  rw [having, List.mem_filter, AllMatch.mem_below]

def gather (scoring : Option (ScoreFunction × UInt64)) (entries : List TermDocs) : Meaning :=
  c.having (fun d => entries.any fun e => decide (d ∈ e.docs))
    (MultiTermMatch.termScore scoring entries) scoring.isSome
    (entries.foldl (fun n e => n + UInt64.ofNat e.docs.length) 0)

def intersection (parts : List Meaning) : Meaning :=
  c.having (fun d => parts.all fun ν => decide (d ∈ ν.ids)) (Meaning.sum false parts)
    (parts.any (·.scored))
    (match parts with
      | [] => 0
      | first :: others => Meaning.leastCost first others)

def union (parts : List Meaning) : Meaning :=
  c.having (fun d => parts.any fun ν => decide (d ∈ ν.ids)) (Meaning.sum true parts)
    (parts.any (·.scored)) (parts.foldl (fun n ν => n + ν.cost) 0)

variable {c}

def Covers (c : Catalog) (μ : Meaning) : Prop := ∀ d ∈ μ.ids, d < c.docCount

theorem covers_having {p : DocId → Bool} {score : DocId → Float32} {scored : Bool} {cost : UInt64} :
    c.Covers (c.having p score scored cost) := fun _ hd => (c.mem_having.mp hd).1

theorem lt_docCount {field : String} {e : TermDocs} (he : e ∈ c.terms field) {d : DocId}
    (hd : d ∈ e.docs) : d < c.docCount := by
  unfold terms at he
  split at he
  · rename_i t ht
    exact c.bounded ht e he d hd
  · simp at he

theorem gathers {scoring : Option (ScoreFunction × UInt64)} {entries : List TermDocs}
    (h : ∀ e ∈ entries, ∀ d ∈ e.docs, d < c.docCount) :
    MultiTermMatch.Gathers scoring entries (c.gather scoring entries) := by
  refine ⟨fun d => c.mem_having.trans ?_, rfl, rfl, rfl⟩
  simp only [List.any_eq_true, decide_eq_true_iff]
  constructor
  · intro hd
    exact hd.2
  · rintro ⟨e, he, hd⟩
    exact ⟨h e he d hd, e, he, hd⟩

theorem intersects {first : Meaning} {others : List Meaning} (h : c.Covers first) :
    (c.intersection (first :: others)).Intersects first others := by
  refine ⟨fun d => c.mem_having.trans ?_, rfl, rfl, rfl⟩
  simp only [List.all_eq_true, decide_eq_true_iff]
  exact ⟨fun hd => hd.2, fun hd => ⟨h d (hd first List.mem_cons_self), hd⟩⟩

theorem unites {parts : List Meaning} (h : ∀ ν ∈ parts, c.Covers ν) :
    (c.union parts).Unites parts := by
  refine ⟨fun d => c.mem_having.trans ?_, rfl, rfl, rfl⟩
  simp only [List.any_eq_true, decide_eq_true_iff]
  constructor
  · intro hd
    exact hd.2
  · rintro ⟨ν, hν, hd⟩
    exact ⟨h ν hν d hd, ν, hν, hd⟩

end Catalog

namespace Query

def matching (c : Catalog) (field : String) (predicate : TermPredicate String) : List TermDocs :=
  (predicate.map utf8).select (c.terms field)

/-- The entries of the terms of a list that the index has, in the order of the list. -/
def listed (c : Catalog) (field : String) (values : List String) : List TermDocs :=
  (values.map utf8).filterMap (c.find? field)

def scoring (c : Catalog) (score : Option ScoreSpec) : Option (ScoreFunction × UInt64) :=
  score.map fun spec => (spec.function, c.docCount)

mutual

/-- What the match of a query stands for. The score is defined for every id, also for one that the
query is not about. -/
def meaning (c : Catalog) : Query → Meaning
  | term field value =>
      match c.find? field (utf8 value) with
      | some e => e.meaning
      | none => NoMatch.meaning
  | multiTerm field predicate score => c.gather (scoring c score) (matching c field predicate)
  | oneOf field values score => c.gather (scoring c score) (listed c field values)
  | all => AllMatch.meaning c.docCount
  | and children => c.intersection (meanings c children)
  | or children => c.union (meanings c children)
  | andNot base exclusion => AndNotMatch.meaning (base.meaning c) (exclusion.meaning c)
  | boost child factor => BoostMatch.meaning (child.meaning c) (.constant factor)
  | boostBy child function =>
      BoostMatch.meaning (child.meaning c) (.function function.function c.docCount)
  | orderByScore child _ _ => child.meaning c
  | orderByField child _ _ _ => child.meaning c

def meanings (c : Catalog) : List Query → List Meaning
  | [] => []
  | q :: rest => q.meaning c :: meanings c rest

end

theorem meanings_eq_map (c : Catalog) (qs : List Query) : meanings c qs = qs.map (meaning c) := by
  induction qs with
  | nil => rfl
  | cons q qs ih => rw [meanings, ih, List.map_cons]

/-! ### Mistakes -/

/-- The order a query asks for, and the bound as it is written. -/
def ordering? : Query → Option (SortComparer × Option Int64)
  | orderByScore _ take ascending =>
      some (if ascending then .byScoreAscending else .byScore, take)
  | orderByField _ field descending take => some (.byField field descending, take)
  | _ => none

def isOrdering (q : Query) : Bool := q.ordering?.isSome

/-- An ordering that is a child of a query that cannot have it. -/
def childFaults (parent : String) (q : Query) : List Failure :=
  if q.isOrdering then [.orderedChild parent "OrderByMatch"] else []

def fieldFaults (c : Catalog) (field : String) : List Failure :=
  if c.hasField field then [] else [.unknownField field]

/-- More terms than the limit lets a query have. -/
def limitFaults (limit : Option Nat) (operation field : String) (count : Nat) : List Failure :=
  if limit.all (count ≤ ·) then [] else [.tooManyTerms operation field (limit.getD 0)]

def takeFaults : Option Int64 → List Failure
  | none => []
  | some k => if k ≤ 0 then [.takeNotPositive k] else []

def orderFaults (c : Catalog) (child : Query) (field : Option String) (take : Option Int64) :
    List Failure :=
  takeFaults take ++
    (match field with
      | some field => if c.hasField field then [] else [.unknownSortField field]
      | none => []) ++
    if child.isOrdering then [.orderedTwice] else []

/-- The mistakes of a query apart from those of its children, in the order they are looked for. -/
def ownFaults (c : Catalog) (limit : Option Nat) : Query → List Failure
  | term field _ => fieldFaults c field
  | multiTerm field predicate _ =>
      fieldFaults c field ++
        limitFaults limit predicate.name field (matching c field predicate).length
  | oneOf field values _ =>
      fieldFaults c field ++ limitFaults limit "In" field (listed c field values).length
  | all => []
  | and children =>
      if children.isEmpty then [.noChildren] else children.flatMap (childFaults "AndMatch")
  | or children => children.flatMap (childFaults "OrMatch")
  | andNot base exclusion =>
      childFaults "AndNotMatch" base ++ childFaults "AndNotMatch" exclusion
  | boost child factor =>
      (if factor.isNaN || factor < 0 then [.boostFactor factor] else []) ++
        childFaults "BoostMatch" child
  | boostBy child _ => childFaults "BoostMatch" child
  | orderByScore child take _ => orderFaults c child none take
  | orderByField child field _ take => orderFaults c child (some field) take

mutual

/-- The parts of a query and the query itself: children before their parent, from left to right. -/
def nodes : Query → List Query
  | and children => nodesOfAll children ++ [and children]
  | or children => nodesOfAll children ++ [or children]
  | andNot base exclusion => base.nodes ++ exclusion.nodes ++ [andNot base exclusion]
  | boost child factor => child.nodes ++ [boost child factor]
  | boostBy child function => child.nodes ++ [boostBy child function]
  | orderByScore child take ascending => child.nodes ++ [orderByScore child take ascending]
  | orderByField child field descending take =>
      child.nodes ++ [orderByField child field descending take]
  | term field value => [term field value]
  | multiTerm field predicate score => [multiTerm field predicate score]
  | oneOf field values score => [oneOf field values score]
  | all => [all]

def nodesOfAll : List Query → List Query
  | [] => []
  | q :: rest => q.nodes ++ nodesOfAll rest

end

/-- All mistakes of a query, in the order its nodes are compiled. -/
def faults (c : Catalog) (limit : Option Nat) (q : Query) : List Failure :=
  q.nodes.flatMap (ownFaults c limit)

/-! ### Documents of the index -/

mutual

theorem covers_meaning (c : Catalog) : (q : Query) → c.Covers (q.meaning c)
  | .term field value => by
    intro d hd
    unfold meaning at hd
    cases hf : c.find? field (utf8 value) with
    | some e =>
      rw [hf] at hd
      obtain ⟨t, ht, he⟩ := Option.bind_eq_some_iff.mp hf
      exact c.bounded ht e (TermTable.find?_eq_some.mp he).1 d hd
    | none =>
      rw [hf] at hd
      exact (List.not_mem_nil hd).elim
  | .multiTerm .. => Catalog.covers_having
  | .oneOf .. => Catalog.covers_having
  | .all => fun _ hd => AllMatch.mem_below.mp hd
  | .and _ => Catalog.covers_having
  | .or _ => Catalog.covers_having
  | .andNot base exclusion => fun d hd => covers_meaning c base d (List.mem_of_mem_filter hd)
  | .boost child _ => covers_meaning c child
  | .boostBy child _ => covers_meaning c child
  | .orderByScore child _ _ => covers_meaning c child
  | .orderByField child _ _ _ => covers_meaning c child

end

theorem covers_meanings (c : Catalog) (qs : List Query) : ∀ ν ∈ meanings c qs, c.Covers ν := by
  rw [meanings_eq_map]
  intro ν hν
  obtain ⟨q, -, rfl⟩ := List.mem_map.mp hν
  exact covers_meaning c q

end Query

end Concordance
