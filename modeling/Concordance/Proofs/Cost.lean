import Concordance.Proofs.CostCalls
import Concordance.Proofs.Execute

/-!
# Costs of queries

The cost of a match told from the query alone: the number of documents of a term, the sum of the
parts of a union, the least part of an intersection, and no more than the bound of an ordering. As
long as the sums fit into a machine word it is the cost of the match, and the match serves no more
ids: `Searcher.Compiled.toNat_cost` and `Query.length_service_le`.
-/

namespace Concordance

/-! ### Lengths and sums -/

theorem Ascending.length_le_of_subset {ids more : List DocId} (h : Ascending ids)
    (hsub : ids ⊆ more) : ids.length ≤ more.length :=
  (List.subperm_of_subset (h.imp UInt64.ne_of_lt) hsub).length_le

theorem AllMatch.length_below (bound : DocId) : (AllMatch.below bound).length = bound.toNat :=
  AllMatch.length_idsFrom 0 bound.toNat

theorem toNat_foldl_add {f : α → UInt64} {xs : List α} {n : UInt64}
    (h : n.toNat + (xs.map fun x => (f x).toNat).sum < UInt64.size) :
    (xs.foldl (fun n x => n + f x) n).toNat = n.toNat + (xs.map fun x => (f x).toNat).sum := by
  induction xs generalizing n with
  | nil => rfl
  | cons x xs ih =>
    rw [List.map_cons, List.sum_cons, ← Nat.add_assoc] at h ⊢
    have hadd : (n + f x).toNat = n.toNat + (f x).toNat := by
      rw [UInt64.toNat_add]
      exact Nat.mod_eq_of_lt (Nat.lt_of_le_of_lt (Nat.le_add_right _ _) h)
    rw [← hadd] at h ⊢
    exact ih h

theorem toNat_total {f : α → UInt64} {xs : List α} {ns : List Nat}
    (hns : (xs.map fun x => (f x).toNat) = ns) (h : ns.sum < UInt64.size) :
    (xs.foldl (fun n x => n + f x) 0).toNat = ns.sum := by
  subst hns
  rw [toNat_foldl_add (by rwa [UInt64.toNat_zero, Nat.zero_add]), UInt64.toNat_zero, Nat.zero_add]

theorem Meaning.min?_cost (μ : Meaning) (μs : List Meaning) :
    ((μ :: μs).map fun ν => ν.cost.toNat).min? = some (μ.leastCost μs).toNat := by
  induction μs generalizing μ with
  | nil => rfl
  | cons ν μs ih =>
    rw [List.map_cons, List.min?_cons, ih ν]
    show some (min _ _) = some (min μ.cost (leastCost ν μs)).toNat
    rw [UInt64.toNat_min]

namespace Catalog

variable {c : Catalog} {field : String} {e : TermDocs}

/-- A term has no more documents than there are, so that their number fits into a machine word. -/
theorem toNat_length_docs (h : ∀ d ∈ e.docs, d < c.docCount) :
    (UInt64.ofNat e.docs.length).toNat = e.docs.length := by
  have hlen := e.ascending.length_le_of_subset fun d hd => AllMatch.mem_below.mpr (h d hd)
  rw [AllMatch.length_below] at hlen
  exact UInt64.toNat_ofNat_of_lt' (Nat.lt_of_le_of_lt hlen c.docCount.toNat_lt)

theorem lt_docCount_of_find? {term : Bytes} (h : c.find? field term = some e) :
    ∀ d ∈ e.docs, d < c.docCount := by
  obtain ⟨t, ht, he⟩ := Option.bind_eq_some_iff.mp h
  exact c.bounded ht e (TermTable.find?_eq_some.mp he).1

end Catalog

namespace Query

variable {c : Catalog} {limit : Option Nat}

/-! ### The cost of a query -/

def countDocs (entries : List TermDocs) : Nat := (entries.map (·.docs.length)).sum

/-- What a bound leaves of a number of ids. -/
def bounded (take : Option Int64) (n : Nat) : Nat :=
  match take with
  | some k => min n k.toInt.toNat
  | none => n

mutual

/-- The cost of the match of a query, where sums may be of any size. -/
def cost (c : Catalog) : Query → Nat
  | term field value => countDocs (c.find? field (utf8 value)).toList
  | multiTerm field predicate _ => countDocs (matching c field predicate)
  | oneOf field values _ => countDocs (listed c field values)
  | all => c.docCount.toNat
  | and children => (costs c children).min?.getD 0
  | or children => (costs c children).sum
  | andNot base _ => base.cost c
  | boost child _ | boostBy child _ => child.cost c
  | orderByScore child take _ | orderByField child _ _ take => bounded take (child.cost c)

def costs (c : Catalog) : List Query → List Nat
  | [] => []
  | q :: rest => q.cost c :: costs c rest

end

/-- A sum of costs has to fit into a machine word; other costs are never sums. -/
def SumFits (c : Catalog) (q : Query) : Prop :=
  match q with
  | multiTerm .. | oneOf .. | or _ => q.cost c < UInt64.size
  | _ => True

instance : DecidablePred (SumFits c)
  | .multiTerm .. | .oneOf .. | .or _ => inferInstanceAs (Decidable (_ < _))
  | .term .. | .all | .and _ | .andNot .. | .boost .. | .boostBy .. | .orderByScore ..
  | .orderByField .. => isTrue trivial

theorem costs_eq_map (c : Catalog) (qs : List Query) : costs c qs = qs.map (cost c) := by
  induction qs with
  | nil => rfl
  | cons q qs ih => rw [costs, ih, List.map_cons]

theorem cost_of_ordering {q : Query} {comparer : SortComparer} {take : Option Int64}
    (h : q.ordering? = some (comparer, take)) :
    ∃ child ∈ q.children, q.meaning c = child.meaning c ∧
      q.cost c = bounded take (child.cost c) := by
  cases q with
  | orderByScore child take' ascending =>
    obtain ⟨-, rfl⟩ := Prod.mk.inj (Option.some.inj h)
    exact ⟨child, List.mem_cons_self, by rw [meaning], by rw [cost]⟩
  | orderByField child field descending take' =>
    obtain ⟨-, rfl⟩ := Prod.mk.inj (Option.some.inj h)
    exact ⟨child, List.mem_cons_self, by rw [meaning], by rw [cost]⟩
  | _ => cases h

/-! ### Costs of matches -/

theorem toNat_cost_gather {scoring : Option (ScoreFunction × UInt64)} {entries : List TermDocs}
    (hb : ∀ e ∈ entries, ∀ d ∈ e.docs, d < c.docCount) (hfit : countDocs entries < UInt64.size) :
    (c.gather scoring entries).cost.toNat = countDocs entries :=
  toNat_total (List.map_congr_left fun e he => Catalog.toNat_length_docs (hb e he)) hfit

/-- The cost of a match is that of its query when the sums fit. -/
theorem toNat_cost_meaning (q : Query) (hq : q.isOrdering = false)
    (hsound : ∀ node ∈ q.nodes, node.Sound c limit) (hfit : ∀ node ∈ q.nodes, node.SumFits c) :
    (q.meaning c).cost.toNat = q.cost c := by
  revert hfit
  refine plain_induction (P := fun q => (∀ node ∈ q.nodes, node.SumFits c) →
    (q.meaning c).cost.toNat = q.cost c) ?_ q hq hsound
  intro q hq hsound ih hfit
  obtain ⟨hchildren, hown⟩ := forall_nodes.mp hfit
  have hcosts : ((meanings c q.children).map fun ν => ν.cost.toNat) = costs c q.children := by
    rw [meanings_eq_map, costs_eq_map, List.map_map]
    exact List.map_congr_left fun child hchild => ih child hchild (hchildren child hchild)
  cases q with
  | term field value =>
    rw [meaning, cost]
    cases hf : c.find? field (utf8 value) with
    | none => rfl
    | some e => exact Catalog.toNat_length_docs (Catalog.lt_docCount_of_find? hf)
  | multiTerm field predicate score =>
    rw [meaning, cost]
    refine toNat_cost_gather (fun e he d hd => ?_) hown
    exact Catalog.lt_docCount (List.mem_of_mem_filter he) hd
  | oneOf field values score =>
    rw [meaning, cost]
    refine toNat_cost_gather (fun e he => ?_) hown
    obtain ⟨term, -, hf⟩ := List.mem_filterMap.mp he
    exact Catalog.lt_docCount_of_find? hf
  | all =>
    rw [meaning, cost]
    rfl
  | and children =>
    replace hcosts : (meanings c children).map (fun ν => ν.cost.toNat) = costs c children := hcosts
    rw [meaning, cost, ← hcosts]
    cases meanings c children with
    | nil => rfl
    | cons first others =>
      rw [Meaning.min?_cost]
      rfl
  | or children =>
    rw [SumFits, cost] at hown
    rw [meaning, cost]
    exact toNat_total hcosts hown
  | andNot base exclusion =>
    rw [meaning, cost]
    exact ih base List.mem_cons_self (hchildren base List.mem_cons_self)
  | boost child factor | boostBy child function =>
    rw [meaning, cost]
    exact ih child List.mem_cons_self (hchildren child List.mem_cons_self)
  | orderByScore | orderByField => cases hq

/-! ### Ids that are served -/

theorem length_gather_le {scoring : Option (ScoreFunction × UInt64)} {entries : List TermDocs} :
    (c.gather scoring entries).ids.length ≤ countDocs entries := by
  have hsub : (c.gather scoring entries).ids ⊆ entries.flatMap (·.docs) := by
    intro d hd
    obtain ⟨e, he, hmem⟩ := List.any_eq_true.mp (c.mem_having.mp hd).2
    exact List.mem_flatMap.mpr ⟨e, he, of_decide_eq_true hmem⟩
  have hlen := (c.gather scoring entries).ascending.length_le_of_subset hsub
  rwa [List.length_flatMap] at hlen

/-- A query has no more ids than it costs. -/
theorem length_ids_le (q : Query) (hq : q.isOrdering = false)
    (hsound : ∀ node ∈ q.nodes, node.Sound c limit) : (q.meaning c).ids.length ≤ q.cost c := by
  refine plain_induction (P := fun q => (q.meaning c).ids.length ≤ q.cost c) ?_ q hq hsound
  intro q hq hsound ih
  cases q with
  | term field value =>
    rw [meaning, cost]
    cases c.find? field (utf8 value) <;> exact Nat.le_refl _
  | multiTerm field predicate score =>
    rw [meaning, cost]
    exact length_gather_le
  | oneOf field values score =>
    rw [meaning, cost]
    exact length_gather_le
  | all =>
    rw [meaning, cost]
    exact Nat.le_of_eq (AllMatch.length_below c.docCount)
  | and children =>
    rw [meaning, cost, costs_eq_map]
    have hle : ∀ n ∈ children.map (cost c),
        (c.intersection (meanings c children)).ids.length ≤ n := by
      refine List.forall_mem_map.mpr fun child hchild => ?_
      refine Nat.le_trans (Ascending.length_le_of_subset (Meaning.ascending _) fun d hd => ?_)
        (ih child hchild)
      have hall := List.all_eq_true.mp (c.mem_having.mp hd).2
      rw [meanings_eq_map] at hall
      exact of_decide_eq_true (hall _ (List.mem_map_of_mem hchild))
    cases hmin : (children.map (cost c)).min? with
    | none =>
      rw [List.min?_eq_none_iff, List.map_eq_nil_iff] at hmin
      exact (hsound.1 hmin).elim
    | some least => exact hle least (List.min?_mem hmin)
  | or children =>
    rw [meaning, cost, costs_eq_map]
    have hsub : (c.union (meanings c children)).ids ⊆
        children.flatMap fun child => (child.meaning c).ids := by
      intro d hd
      obtain ⟨ν, hν, hmem⟩ := List.any_eq_true.mp (c.mem_having.mp hd).2
      rw [meanings_eq_map] at hν
      obtain ⟨child, hchild, rfl⟩ := List.mem_map.mp hν
      exact List.mem_flatMap.mpr ⟨child, hchild, of_decide_eq_true hmem⟩
    calc (c.union (meanings c children)).ids.length
        ≤ (children.map fun child => (child.meaning c).ids.length).sum := by
          rw [← List.length_flatMap]
          exact Ascending.length_le_of_subset (Meaning.ascending _) hsub
      _ ≤ (children.map (cost c)).sum := List.sum_le_sum ih
  | andNot base exclusion =>
    rw [meaning, cost]
    exact Nat.le_trans (List.length_filter_le _ _) (ih base List.mem_cons_self)
  | boost child factor | boostBy child function =>
    rw [meaning, cost]
    exact ih child List.mem_cons_self
  | orderByScore | orderByField => cases hq

end Query

/-! ### Ordering stages -/

namespace OrderBy

variable {M : Type} {o : OrderBy M} {σ : Service}

theorem size_foldl_collect_le (found : List SortEntry) (entries : Array SortEntry) :
    (found.foldl o.collect entries).size ≤ entries.size + found.length := by
  induction found generalizing entries with
  | nil => exact Nat.le_refl _
  | cons e found ih =>
    have h1 := ih (o.collect entries e)
    have h2 := o.size_collect_le entries e
    rw [List.foldl_cons, List.length_cons]
    omega

theorem length_kept_le : (o.kept σ).length ≤ σ.ids.length := by
  have hentries : (o.entriesFrom σ 0 σ.ids).length = σ.ids.length := by
    rw [entriesFrom, List.length_map, List.length_zipIdx]
  have hcollected := size_foldl_collect_le (o := o) (o.entriesFrom σ 0 σ.ids) #[]
  have hfinished := o.length_finish_le ((o.entriesFrom σ 0 σ.ids).foldl o.collect #[])
  rw [hentries, Array.size_empty, Nat.zero_add] at hcollected
  exact Nat.le_trans hfinished hcollected

theorem length_kept_le_take {k : Nat} (h : o.take = some k) : (o.kept σ).length ≤ k := by
  unfold kept finish SortComparer.sort
  rw [List.length_mergeSort, h]
  exact length_retainBest_le _

end OrderBy

/-! ### Compiled queries -/

namespace Query

variable {c : Catalog} {limit : Option Nat} {q : Query}

/-- The match of a query serves no more ids than the query costs. -/
theorem length_service_le (reader : IndexReader) (hsound : ∀ node ∈ q.nodes, node.Sound c limit) :
    (q.service c reader).ids.length ≤ q.cost c := by
  unfold service
  cases hq : q.ordering? with
  | none => exact length_ids_le q (by rw [isOrdering, hq]; rfl) hsound
  | some order =>
    obtain ⟨comparer, take⟩ := order
    obtain ⟨child, hchild, hmeaning, hcost⟩ := cost_of_ordering (c := c) hq
    obtain ⟨hparts, hown⟩ := forall_nodes.mp hsound
    have hids := length_ids_le child (hown.children_plain child hchild) (hparts child hchild)
    dsimp only
    rw [List.length_map, hcost, hmeaning]
    have hkept := Nat.le_trans (OrderBy.length_kept_le (o := OrderBy.ofMatch NoMatch.mk comparer
      reader (take.map fun k => k.toInt.toNat) {}) (σ := Match.service (child.meaning c))) hids
    cases take with
    | none => exact hkept
    | some k => exact Nat.le_min.mpr ⟨hkept, OrderBy.length_kept_le_take rfl⟩

end Query

namespace Searcher

variable {s : Searcher} {c : Catalog} {limit : Option Nat} {q : Query} {n : Nat} {m : Match n}

theorem Compiled.toNat_cost (h : Compiled s c q m) (hsound : ∀ node ∈ q.nodes, node.Sound c limit)
    (hfit : ∀ node ∈ q.nodes, node.SumFits c) : m.cost.toNat = q.cost c := by
  cases m with
  | plain tree =>
    obtain ⟨hq, hs⟩ := h
    rw [← Query.toNat_cost_meaning q hq hsound hfit]
    exact congrArg UInt64.toNat (Matcher.serves_upholds.answers hs).cost
  | ordered stage =>
    obtain ⟨tree, comparer, take, hq, -, -, rfl, hs⟩ := h
    obtain ⟨child, hchild, hmeaning, hcost⟩ := Query.cost_of_ordering (c := c) hq
    obtain ⟨hparts, hown⟩ := Query.forall_nodes.mp hsound
    have hinner := Query.toNat_cost_meaning child (hown.children_plain child hchild)
      (hparts child hchild) ((Query.forall_nodes.mp hfit).1 child hchild)
    rw [← hmeaning, ← (Matcher.serves_upholds.answers hs).cost] at hinner
    rw [hcost, ← hinner]
    cases take with
    | none => rfl
    | some k =>
      have hfits : (UInt64.ofNat k.toInt.toNat).toNat = k.toInt.toNat := by
        refine UInt64.toNat_ofNat_of_lt' ?_
        have hlt := k.toInt_lt
        simp only [UInt64.size]
        omega
      show (min (Matcher.cost tree) (UInt64.ofNat k.toInt.toNat)).toNat = min _ _
      rw [UInt64.toNat_min, hfits]

end Searcher

end Concordance
