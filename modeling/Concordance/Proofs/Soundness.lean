import Concordance.Proofs.QueryMeaning

/-!
# Sound queries

What has to hold of the parts of a query for it to be compiled, and which mistake is found first
when it does not hold: `Query.first_fault`.
-/

namespace Concordance

namespace Query

/-- What is asked of a query apart from its children being sound. -/
def Sound (c : Catalog) (limit : Option Nat) : Query → Prop
  | term field _ => c.hasField field = true
  | multiTerm field predicate _ =>
      c.hasField field = true ∧ ∀ most ∈ limit, (matching c field predicate).length ≤ most
  | oneOf field values _ =>
      c.hasField field = true ∧ ∀ most ∈ limit, (listed c field values).length ≤ most
  | all => True
  | and children => children ≠ [] ∧ ∀ child ∈ children, child.isOrdering = false
  | or children => ∀ child ∈ children, child.isOrdering = false
  | andNot base exclusion => base.isOrdering = false ∧ exclusion.isOrdering = false
  | boost child factor => factor.isNaN = false ∧ ¬ factor < 0 ∧ child.isOrdering = false
  | boostBy child _ => child.isOrdering = false
  | orderByScore child take _ => (∀ k ∈ take, 0 < k) ∧ child.isOrdering = false
  | orderByField child field _ take =>
      (∀ k ∈ take, 0 < k) ∧ c.hasField field = true ∧ child.isOrdering = false

def termField? : Query → Option String
  | term field _ | multiTerm field _ _ | oneOf field _ _ => some field
  | _ => none

variable {c : Catalog} {limit : Option Nat}

/-! ### One part of a query -/

theorem childFaults_eq_nil {parent : String} {child : Query} :
    childFaults parent child = [] ↔ child.isOrdering = false := by
  unfold childFaults
  cases child.isOrdering <;> simp

theorem fieldFaults_eq_nil {field : String} :
    fieldFaults c field = [] ↔ c.hasField field = true := by
  unfold fieldFaults
  cases c.hasField field <;> simp

theorem limitFaults_eq_nil {operation field : String} {count : Nat} :
    limitFaults limit operation field count = [] ↔ ∀ most ∈ limit, count ≤ most := by
  unfold limitFaults
  cases limit <;> simp

theorem takeFaults_eq_nil {take : Option Int64} : takeFaults take = [] ↔ ∀ k ∈ take, 0 < k := by
  unfold takeFaults
  cases take with
  | none => simp
  | some k => simp [Int64.not_le]

theorem orderFaults_eq_nil {child : Query} {field : Option String} {take : Option Int64} :
    orderFaults c child field take = [] ↔
      (∀ k ∈ take, 0 < k) ∧ (∀ f ∈ field, c.hasField f = true) ∧ child.isOrdering = false := by
  unfold orderFaults
  rw [List.append_eq_nil_iff, List.append_eq_nil_iff, takeFaults_eq_nil, and_assoc]
  cases field <;> cases child.isOrdering <;> simp

theorem ownFaults_eq_nil {q : Query} : q.ownFaults c limit = [] ↔ q.Sound c limit := by
  cases q with
  | term field value => exact fieldFaults_eq_nil
  | multiTerm field predicate score =>
    unfold ownFaults Sound
    rw [List.append_eq_nil_iff, fieldFaults_eq_nil, limitFaults_eq_nil]
  | oneOf field values score =>
    unfold ownFaults Sound
    rw [List.append_eq_nil_iff, fieldFaults_eq_nil, limitFaults_eq_nil]
  | all => exact iff_of_true rfl trivial
  | and children =>
    unfold ownFaults Sound
    cases children with
    | nil => simp
    | cons child children => simp [childFaults_eq_nil]
  | or children =>
    unfold ownFaults Sound
    simp [childFaults_eq_nil]
  | andNot base exclusion =>
    unfold ownFaults Sound
    rw [List.append_eq_nil_iff, childFaults_eq_nil, childFaults_eq_nil]
  | boost child factor =>
    show _ ↔ factor.isNaN = false ∧ ¬ factor < 0 ∧ child.isOrdering = false
    unfold ownFaults
    rw [List.append_eq_nil_iff, childFaults_eq_nil, ← and_assoc]
    cases factor.isNaN <;> by_cases h : factor < 0 <;> simp [h]
  | boostBy child function => exact childFaults_eq_nil
  | orderByScore child take ascending =>
    unfold ownFaults Sound
    rw [orderFaults_eq_nil]
    simp
  | orderByField child field descending take =>
    unfold ownFaults Sound
    rw [orderFaults_eq_nil]
    simp

theorem kind_childFaults {parent : String} {child : Query} {e : Failure}
    (h : e ∈ childFaults parent child) : e.kind = .query := by
  rw [childFaults, List.mem_ite_nil_right, List.mem_singleton] at h
  rw [h.2]
  rfl

theorem kind_limitFaults {operation field : String} {count : Nat} {e : Failure}
    (h : e ∈ limitFaults limit operation field count) : e.kind = .query := by
  rw [limitFaults, List.mem_ite_nil_left, List.mem_singleton] at h
  rw [h.2]
  rfl

theorem kind_takeFaults {take : Option Int64} {e : Failure} (h : e ∈ takeFaults take) :
    e.kind = .query := by
  cases take with
  | none => exact (List.not_mem_nil h).elim
  | some k =>
    rw [takeFaults, List.mem_ite_nil_right, List.mem_singleton] at h
    rw [h.2]
    rfl

theorem kind_orderFaults {child : Query} {field : Option String} {take : Option Int64} {e : Failure}
    (h : e ∈ orderFaults c child field take) : e.kind = .query := by
  unfold orderFaults at h
  rw [List.mem_append, List.mem_append, List.mem_ite_nil_right, List.mem_singleton] at h
  rcases h with (h | h) | ⟨-, rfl⟩
  · exact kind_takeFaults h
  · cases field with
    | none => exact (List.not_mem_nil h).elim
    | some field =>
      dsimp only at h
      rw [List.mem_ite_nil_left, List.mem_singleton] at h
      rw [h.2]
      rfl
  · rfl

/-- An unknown field is found before any other mistake of a query over terms. -/
theorem kind_fieldFaults {field : String} {more : List Failure} {e : Failure}
    (h : (fieldFaults c field ++ more).head? = some e) (hmore : ∀ e ∈ more, e.kind = .query) :
    e.kind = if c.hasField field then .query else .field := by
  unfold fieldFaults at h
  cases hf : c.hasField field with
  | false =>
    rw [hf] at h
    obtain rfl := Option.some.inj h
    rfl
  | true =>
    rw [hf, if_pos rfl, List.nil_append] at h
    exact hmore e (List.mem_of_mem_head? h)

/-- The layer that reports the first mistake of a query is that of fields when terms are looked up
in a field that is unknown. -/
theorem kind_ownFaults {q : Query} {e : Failure} (h : (q.ownFaults c limit).head? = some e) :
    e.kind = if q.termField?.all c.hasField then .query else .field := by
  have hm := List.mem_of_mem_head? h
  cases q with
  | term field value =>
    have h' : (fieldFaults c field ++ []).head? = some e := by
      rw [List.append_nil]
      exact h
    exact kind_fieldFaults h' fun _ he => (List.not_mem_nil he).elim
  | multiTerm field predicate score =>
    exact kind_fieldFaults h fun _ he => kind_limitFaults he
  | oneOf field values score =>
    exact kind_fieldFaults h fun _ he => kind_limitFaults he
  | all => cases h
  | and children =>
    rw [ownFaults] at hm
    split at hm
    · obtain rfl := List.mem_singleton.mp hm
      rfl
    · obtain ⟨child, -, hchild⟩ := List.mem_flatMap.mp hm
      exact kind_childFaults hchild
  | or children =>
    rw [ownFaults] at hm
    obtain ⟨child, -, hchild⟩ := List.mem_flatMap.mp hm
    exact kind_childFaults hchild
  | andNot base exclusion =>
    rw [ownFaults] at hm
    rcases List.mem_append.mp hm with hm | hm
    · exact kind_childFaults hm
    · exact kind_childFaults hm
  | boost child factor =>
    rw [ownFaults, List.mem_append, List.mem_ite_nil_right, List.mem_singleton] at hm
    rcases hm with ⟨-, rfl⟩ | hm
    · rfl
    · exact kind_childFaults hm
  | boostBy child function => exact kind_childFaults hm
  | orderByScore child take ascending =>
    rw [ownFaults] at hm
    exact kind_orderFaults hm
  | orderByField child field descending take =>
    rw [ownFaults] at hm
    exact kind_orderFaults hm

/-! ### All parts of a query -/

/-- The queries that a query combines. -/
def children : Query → List Query
  | term .. | multiTerm .. | oneOf .. | all => []
  | and children | or children => children
  | andNot base exclusion => [base, exclusion]
  | boost child _ | boostBy child _ | orderByScore child _ _ | orderByField child _ _ _ => [child]

theorem nodesOfAll_eq_flatMap (qs : List Query) : nodesOfAll qs = qs.flatMap nodes := by
  induction qs with
  | nil => rfl
  | cons q qs ih => rw [nodesOfAll, ih, List.flatMap_cons]

theorem nodes_eq (q : Query) : q.nodes = q.children.flatMap nodes ++ [q] := by
  cases q <;> simp [nodes, children, nodesOfAll_eq_flatMap]

theorem forall_nodes {P : Query → Prop} {q : Query} :
    (∀ node ∈ q.nodes, P node) ↔ (∀ child ∈ q.children, ∀ node ∈ child.nodes, P node) ∧ P q := by
  rw [nodes_eq, List.forall_mem_append, List.forall_mem_singleton, List.forall_mem_flatMap]

theorem sizeOf_lt_of_mem_children {child q : Query} (h : child ∈ q.children) :
    sizeOf child < sizeOf q := by
  cases q with
  | term | multiTerm | oneOf | all => exact (List.not_mem_nil h).elim
  | and children | or children =>
    have hlt := List.sizeOf_lt_of_mem (show child ∈ children from h)
    simp only [and.sizeOf_spec, or.sizeOf_spec]
    omega
  | andNot base exclusion =>
    simp only [children, List.mem_cons, List.not_mem_nil, or_false] at h
    simp only [andNot.sizeOf_spec]
    rcases h with rfl | rfl <;> omega
  | boost | boostBy | orderByScore | orderByField =>
    obtain rfl := List.mem_singleton.mp h
    simp only [boost.sizeOf_spec, boostBy.sizeOf_spec, orderByScore.sizeOf_spec,
      orderByField.sizeOf_spec]
    omega

theorem children_induction {P : Query → Prop} (step : ∀ q, (∀ child ∈ q.children, P child) → P q)
    (q : Query) : P q :=
  step q fun child _ => children_induction step child
termination_by q
decreasing_by exact sizeOf_lt_of_mem_children ‹_›

theorem nodes_subset {q node : Query} (h : node ∈ q.nodes) : node.nodes ⊆ q.nodes := by
  induction q using children_induction with
  | step q ih =>
    rw [nodes_eq, List.mem_append, List.mem_singleton, List.mem_flatMap] at h
    rcases h with ⟨child, hchild, hnode⟩ | rfl
    · rw [nodes_eq q]
      intro part hpart
      exact List.mem_append_left _ (List.mem_flatMap.mpr ⟨child, hchild, ih child hchild hnode hpart⟩)
    · exact fun _ hpart => hpart

theorem Sound.children_plain {q : Query} (h : q.Sound c limit) :
    ∀ child ∈ q.children, child.isOrdering = false := by
  cases q with
  | term | multiTerm | oneOf | all => exact fun _ hchild => (List.not_mem_nil hchild).elim
  | and children => exact h.2
  | or children => exact h
  | andNot base exclusion => exact List.forall_mem_cons.mpr ⟨h.1, List.forall_mem_singleton.mpr h.2⟩
  | boost | orderByField => exact List.forall_mem_singleton.mpr h.2.2
  | boostBy => exact List.forall_mem_singleton.mpr h
  | orderByScore => exact List.forall_mem_singleton.mpr h.2

/-- Induction over a query that is compiled to a tree: none of its parts is an ordering. -/
theorem plain_induction {P : Query → Prop}
    (step : ∀ q, q.isOrdering = false → q.Sound c limit → (∀ child ∈ q.children, P child) → P q)
    (q : Query) (hq : q.isOrdering = false) (hsound : ∀ node ∈ q.nodes, node.Sound c limit) :
    P q := by
  induction q using children_induction with
  | step q ih =>
    obtain ⟨hchildren, hown⟩ := forall_nodes.mp hsound
    exact step q hq hown fun child hchild =>
      ih child hchild (hown.children_plain child hchild) (hchildren child hchild)

theorem faults_eq_nil {q : Query} :
    q.faults c limit = [] ↔ ∀ node ∈ q.nodes, node.Sound c limit := by
  unfold faults
  rw [List.flatMap_eq_nil_iff]
  simp only [ownFaults_eq_nil]

/-- The first mistake of a query is that of the first part that is not sound. -/
theorem first_fault {q : Query} {e : Failure} (h : (q.faults c limit).head? = some e) :
    ∃ front node back, q.nodes = front ++ node :: back ∧
      (∀ other ∈ front, other.Sound c limit) ∧ ¬ node.Sound c limit ∧
      (node.ownFaults c limit).head? = some e := by
  unfold faults at h
  generalize q.nodes = nodes at h ⊢
  induction nodes with
  | nil => cases h
  | cons node nodes ih =>
    rw [List.flatMap_cons] at h
    cases hown : node.ownFaults c limit with
    | nil =>
      rw [hown] at h
      obtain ⟨front, other, back, rfl, hfront, hother⟩ := ih h
      refine ⟨node :: front, other, back, rfl, ?_, hother⟩
      intro x hx
      rcases List.mem_cons.mp hx with rfl | hx
      · exact ownFaults_eq_nil.mp hown
      · exact hfront x hx
    | cons fault faults =>
      rw [hown] at h
      refine ⟨[], node, nodes, rfl, ?_, ?_, hown.symm ▸ h⟩
      · intro x hx
        exact (List.not_mem_nil hx).elim
      · intro hsound
        rw [ownFaults_eq_nil.mpr hsound] at hown
        cases hown

end Query

end Concordance
