import Concordance.Proofs.Calls
import Concordance.Proofs.TopK

/-!
# Ordering stages

The entries that an ordering stage serves are those of its match in the order of the comparer, at
most as many as the bound allows. What is dropped while they are collected does not show:
`OrderBy.kept_eq_served`.
-/

namespace Concordance

/-! ### Comparers -/

namespace SortComparer

variable (comparer : SortComparer)

/-- The order of a comparer with the order of discovery behind it. -/
def refined : SortEntry → SortEntry → Ordering :=
  compareLex comparer.compare (compareOn SortEntry.seq)

theorem before_eq (a b : SortEntry) : comparer.before a b = (comparer.refined a b).isLE := rfl

variable [Std.TransCmp comparer.compare]

instance : Std.TransCmp comparer.refined :=
  inferInstanceAs (Std.TransCmp (compareLex comparer.compare (compareOn SortEntry.seq)))

theorem preorders_before : Preorders comparer.before where
  trans a b c hab hbc := by
    rw [before_eq] at hab hbc ⊢
    exact Std.TransCmp.isLE_trans hab hbc
  total a b := by
    have hswap : comparer.refined b a = (comparer.refined a b).swap := Std.OrientedCmp.eq_swap
    rw [before_eq, before_eq, hswap]
    cases comparer.refined a b <;> rfl

theorem seq_eq_of_before {a b : SortEntry} (hab : comparer.before a b) (hba : comparer.before b a) :
    a.seq = b.seq := by
  rw [before_eq] at hab hba
  have heq : comparer.refined a b = .eq := Std.OrientedCmp.isLE_antisymm hab hba
  exact Std.LawfulEqOrd.eq_of_compare (compareLex_eq_eq.mp heq).2

instance : Std.TransCmp byScore.compare :=
  inferInstanceAs (Std.TransCmp fun a b : SortEntry => compareOn
    (fun e : SortEntry => BinaryFormat.binary32.orderKey e.score.toBits.toNat) b a)

instance : Std.TransCmp byScoreAscending.compare :=
  inferInstanceAs (Std.TransCmp
    (compareOn fun e : SortEntry => BinaryFormat.binary32.orderKey e.score.toBits.toNat))

end SortComparer

namespace OrderBy

variable {M : Type}

/-! ### Entries -/

/-- The value an entry of a document gets; one that cannot be read counts as missing. -/
def valueOf (o : OrderBy M) (d : DocId) : Option Value :=
  match o.readValue d with
  | .ok value => value
  | .error _ => none

def scoreOf (o : OrderBy M) (σ : Service) (d : DocId) : Float32 :=
  if o.comparer.needsScores then σ.score d else 0

def entriesFrom (o : OrderBy M) (σ : Service) (seq : Nat) (ids : List DocId) : List SortEntry :=
  (ids.zipIdx seq).map fun (d, seq) =>
    { docId := d, score := o.scoreOf σ d, value := o.valueOf d, seq }

/-- The entries in the order of the comparer, as many as the bound allows. -/
def served (o : OrderBy M) (σ : Service) : List SortEntry :=
  match o.take with
  | some k => (o.comparer.sort (o.entriesFrom σ 0 σ.ids)).take k
  | none => o.comparer.sort (o.entriesFrom σ 0 σ.ids)

def Readable (o : OrderBy M) (ids : List DocId) : Prop :=
  ∀ d ∈ ids, o.readValue d = .ok (o.valueOf d)

variable {o : OrderBy M} {σ : Service}

theorem readValue_of_ok {d : DocId} {value : Option Value} (h : o.readValue d = .ok value) :
    o.readValue d = .ok (o.valueOf d) := by
  unfold valueOf
  rw [h]

theorem exists_readValue (d : DocId)
    (h : ∀ d field, ∃ value, o.reader.readField d field = .ok value) :
    ∃ value, o.readValue d = .ok value := by
  unfold readValue
  cases o.comparer.field with
  | none => exact ⟨none, rfl⟩
  | some field => exact h d field

theorem entriesFrom_cons (seq : Nat) (d : DocId) (ids : List DocId) :
    o.entriesFrom σ seq (d :: ids) =
      { docId := d, score := o.scoreOf σ d, value := o.valueOf d, seq } ::
        o.entriesFrom σ (seq + 1) ids := rfl

theorem entriesFrom_append (seq : Nat) (front back : List DocId) :
    o.entriesFrom σ seq (front ++ back) =
      o.entriesFrom σ seq front ++ o.entriesFrom σ (seq + front.length) back := by
  rw [entriesFrom, List.zipIdx_append, List.map_append]
  rfl

theorem collectBatch_of_readable {seq : Nat} {entries : Array SortEntry} {ids : List DocId}
    (h : o.Readable ids) :
    o.collectBatch seq entries (ids.zip (ids.map (o.scoreOf σ))) =
      .ok ((o.entriesFrom σ seq ids).foldl o.collect entries) := by
  induction ids generalizing seq entries with
  | nil => rfl
  | cons d ids ih =>
    have hd := h d List.mem_cons_self
    have hrest : o.Readable ids := fun x hx => h x (List.mem_cons_of_mem _ hx)
    rw [List.map_cons, List.zip_cons_cons, collectBatch, hd, entriesFrom_cons, List.foldl_cons]
    exact ih hrest

theorem readable_of_collectBatch {seq : Nat} {entries kept : Array SortEntry}
    {batch : List (DocId × Float32)} (h : o.collectBatch seq entries batch = .ok kept) :
    o.Readable (batch.map (·.1)) := by
  induction batch generalizing seq entries with
  | nil =>
    intro d hd
    exact (List.not_mem_nil hd).elim
  | cons first batch ih =>
    unfold collectBatch at h
    split at h
    · cases h
    · rename_i value hvalue
      intro d hd
      rcases List.mem_cons.mp hd with rfl | hd
      · exact readValue_of_ok hvalue
      · exact ih h d hd

/-! ### What is kept -/

def kept (o : OrderBy M) (σ : Service) : List SortEntry :=
  o.finish ((o.entriesFrom σ 0 σ.ids).foldl o.collect #[])

theorem foldl_collect_of_none (h : o.take = none) (entries : Array SortEntry)
    (more : List SortEntry) : (more.foldl o.collect entries).toList = entries.toList ++ more := by
  induction more generalizing entries with
  | nil => exact (List.append_nil _).symm
  | cons e more ih =>
    have hpush : o.collect entries e = entries.push e := by
      unfold collect
      rw [h]
    rw [List.foldl_cons, ih, hpush, Array.toList_push, List.append_assoc]
    rfl

/-- Without a bound every entry is kept, also by a comparer that is no order. -/
theorem kept_of_none (h : o.take = none) : o.kept σ = o.served σ := by
  unfold kept finish served
  rw [h, foldl_collect_of_none h]
  rfl

theorem foldl_collect_keeps {k : Nat} (h : o.take = some k) (hb : Preorders o.comparer.before)
    {found : List SortEntry} {entries : Array SortEntry} (more : List SortEntry)
    (hk : Keeps o.comparer.before k found entries.toList) :
    Keeps o.comparer.before k (found ++ more) (more.foldl o.collect entries).toList := by
  induction more generalizing found entries with
  | nil =>
    rw [List.append_nil]
    exact hk
  | cons e more ih =>
    have hpush : Keeps o.comparer.before k (found ++ [e]) (entries.push e).toList := by
      rw [Array.toList_push]
      exact hk.push e
    have hcollect : Keeps o.comparer.before k (found ++ [e]) (o.collect entries e).toList := by
      unfold collect
      rw [h]
      dsimp only
      split
      · exact hpush.retainBest o.selection hb
      · exact hpush
    rw [List.foldl_cons, List.append_cons]
    exact ih hcollect

theorem eq_of_seq_eq {a b : SortEntry} {ids : List DocId} (ha : a ∈ o.entriesFrom σ 0 ids)
    (hb : b ∈ o.entriesFrom σ 0 ids) (hseq : a.seq = b.seq) : a = b := by
  obtain ⟨⟨d, i⟩, hd, rfl⟩ := List.mem_map.mp ha
  obtain ⟨⟨e, j⟩, he, rfl⟩ := List.mem_map.mp hb
  obtain rfl : i = j := hseq
  rw [List.mk_mem_zipIdx_iff_getElem?] at hd he
  obtain rfl : d = e := Option.some.inj (hd.symm.trans he)
  rfl

theorem length_retainBest_le {k : Nat} (entries : Array SortEntry) :
    (o.retainBest k entries).toList.length ≤ k := by
  unfold retainBest Selection.retainBest
  split
  · rw [List.length_take]
    exact Nat.min_le_left _ _
  · rw [Array.length_toList]
    omega

/-- By a comparer that orders the entries, those kept are the first of all. -/
theorem kept_eq_served [Std.TransCmp o.comparer.compare] : o.kept σ = o.served σ := by
  have hb := o.comparer.preorders_before
  cases htake : o.take with
  | none => exact kept_of_none htake
  | some k =>
    have hkeeps := foldl_collect_keeps htake hb (o.entriesFrom σ 0 σ.ids) Keeps.nil
    unfold kept finish served
    rw [htake]
    apply Keeps.sort_eq hb _ (hkeeps.retainBest o.selection hb) (length_retainBest_le _)
    intro a ha b hbm hab hba
    exact eq_of_seq_eq ha hbm (o.comparer.seq_eq_of_before hab hba)

theorem any_docId (entries : List SortEntry) (d : DocId) :
    entries.any (·.docId == d) = decide (d ∈ entries.map (·.docId)) := by
  rw [Bool.eq_iff_iff, List.any_eq_true, decide_eq_true_iff, List.mem_map]
  simp only [beq_iff_eq]

theorem mem_kept_of_none (h : o.take = none) (d : DocId) :
    d ∈ (o.kept σ).map (·.docId) ↔ d ∈ σ.ids := by
  have hids : (o.entriesFrom σ 0 σ.ids).map (·.docId) = σ.ids := by
    rw [entriesFrom, List.map_map]
    exact List.zipIdx_map_fst 0 σ.ids
  rw [kept_of_none h, served, h]
  unfold SortComparer.sort
  rw [((List.mergeSort_perm _ _).map _).mem_iff, hids]

end OrderBy

end Concordance
