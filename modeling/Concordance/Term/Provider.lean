import Concordance.Match.Term
import Concordance.Term.Predicate

/-!
# Term providers

Enumerations of the terms of a field, each as its match: those that satisfy a predicate, in the
reader's order, or those of a list, in the order of the list.
-/

namespace Concordance

class TermProvider (P : Type) where
  /-- The match of the next term; `none` once there are no more, until the provider is reset. -/
  next : P → Except Failure (Option TermMatch) × P
  reset : P → P
  evaluate : P → DocId → Except Failure Bool
  field : P → String
  inspect : P → Inspection
  /-- A bound on the number of terms still to come. -/
  left : P → Nat
  left_next {p p' : P} {m : TermMatch} : next p = (.ok (some m), p') → left p' < left p

namespace TermProvider

variable {P : Type} [TermProvider P]

def all (p : P) : Except Failure (List TermMatch) × P :=
  match _h : next p with
  | (.error e, p') => (.error e, p')
  | (.ok none, p') => (.ok [], p')
  | (.ok (some m), p') =>
      match all p' with
      | (.ok rest, p'') => (.ok (m :: rest), p'')
      | (.error e, p'') => (.error e, p'')
termination_by left p
decreasing_by exact left_next _h

end TermProvider

/-! ### Terms that satisfy a predicate -/

def IndexReader.scan (reader : IndexReader) (predicate : TermPredicate Bytes) (c : TermCursor) :
    Except Failure (Option TermEntry) × TermCursor :=
  match _h : c.next with
  | (.error e, c') => (.error e, c')
  | (.ok none, c') => (.ok none, c')
  | (.ok (some (raw, info)), c') =>
      let term := reader.decodeTerm raw
      if predicate.holds term then (.ok (some (term, info)), c')
      else if predicate.endsScan term then (.ok none, c')
      else reader.scan predicate c'
termination_by c.left
decreasing_by exact TermCursor.left_next _h

theorem IndexReader.left_scan {reader : IndexReader} {predicate : TermPredicate Bytes}
    {c c' : TermCursor} {entry : TermEntry}
    (h : reader.scan predicate c = (.ok (some entry), c')) : c'.left < c.left := by
  fun_induction reader.scan predicate c with
  | case1 | case2 | case4 => simp at h
  | case3 c raw info c₁ hn term hp =>
    rw [← (Prod.mk.inj h).2]
    exact TermCursor.left_next hn
  | case5 c raw info c₁ hn term hp he ih => exact Nat.lt_trans (ih h) (TermCursor.left_next hn)

inductive ScanState where
  | fresh
  | scanning
  | exhausted
  deriving DecidableEq

structure PredicateTerms where
  reader : IndexReader
  field : String
  predicate : TermPredicate Bytes
  cursor : TermCursor
  state : ScanState := .fresh

namespace PredicateTerms

def ofField (reader : IndexReader) (field : String) (predicate : TermPredicate Bytes) :
    Except Failure PredicateTerms :=
  (reader.terms field).map fun terms => { reader, field, predicate, cursor := { terms } }

/-- A cursor placed where the first qualifying term may be. -/
def start (p : PredicateTerms) (cursor : TermCursor) : TermCursor :=
  match p.predicate.seekTarget? with
  | some target => cursor.seek (p.reader.encodeTerm target)
  | none => cursor

def nextFrom (p : PredicateTerms) (cursor : TermCursor) :
    Except Failure (Option TermMatch) × PredicateTerms :=
  match p.reader.scan p.predicate cursor with
  | (.error e, cursor) => (.error e, { p with cursor, state := .scanning })
  | (.ok none, cursor) => (.ok none, { p with cursor, state := .exhausted })
  | (.ok (some (term, info)), cursor) =>
      ((p.reader.postings p.field info).map fun postings => some ⟨p.field, term, some postings⟩,
        { p with cursor, state := .scanning })

def next (p : PredicateTerms) : Except Failure (Option TermMatch) × PredicateTerms :=
  match p.state with
  | .exhausted => (.ok none, p)
  | .fresh => p.nextFrom (p.start p.cursor)
  | .scanning => p.nextFrom p.cursor

def reset (p : PredicateTerms) : PredicateTerms :=
  { p with cursor := p.cursor.reset, state := .fresh }

def anyFrom (p : PredicateTerms) (d : DocId) (cursor : TermCursor) : Except Failure Bool :=
  match _h : p.reader.scan p.predicate cursor with
  | (.error e, _) => .error e
  | (.ok none, _) => .ok false
  | (.ok (some (_, info)), rest) =>
      match (p.reader.postings p.field info).bind (·.contains d) with
      | .error e => .error e
      | .ok true => .ok true
      | .ok false => p.anyFrom d rest
termination_by cursor.left
decreasing_by exact IndexReader.left_scan _h

/-- Enumerates on its own, from the first term. -/
def evaluate (p : PredicateTerms) (d : DocId) : Except Failure Bool := do
  let terms ← p.reader.terms p.field
  p.anyFrom d (p.start { terms })

def inspect (p : PredicateTerms) : Inspection :=
  let node := (Inspection.ofOperation p.predicate.name).withParameter "Field" p.field
  match p.predicate.operand? with
  | some bytes => node.withParameter "Term" (lossyText bytes)
  | none => node

/-- The terms from the cursor on; before the first term is asked for, all terms. -/
def left (p : PredicateTerms) : Nat :=
  match p.state with
  | .fresh => p.cursor.terms.size + 1
  | .scanning => p.cursor.left
  | .exhausted => 0

theorem left_nextFrom {p p' : PredicateTerms} {cursor : TermCursor} {m : TermMatch}
    (h : p.nextFrom cursor = (.ok (some m), p')) : p'.left < cursor.left := by
  unfold nextFrom at h
  split at h
  · simp at h
  · simp at h
  · rename_i term info rest hs
    rw [← (Prod.mk.inj h).2]
    exact IndexReader.left_scan hs

theorem left_start_le (p : PredicateTerms) : (p.start p.cursor).left ≤ p.cursor.terms.size := by
  unfold start
  split <;> simp [TermCursor.left, TermCursor.seek]

theorem left_next {p p' : PredicateTerms} {m : TermMatch} (h : p.next = (.ok (some m), p')) :
    p'.left < p.left := by
  unfold next at h
  split at h
  · simp at h
  · rename_i hs
    have h1 := left_nextFrom h
    have h2 := left_start_le p
    have h3 : p.left = p.cursor.terms.size + 1 := by simp [left, hs]
    omega
  · rename_i hs
    have h1 := left_nextFrom h
    have h2 : p.left = p.cursor.left := by simp [left, hs]
    omega

instance : TermProvider PredicateTerms where
  next := next
  reset := reset
  evaluate := evaluate
  field := PredicateTerms.field
  inspect := inspect
  left := left
  left_next := left_next

end PredicateTerms

/-! ### Listed terms -/

/-- The terms of a list; those the index does not have are skipped. -/
structure ListedTerms where
  reader : IndexReader
  field : String
  terms : List Bytes
  rest : List Bytes

namespace ListedTerms

def ofField (reader : IndexReader) (field : String) (terms : List Bytes) :
    Except Failure ListedTerms :=
  if reader.hasField field then .ok { reader, field, terms, rest := terms }
  else .error (.unknownField field)

def open? (p : ListedTerms) (term : Bytes) : Except Failure (Option PostingCursor) := do
  match ← p.reader.lookup p.field (p.reader.encodeTerm term) with
  | some info => pure (some (← p.reader.postings p.field info))
  | none => pure none

/-- The match of the first term of a list that the index has, and the list after it. -/
def firstOf (p : ListedTerms) : List Bytes → Except Failure (Option TermMatch) × List Bytes
  | [] => (.ok none, [])
  | term :: rest =>
      match p.open? term with
      | .error e => (.error e, rest)
      | .ok (some postings) => (.ok (some ⟨p.field, term, some postings⟩), rest)
      | .ok none => p.firstOf rest

def next (p : ListedTerms) : Except Failure (Option TermMatch) × ListedTerms :=
  let (result, rest) := p.firstOf p.rest
  (result, { p with rest })

def reset (p : ListedTerms) : ListedTerms := { p with rest := p.terms }

def anyOf (p : ListedTerms) (d : DocId) : List Bytes → Except Failure Bool
  | [] => .ok false
  | term :: rest => do
      match ← p.open? term with
      | none => p.anyOf d rest
      | some postings => if ← postings.contains d then pure true else p.anyOf d rest

def evaluate (p : ListedTerms) (d : DocId) : Except Failure Bool := p.anyOf d p.terms

def inspect (p : ListedTerms) : Inspection :=
  ((Inspection.ofOperation "In").withParameter "Field" p.field).withParameter "Terms"
    (",".intercalate (p.terms.map lossyText))

theorem length_firstOf {p : ListedTerms} {terms rest : List Bytes} {m : TermMatch}
    (h : p.firstOf terms = (.ok (some m), rest)) : rest.length < terms.length := by
  induction terms with
  | nil => simp [firstOf] at h
  | cons term terms ih =>
    unfold firstOf at h
    split at h
    · simp at h
    · rw [← (Prod.mk.inj h).2]
      simp
    · have := ih h
      simp only [List.length_cons]
      omega

instance : TermProvider ListedTerms where
  next := next
  reset := reset
  evaluate := evaluate
  field := ListedTerms.field
  inspect := inspect
  left p := p.rest.length
  left_next {p p' m} h := by
    obtain ⟨hr, rfl⟩ := Prod.mk.inj h
    exact length_firstOf (Prod.ext hr rfl : p.firstOf p.rest = (.ok (some m), _))

end ListedTerms

end Concordance
