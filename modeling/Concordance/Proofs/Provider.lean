import Concordance.Proofs.Catalog
import Concordance.Proofs.Leaves
import Concordance.Term.Provider

/-!
# Term providers

A provider over an index that a catalog describes enumerates the terms that satisfy its predicate, in
order, or the terms of its list that the index has: `PredicateTerms.enumerates` and
`ListedTerms.enumerates`. Seeking to a prefix and stopping behind it loses nothing, as the terms with
one prefix stand together.
-/

namespace Concordance

/-! ### Terms with one prefix -/

/-- Between two terms with a prefix all terms have it. -/
theorem prefix_of_between {p x y : Bytes} (hpx : p ≤ x) (hxy : x < y) (hp : p <+: y) : p <+: x := by
  induction p generalizing x y with
  | nil => exact List.nil_prefix
  | cons a p ih =>
    obtain ⟨rest, rfl⟩ := hp
    cases x with
    | nil => exact (List.cons_ne_nil _ _ (List.le_nil.mp hpx)).elim
    | cons b x =>
      rw [List.cons_append, List.cons_lt_cons_iff] at hxy
      rw [List.cons_le_cons_iff] at hpx
      rcases hxy with hba | ⟨rfl, hlt⟩
      · rcases hpx with hab | ⟨rfl, -⟩
        · exact (UInt8.lt_irrefl _ (UInt8.lt_trans hab hba)).elim
        · exact (UInt8.lt_irrefl _ hba).elim
      · rcases hpx with hab | ⟨-, hle⟩
        · exact (UInt8.lt_irrefl _ hab).elim
        · exact List.cons_prefix_cons.mpr ⟨rfl, ih hle hlt (List.prefix_append _ _)⟩

/-- The terms behind those below a target are not below it. -/
theorem le_of_mem_dropWhile {entries : List TermDocs} {target : Bytes}
    (hs : entries.Pairwise fun a b => a.term < b.term) :
    ∀ e ∈ entries.dropWhile (·.term < target), target ≤ e.term := by
  induction entries with
  | nil => simp
  | cons first entries ih =>
    obtain ⟨hfirst, hs⟩ := List.pairwise_cons.mp hs
    rw [List.dropWhile_cons]
    by_cases hlt : first.term < target
    · rw [if_pos (decide_eq_true hlt)]
      exact ih hs
    · rw [if_neg (by simpa using hlt)]
      intro e he
      rcases List.mem_cons.mp he with rfl | he
      · exact hlt
      · exact fun hbelow => hlt (List.lt_trans (hfirst e he) hbelow)

namespace TermPredicate

/-- After a term that ends the scan no other term qualifies. -/
def Contiguous (p : TermPredicate Bytes) (entries : List TermDocs) : Prop :=
  entries.Pairwise fun a b => p.endsScan a.term = true → p.holds b.term = false

/-- How many terms stand before the first one scanned: only a prefix lets the scan start later. -/
def startAt (p : TermPredicate Bytes) (entries : List TermDocs) : Nat :=
  match p.seekTarget? with
  | some target => (entries.takeWhile (·.term < target)).length
  | none => 0

/-- The terms of a field that satisfy a predicate. -/
def select (p : TermPredicate Bytes) (entries : List TermDocs) : List TermDocs :=
  entries.filter (p.holds ·.term)

theorem select_startAt (p : TermPredicate Bytes) (entries : List TermDocs) :
    p.select (entries.drop (p.startAt entries)) = p.select entries := by
  cases p with
  | startsWith bytes =>
    have hnone : (startsWith bytes).select (entries.takeWhile (·.term < bytes)) = [] := by
      apply List.filter_eq_nil_iff.mpr
      intro e he hholds
      have hlt : e.term < bytes :=
        of_decide_eq_true (List.all_eq_true.mp List.all_takeWhile e he)
      exact List.IsPrefix.le (List.isPrefixOf_iff_prefix.mp hholds) hlt
    show (startsWith bytes).select (entries.drop (entries.takeWhile (·.term < bytes)).length) = _
    rw [drop_takeWhile]
    conv => rhs; rw [← List.takeWhile_append_dropWhile (p := (·.term < bytes)) (l := entries)]
    unfold select at hnone ⊢
    rw [List.filter_append, hnone, List.nil_append]
  | notStartsWith | endsWith | contains | notContains | present => rfl

theorem contiguous_startAt (p : TermPredicate Bytes) (t : TermTable) :
    p.Contiguous (t.entries.drop (p.startAt t.entries)) := by
  cases p with
  | startsWith bytes =>
    show (t.entries.drop (t.entries.takeWhile (·.term < bytes)).length).Pairwise _
    rw [drop_takeWhile]
    apply (t.sorted.sublist (List.dropWhile_sublist _)).imp_of_mem
    intro a b ha _ hab hends
    have hle := le_of_mem_dropWhile t.sorted a ha
    apply Bool.eq_false_iff.mpr
    intro hholds
    have hprefix := prefix_of_between hle hab (List.isPrefixOf_iff_prefix.mp hholds)
    rw [endsScan, List.isPrefixOf_iff_prefix.mpr hprefix] at hends
    exact Bool.false_ne_true hends
  | notStartsWith | endsWith | contains | notContains | present =>
    exact List.pairwise_of_forall fun _ _ h => (Bool.false_ne_true h).elim

end TermPredicate

/-! ### Enumerations -/

/-- The match of a term of a field as it is opened, with all its documents still to serve. -/
structure TermMatch.Opened (field : String) (e : TermDocs) (m : TermMatch) : Prop where
  field_eq : m.field = field
  term_eq : m.term = e.term
  present : m.postings.isSome
  reads : m.Reads e.docs e.docs

/-- The next term of a provider is the first of the terms that it still has to enumerate. -/
def TermProvider.Enumerates {P : Type} [TermProvider P] (field : String)
    (R : P → List TermDocs → Prop) : Prop :=
  ∀ ⦃p rest⦄, R p rest →
    match rest with
    | [] => ∃ p', TermProvider.next p = (.ok none, p') ∧ R p' []
    | e :: more => ∃ m p', TermProvider.next p = (.ok (some m), p') ∧ m.Opened field e ∧ R p' more

theorem IndexReader.Opens.opened {reader : IndexReader} {field : String} {info : TermInfo}
    {e : TermDocs} (h : reader.Opens field info e.docs) :
    ∃ cursor, reader.postings field info = .ok cursor ∧
      TermMatch.Opened field e ⟨field, e.term, some cursor⟩ := by
  obtain ⟨cursor, blocks, hopen, hdocs, hr⟩ := h
  exact ⟨cursor, hopen, rfl, rfl, rfl, blocks, hdocs, hr⟩

/-- An opened list tells which documents have its term. -/
theorem IndexReader.Opens.contains {reader : IndexReader} {field : String} {info : TermInfo}
    {e : TermDocs} (h : reader.Opens field info e.docs) (d : DocId) :
    (reader.postings field info).bind (·.contains d) = .ok (decide (d ∈ e.docs)) := by
  obtain ⟨cursor, blocks, hopen, hdocs, hr⟩ := h
  rw [hopen, ← hdocs]
  exact PostingCursor.contains_reads hr (hdocs ▸ e.ascending) d

/-! ### Terms that satisfy a predicate -/

namespace IndexReader

variable {reader : IndexReader} {field : String} {list : TermList} {t : TermTable}

theorem scan_of_error {p : TermPredicate Bytes} {c c' : TermCursor} {e : Failure}
    (h : c.next = (.error e, c')) : reader.scan p c = (.error e, c') := by
  rw [scan]
  split <;> simp_all

theorem scan_of_none {p : TermPredicate Bytes} {c c' : TermCursor} (h : c.next = (.ok none, c')) :
    reader.scan p c = (.ok none, c') := by
  rw [scan]
  split <;> simp_all

theorem scan_of_some (reader : IndexReader) (p : TermPredicate Bytes) {c c' : TermCursor}
    {raw : Bytes} {info : TermInfo}
    (h : c.next = (.ok (some (raw, info)), c')) :
    reader.scan p c =
      if p.holds (reader.decodeTerm raw) then (.ok (some (reader.decodeTerm raw, info)), c')
      else if p.endsScan (reader.decodeTerm raw) then (.ok none, c')
      else reader.scan p c' := by
  rw [scan]
  split <;> simp_all

/-- The cursor of a term list goes from one term of the table to the next. -/
theorem Lists.next (hl : reader.Lists field list t) {position : Nat} {e : TermDocs}
    {more : List TermDocs} (h : t.entries.drop position = e :: more) :
    ∃ info, TermCursor.next ⟨list, position⟩ =
        (.ok (some (reader.encodeTerm e.term, info)), ⟨list, position + 1⟩) ∧
      reader.lookup field (reader.encodeTerm e.term) = .ok (some info) ∧
      t.entries.drop (position + 1) = more := by
  have hlt : position < t.entries.length := by
    by_cases hlt : position < t.entries.length
    · exact hlt
    · rw [List.drop_eq_nil_of_le (by omega)] at h
      simp at h
  rw [List.drop_eq_getElem_cons hlt] at h
  obtain ⟨he, hmore⟩ := List.cons.inj h
  have hlt' : position < list.size := hl.size ▸ hlt
  obtain ⟨info, hentry, hlookup⟩ :=
    hl.entry ⟨position, hlt'⟩ (e := e) (by rw [List.getElem?_eq_getElem hlt, he])
  refine ⟨info, ?_, hlookup, hmore⟩
  rw [TermCursor.next, dif_pos hlt', hentry]
  rfl

/-- A scan finds the first qualifying term from the cursor on. -/
theorem Lists.scan (hl : reader.Lists field list t)
    (hd : ∀ term, reader.decodeTerm (reader.encodeTerm term) = term) {p : TermPredicate Bytes}
    {position : Nat} (hc : p.Contiguous (t.entries.drop position)) :
    match p.select (t.entries.drop position) with
    | [] => ∃ c, reader.scan p ⟨list, position⟩ = (.ok none, c) ∧ c.terms = list
    | e :: more => ∃ info position', reader.scan p ⟨list, position⟩ =
          (.ok (some (e.term, info)), ⟨list, position'⟩) ∧
        reader.lookup field (reader.encodeTerm e.term) = .ok (some info) ∧ e ∈ t.entries ∧
        p.select (t.entries.drop position') = more ∧ p.Contiguous (t.entries.drop position') := by
  generalize hrest : t.entries.drop position = rest at hc ⊢
  induction rest generalizing position with
  | nil =>
    have hge : ¬position < list.size := by
      rw [hl.size]
      exact Nat.not_lt.mpr (List.drop_eq_nil_iff.mp hrest)
    refine ⟨⟨list, position⟩, scan_of_none ?_, rfl⟩
    rw [TermCursor.next, dif_neg hge]
  | cons e rest ih =>
    obtain ⟨info, hnext, hlookup, hmore⟩ := hl.next hrest
    have hscan := scan_of_some reader p hnext
    rw [hd] at hscan
    obtain ⟨hends, hc'⟩ := List.pairwise_cons.mp hc
    unfold TermPredicate.select
    rw [List.filter_cons]
    by_cases hholds : p.holds e.term = true
    · rw [if_pos hholds]
      rw [if_pos hholds] at hscan
      have hmem : e ∈ t.entries := List.mem_of_mem_drop (hrest ▸ List.mem_cons_self)
      exact ⟨info, position + 1, hscan, hlookup, hmem, by rw [hmore], hmore ▸ hc'⟩
    · rw [if_neg hholds]
      rw [if_neg hholds] at hscan
      by_cases hstop : p.endsScan e.term = true
      · rw [if_pos hstop] at hscan
        have hnone : rest.filter (p.holds ·.term) = [] :=
          List.filter_eq_nil_iff.mpr fun b hb => by simp [hends b hb hstop]
        rw [hnone]
        exact ⟨⟨list, position + 1⟩, hscan, rfl⟩
      · rw [if_neg hstop] at hscan
        rw [hscan]
        exact ih hmore hc'

end IndexReader

namespace PredicateTerms

variable {reader : IndexReader} {c : Catalog} {field : String} {predicate : TermPredicate Bytes}

section AnyFrom

variable {p : PredicateTerms} {d : DocId} {c c' : TermCursor}

theorem anyFrom_of_error {e : Failure} (h : p.reader.scan p.predicate c = (.error e, c')) :
    p.anyFrom d c = .error e := by
  rw [anyFrom]
  split <;> simp_all

theorem anyFrom_of_none (h : p.reader.scan p.predicate c = (.ok none, c')) :
    p.anyFrom d c = .ok false := by
  rw [anyFrom]
  split <;> simp_all

theorem anyFrom_of_some {term : Bytes} {info : TermInfo}
    (h : p.reader.scan p.predicate c = (.ok (some (term, info)), c')) :
    p.anyFrom d c = ((p.reader.postings p.field info).bind (·.contains d)).bind fun found =>
      if found then .ok true else p.anyFrom d c' := by
  rw [anyFrom]
  split
  · simp_all
  · simp_all
  · rename_i hs
    rw [h] at hs
    obtain ⟨hfound, rfl⟩ := Prod.mk.inj hs
    obtain ⟨-, rfl⟩ := Prod.mk.inj (Option.some.inj (Except.ok.inj hfound))
    cases (p.reader.postings p.field info).bind (·.contains d) with
    | error e => rfl
    | ok found => cases found <;> rfl

end AnyFrom

/-- A provider of the terms of a field that satisfy a predicate, with `rest` still to enumerate. -/
structure Stands (reader : IndexReader) (field : String) (predicate : TermPredicate Bytes)
    (t : TermTable) (p : PredicateTerms) (rest : List TermDocs) : Prop where
  reader_eq : p.reader = reader
  field_eq : p.field = field
  predicate_eq : p.predicate = predicate
  lists : reader.Lists field p.cursor.terms t
  state : match p.state with
    | .fresh => p.cursor.position = 0 ∧ rest = predicate.select t.entries
    | .scanning => predicate.Contiguous (t.entries.drop p.cursor.position) ∧
        rest = predicate.select (t.entries.drop p.cursor.position)
    | .exhausted => rest = []

theorem nextFrom_stands (hr : reader.Holds c) {t : TermTable} (ht : c.table field = some t)
    {p : PredicateTerms} {rest : List TermDocs} (h : Stands reader field predicate t p rest)
    {position : Nat} (hc : predicate.Contiguous (t.entries.drop position)) :
    match predicate.select (t.entries.drop position) with
    | [] => ∃ p', p.nextFrom ⟨p.cursor.terms, position⟩ = (.ok none, p') ∧
        Stands reader field predicate t p' []
    | e :: more => ∃ m p', p.nextFrom ⟨p.cursor.terms, position⟩ = (.ok (some m), p') ∧
        m.Opened field e ∧ Stands reader field predicate t p' more := by
  have hscan := h.lists.scan hr.decode hc
  obtain ⟨r, f, q, cursor, state⟩ := p
  obtain ⟨rfl, rfl, rfl, hlists, -⟩ := h
  dsimp only at hscan hlists ⊢
  cases hsel : q.select (t.entries.drop position) with
  | nil =>
    rw [hsel] at hscan
    obtain ⟨c', hs, hc'⟩ := hscan
    refine ⟨⟨r, f, q, c', .exhausted⟩, ?_, rfl, rfl, rfl, ?_, rfl⟩
    · rw [nextFrom, hs]
    · show r.Lists f c'.terms t
      rw [hc']
      exact hlists
  | cons e more =>
    rw [hsel] at hscan
    obtain ⟨info, position', hs, hlookup, hmem, hmore, hcont⟩ := hscan
    obtain ⟨cursor', hopen, hopened⟩ := (hr.opens ht hmem hlookup).opened
    refine ⟨⟨f, e.term, some cursor'⟩, ⟨r, f, q, ⟨cursor.terms, position'⟩, .scanning⟩, ?_,
      hopened, rfl, rfl, rfl, hlists, hcont, hmore.symm⟩
    rw [nextFrom, hs]
    change r.postings f info = .ok cursor' at hopen
    simp only [hopen, Except.map]

theorem start_eq {t : TermTable} {p : PredicateTerms} {rest : List TermDocs}
    (h : Stands reader field predicate t p rest) {list : TermList}
    (hl : reader.Lists field list t) :
    p.start ⟨list, 0⟩ = ⟨list, predicate.startAt t.entries⟩ := by
  unfold start TermPredicate.startAt
  rw [h.predicate_eq, h.reader_eq]
  cases predicate.seekTarget? with
  | some target =>
    show TermCursor.seek ⟨list, 0⟩ (reader.encodeTerm target) = _
    simp only [TermCursor.seek, hl.lowerBound]
  | none => rfl

theorem enumerates (hr : reader.Holds c) {t : TermTable} (ht : c.table field = some t) :
    TermProvider.Enumerates field (Stands reader field predicate t) := by
  intro p rest h
  have hstate := h.state
  cases hs : p.state with
  | fresh =>
    simp only [hs] at hstate
    obtain ⟨hpos, rfl⟩ := hstate
    have hnext : TermProvider.next p = p.nextFrom ⟨p.cursor.terms, predicate.startAt t.entries⟩ := by
      have hcursor : p.cursor = ⟨p.cursor.terms, 0⟩ := by rw [← hpos]
      have hstart := start_eq h h.lists
      rw [← hcursor] at hstart
      show p.next = _
      rw [next, hs, hstart]
    rw [hnext, ← TermPredicate.select_startAt]
    exact nextFrom_stands hr ht h (predicate.contiguous_startAt t)
  | scanning =>
    simp only [hs] at hstate
    obtain ⟨hcont, rfl⟩ := hstate
    have hnext : TermProvider.next p = p.nextFrom ⟨p.cursor.terms, p.cursor.position⟩ := by
      show p.next = _
      rw [next, hs]
    rw [hnext]
    exact nextFrom_stands hr ht h hcont
  | exhausted =>
    simp only [hs] at hstate
    subst hstate
    refine ⟨p, ?_, h⟩
    show p.next = _
    rw [next, hs]

theorem stands_ofField (hr : reader.Holds c) {t : TermTable} (ht : c.table field = some t) :
    ∃ p, ofField reader field predicate = .ok p ∧
      Stands reader field predicate t p (predicate.select t.entries) := by
  obtain ⟨list, hterms, hlists⟩ := hr.terms ht
  refine ⟨{ reader, field, predicate, cursor := { terms := list } }, ?_, rfl, rfl, rfl, hlists, rfl,
    rfl⟩
  rw [ofField, hterms]
  rfl

end PredicateTerms

/-! ### Listed terms -/

namespace ListedTerms

variable {reader : IndexReader} {c : Catalog} {field : String} {terms : List Bytes}

def select (t : TermTable) (terms : List Bytes) : List TermDocs := terms.filterMap t.find?

/-- A provider of the terms of a list, with `rest` still to enumerate. -/
structure Stands (reader : IndexReader) (field : String) (terms : List Bytes) (t : TermTable)
    (p : ListedTerms) (rest : List TermDocs) : Prop where
  reader_eq : p.reader = reader
  field_eq : p.field = field
  terms_eq : p.terms = terms
  rest_eq : rest = select t p.rest

theorem firstOf_finds (hr : reader.Holds c) {t : TermTable} (ht : c.table field = some t)
    {p : ListedTerms} (hreader : p.reader = reader) (hfield : p.field = field) (terms : List Bytes) :
    match select t terms with
    | [] => p.firstOf terms = (.ok none, [])
    | e :: more => ∃ m rest, p.firstOf terms = (.ok (some m), rest) ∧ m.Opened field e ∧
        select t rest = more := by
  induction terms with
  | nil => rfl
  | cons term terms ih =>
    unfold select
    rw [firstOf, open?, hreader, hfield]
    cases hf : t.find? term with
    | none =>
      rw [List.filterMap_cons_none hf, hr.absent ht hf]
      exact ih
    | some e =>
      obtain ⟨-, rfl⟩ := TermTable.find?_eq_some.mp hf
      obtain ⟨info, hlookup, hopens⟩ := hr.present ht hf
      obtain ⟨cursor, hopen, hopened⟩ := hopens.opened
      rw [List.filterMap_cons_some hf, hlookup]
      refine ⟨⟨field, e.term, some cursor⟩, terms, ?_, hopened, rfl⟩
      simp only [bind, Except.bind, hopen, pure, Except.pure]

theorem enumerates (hr : reader.Holds c) {t : TermTable} (ht : c.table field = some t) :
    TermProvider.Enumerates field (Stands reader field terms t) := by
  rintro ⟨r, f, all, listed⟩ rest ⟨hreader, hfield, hall, rfl⟩
  have hfirst := firstOf_finds hr ht (p := ⟨r, f, all, listed⟩) hreader hfield listed
  have hnext : TermProvider.next (⟨r, f, all, listed⟩ : ListedTerms) =
      ((firstOf ⟨r, f, all, listed⟩ listed).1,
        ⟨r, f, all, (firstOf ⟨r, f, all, listed⟩ listed).2⟩) := rfl
  rw [hnext]
  dsimp only
  cases hsel : select t listed with
  | nil =>
    rw [hsel] at hfirst
    exact ⟨⟨r, f, all, []⟩, by rw [hfirst], hreader, hfield, hall, rfl⟩
  | cons e more =>
    rw [hsel] at hfirst
    obtain ⟨m, rest, hf, hopened, hmore⟩ := hfirst
    exact ⟨m, ⟨r, f, all, rest⟩, by rw [hf], hopened, hreader, hfield, hall, hmore.symm⟩

theorem stands_ofField (hr : reader.Holds c) {t : TermTable} (ht : c.table field = some t)
    (terms : List Bytes) :
    ∃ p, ofField reader field terms = .ok p ∧ Stands reader field terms t p (select t terms) := by
  have hfield : reader.hasField field = true := by
    rw [hr.hasField, Catalog.hasField, ht]
    rfl
  exact ⟨⟨reader, field, terms, terms⟩, if_pos hfield, rfl, rfl, rfl, rfl⟩

end ListedTerms

end Concordance
