import TupleStore.Proofs.Ledger.Contents
import TupleStore.Proofs.Page.Occupancy

/-!
# Rows of tables

The tuples of tables as transactions are to see them: where a tuple is, and what its values are. Bytes, slots and
headers do not show.

* `Change` : a tuple inserted or deleted, and the end of a transaction;
* `Rows` : the rows that are committed, and what each transaction has made of rows since it began. A transaction
  inserts a tuple only where it sees none, and deletes only one that it sees (`Rows.Fits`);
* `Contents.Spells` : the bytes of pages say what the rows are. An insertion that fills a slot, a deletion that frees
  one and the end of a transaction keep this (`Spells.insert`, `Spells.delete`, `Spells.complete`);
* `Lists` : tuples that are the rows of the first pages of a table, in order, as are those of the pages one after the
  other (`Spells.lists`).
-/

namespace TupleStore

set_option autoImplicit false

/-- Something that happens to the tuples of tables. -/
inductive Change where
  /-- A transaction inserted a tuple, which has these values where it is stored. -/
  | inserted (txn : TxnId) (recordId : RecordId) (fields : List Field)
  | deleted (txn : TxnId) (recordId : RecordId)
  | ended (txn : TxnId) (commits : Bool)
deriving DecidableEq, Repr

/-- The values of the tuples of tables, by their record ids. -/
structure Rows where
  committed : RecordId → Option (List Field)
  /-- What each transaction has made of a row since it began, if it has touched it. -/
  own : TxnId → RecordId → Option (Option (List Field)) := fun _ _ => none

namespace Rows

/-- A row as a transaction sees it: as it has left it, or else as it was committed last. -/
def view (r : Rows) (t : TxnId) (rid : RecordId) : Option (List Field) := (r.own t rid).getD (r.committed rid)

/-- The rows with one of them left by a transaction. -/
def put (r : Rows) (t : TxnId) (rid : RecordId) (row : Option (List Field)) : Rows :=
  { r with own := fun u q => if u = t ∧ q = rid then some row else r.own u q }

/-- The rows once a transaction has ended. -/
def complete (r : Rows) (t : TxnId) (commits : Bool) : Rows where
  committed := if commits then r.view t else r.committed
  own u := if u = t then fun _ => none else r.own u

/-- The rows after a change. -/
def record (r : Rows) : Change → Rows
  | .inserted t rid fields => r.put t rid (some fields)
  | .deleted t rid => r.put t rid none
  | .ended t commits => r.complete t commits

/-- The rows after changes, one after the other. -/
def after (r : Rows) (changes : List Change) : Rows := changes.foldl record r

/-- A change that can be made: a transaction inserts a tuple where it sees none, and deletes one that it sees. -/
def Takes (r : Rows) : Change → Prop
  | .inserted t rid _ => r.view t rid = none
  | .deleted t rid => r.view t rid ≠ none
  | .ended _ _ => True

/-- Changes that can be made, one after the other. -/
def Fits (r : Rows) : List Change → Prop
  | [] => True
  | change :: changes => r.Takes change ∧ (r.record change).Fits changes

theorem after_append (r : Rows) (first last : List Change) : r.after (first ++ last) = (r.after first).after last :=
  List.foldl_append

theorem fits_append {r : Rows} {first last : List Change} (h : r.Fits first) (h' : (r.after first).Fits last) :
    r.Fits (first ++ last) := by
  induction first generalizing r with
  | nil => exact h'
  | cons change first ih => exact ⟨h.1, ih h.2 h'⟩

theorem fits_singleton {r : Rows} {change : Change} (h : r.Takes change) : r.Fits [change] := ⟨h, trivial⟩

theorem view_put (r : Rows) (t u : TxnId) (rid q : RecordId) (row : Option (List Field)) :
    (r.put t rid row).view u q = if u = t ∧ q = rid then row else r.view u q := by
  unfold view put
  dsimp only
  split <;> rfl

theorem view_complete_self (r : Rows) (t : TxnId) (commits : Bool) :
    (r.complete t commits).view t = (r.complete t commits).committed := by
  funext rid
  exact congrArg (fun own : RecordId → Option (Option (List Field)) => (own rid).getD _) (if_pos rfl)

theorem view_complete_of_ne (r : Rows) {t u : TxnId} (hu : u ≠ t) (commits : Bool) (rid : RecordId) :
    (r.complete t commits).view u rid = (r.own u rid).getD ((r.complete t commits).committed rid) :=
  congrArg (fun own : RecordId → Option (Option (List Field)) => (own rid).getD _) (if_neg hu)

/-- What a transaction has not touched stays as it is committed when the transaction ends. -/
theorem committed_complete (r : Rows) {t : TxnId} {rid : RecordId} (hown : r.own t rid = none) (commits : Bool) :
    (r.complete t commits).committed rid = r.committed rid := by
  cases commits with
  | false => rfl
  | true => exact congrArg (fun row : Option (Option (List Field)) => row.getD _) hown

end Rows

/-! ## Rows and bytes -/

namespace Contents

/-- A page as a transaction sees it, read with a schema. -/
def heap (c : Contents) (t : TxnId) (schema : Schema) (page : PageId) : HeapPage := ⟨page, schema, c.view t page⟩

/-- The bytes of all pages of tables say what the rows are. -/
structure Spells (c : Contents) (schema? : TableId → Option Schema) (r : Rows) : Prop where
  committed : ∀ rid schema, schema? rid.page.table = some schema →
    r.committed rid = (HeapPage.mk rid.page schema (c.committed rid.page)).row? rid.slot
  view : ∀ t rid schema, schema? rid.page.table = some schema →
    r.view t rid = (c.heap t schema rid.page).row? rid.slot
  /-- A transaction has touched no row of a page that it has left alone. -/
  own : ∀ t rid, c.own t rid.page = none → r.own t rid = none

variable {c : Contents} {schema? : TableId → Option Schema} {r : Rows} {t : TxnId} {rid : RecordId} {schema : Schema}

theorem view_write (c : Contents) (t u : TxnId) (page q : PageId) (bytes : Bytes) :
    (c.write t page bytes).view u q = if u = t ∧ q = page then bytes else c.view u q := by
  unfold view write
  dsimp only
  split <;> rfl

theorem view_complete_self (c : Contents) (t : TxnId) (commits : Bool) :
    (c.complete t commits).view t = (c.complete t commits).committed := by
  funext page
  exact congrArg (fun own : PageId → Option Bytes => (own page).getD _) (if_pos rfl)

theorem view_complete_of_ne (c : Contents) {t u : TxnId} (hu : u ≠ t) (commits : Bool) (page : PageId) :
    (c.complete t commits).view u page = (c.own u page).getD ((c.complete t commits).committed page) :=
  congrArg (fun own : PageId → Option Bytes => (own page).getD _) (if_neg hu)

/-- A transaction writes a page, by which one row of the page becomes another. -/
theorem Spells.write (h : c.Spells schema? r) (hs : schema? rid.page.table = some schema) {bytes : Bytes}
    {row : Option (List Field)}
    (hrow : ∀ i, (HeapPage.mk rid.page schema bytes).row? i =
      if i = rid.slot then row else (c.heap t schema rid.page).row? i) :
    (c.write t rid.page bytes).Spells schema? (r.put t rid row) := by
  refine ⟨h.committed, fun u q schema' hq => ?_, fun u q hown => ?_⟩
  · rw [Rows.view_put, heap, view_write]
    by_cases hu : u = t ∧ q.page = rid.page
    · rw [if_pos hu]
      obtain ⟨rfl, hpage⟩ := hu
      obtain rfl : schema' = schema := Option.some.inj (hq.symm.trans (hpage ▸ hs))
      have hwas := h.view u q schema' hq
      rw [hpage] at hwas ⊢
      rw [hrow]
      by_cases hslot : q.slot = rid.slot
      · have he : q = rid := by
          cases q
          cases rid
          exact (RecordId.mk.injEq ..).mpr ⟨hpage, hslot⟩
        rw [if_pos ⟨rfl, he⟩, if_pos hslot]
      · rw [if_neg fun e => hslot (congrArg RecordId.slot e.2), if_neg hslot]
        exact hwas
    · rw [if_neg hu, if_neg fun e => hu ⟨e.1, congrArg RecordId.page e.2⟩]
      exact h.view u q schema' hq
  · have hown : (if u = t ∧ q.page = rid.page then some bytes else c.own u q.page) = none := hown
    split at hown
    · cases hown
    · rename_i hne
      show (if u = t ∧ q = rid then some row else r.own u q) = none
      rw [if_neg fun e => hne ⟨e.1, congrArg RecordId.page e.2⟩]
      exact h.own u q hown

theorem Spells.insert (h : c.Spells schema? r) (hs : schema? rid.page.table = some schema) {tuple : Tuple}
    (hslot : rid.slot < (c.heap t schema rid.page).layout.slots) (ha : tuple.schema.Agrees schema) :
    (c.write t rid.page ((c.heap t schema rid.page).fill rid.slot tuple).bytes).Spells schema?
      (r.record (.inserted t rid (tuple.fields.map Field.clip))) :=
  h.write hs (HeapPage.row?_fill (p := c.heap t schema rid.page) hslot ha)

theorem Spells.delete (h : c.Spells schema? r) (hs : schema? rid.page.table = some schema)
    (hslot : rid.slot < (c.heap t schema rid.page).layout.slots) :
    (c.write t rid.page ((c.heap t schema rid.page).vacate rid.slot).bytes).Spells schema?
      (r.record (.deleted t rid)) :=
  h.write hs (HeapPage.row?_vacate (p := c.heap t schema rid.page) hslot)

/-- A transaction ends that has left no page which another has left. -/
theorem Spells.complete (h : c.Spells schema? r) (t : TxnId) (commits : Bool)
    (halone : ∀ u page, u ≠ t → c.own t page ≠ none → c.own u page = none) :
    (c.complete t commits).Spells schema? (r.record (.ended t commits)) := by
  have hcommitted : ∀ rid schema, schema? rid.page.table = some schema → (r.complete t commits).committed rid =
      (HeapPage.mk rid.page schema ((c.complete t commits).committed rid.page)).row? rid.slot := by
    intro rid schema hs
    cases commits with
    | true => exact h.view t rid schema hs
    | false => exact h.committed rid schema hs
  refine ⟨hcommitted, fun u rid schema hs => ?_, fun u rid hown => ?_⟩
  · show (r.complete t commits).view u rid = _
    by_cases hu : u = t
    · subst hu
      rw [Rows.view_complete_self, heap, view_complete_self]
      exact hcommitted rid schema hs
    · rw [Rows.view_complete_of_ne r hu, heap, view_complete_of_ne c hu]
      cases ho : c.own u rid.page with
      | none =>
        rw [h.own u rid ho, Option.getD_none, Option.getD_none]
        exact hcommitted rid schema hs
      | some bytes =>
        -- nothing that the other transaction has left in the page is committed now
        have hnone : c.own t rid.page = none := Classical.byContradiction fun hn => by
          rw [halone u rid.page hu hn] at ho
          cases ho
        have hview : c.view u rid.page = bytes := by
          rw [Contents.view, ho]
          rfl
        rw [r.committed_complete (h.own t rid hnone), Option.getD_some, ← hview]
        exact h.view u rid schema hs
  · have hown : (if u = t then fun _ => none else c.own u) rid.page = none := hown
    show (if u = t then fun _ => none else r.own u) rid = none
    split
    · rfl
    · rename_i hu
      rw [if_neg hu] at hown
      exact h.own u rid hown

end Contents

/-! ## Tuples in order -/

/-- A record id comes before another in the same table. -/
def RecordId.Before (a b : RecordId) : Prop :=
  a.page.number < b.page.number ∨ a.page.number = b.page.number ∧ a.slot < b.slot

/-- Tuples are the rows of the first pages of a table, each at its place, in the order of pages and slots. -/
structure Lists (ts : List Tuple) (table : TableId) (pages : Nat) (row? : RecordId → Option (List Field)) : Prop where
  placed : ∀ t ∈ ts, t.recordId ≠ none
  ordered : ts.Pairwise fun a b => ∃ rid rid', a.recordId = some rid ∧ b.recordId = some rid' ∧ rid.Before rid'
  rows : ∀ rid fields, (∃ t ∈ ts, t.recordId = some rid ∧ t.fields = fields) ↔
    rid.page.table = table ∧ rid.page.number < pages ∧ row? rid = some fields

theorem Contents.Spells.lists {c : Contents} {schema? : TableId → Option Schema} {r : Rows} (h : c.Spells schema? r)
    (t : TxnId) {table : TableId} {schema : Schema} (hs : schema? table = some schema) (pages : Nat) :
    Lists ((List.range pages).flatMap fun n => (c.heap t schema ⟨table, n⟩).tuples) table pages (r.view t) where
  placed x hx := by
    obtain ⟨n, -, hx⟩ := List.mem_flatMap.1 hx
    obtain ⟨slot, hx⟩ := HeapPage.mem_tuples.1 hx
    rw [HeapPage.recordId_of_tuple? hx]
    exact Option.some_ne_none _
  ordered := by
    rw [List.pairwise_flatMap]
    refine ⟨fun n _ => (HeapPage.tuples_ordered _).imp ?_, List.pairwise_lt_range.imp fun {m n} hmn x hx y hy => ?_⟩
    · rintro a b ⟨i, j, ha, hb, hij⟩
      exact ⟨_, _, ha, hb, Or.inr ⟨rfl, hij⟩⟩
    · obtain ⟨i, hx⟩ := HeapPage.mem_tuples.1 hx
      obtain ⟨j, hy⟩ := HeapPage.mem_tuples.1 hy
      exact ⟨_, _, HeapPage.recordId_of_tuple? hx, HeapPage.recordId_of_tuple? hy, Or.inl hmn⟩
  rows rid fields := by
    constructor
    · rintro ⟨x, hx, hrid, hf⟩
      obtain ⟨n, hn, hx⟩ := List.mem_flatMap.1 hx
      obtain ⟨slot, hslot⟩ := HeapPage.mem_tuples.1 hx
      obtain rfl : rid = ⟨⟨table, n⟩, slot⟩ := Option.some.inj (hrid.symm.trans (HeapPage.recordId_of_tuple? hslot))
      refine ⟨rfl, List.mem_range.1 hn, (h.view t _ schema hs).trans ?_⟩
      exact HeapPage.row?_eq_some.2 ⟨x, hx, hrid, hf⟩
    · rintro ⟨htable, hn, hrow⟩
      obtain ⟨⟨table', n⟩, slot⟩ := rid
      obtain rfl : table' = table := htable
      rw [h.view t _ schema hs] at hrow
      obtain ⟨x, hx, hrid, hf⟩ := HeapPage.row?_eq_some.1 hrow
      exact ⟨x, List.mem_flatMap.2 ⟨n, List.mem_range.2 hn, hx⟩, hrid, hf⟩

end TupleStore
