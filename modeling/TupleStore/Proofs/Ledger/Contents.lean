import TupleStore.Proofs.Ledger.Account

/-!
# Contents of pages

The store as transactions are to see it: every page has its committed bytes, and every transaction has what it
has left in pages since it began. Only changes and ends of transactions count; frames, files and the log do
not show.

* `Contents.view` : a page as a transaction sees it;
* `Contents.write`, `Contents.complete` : the two steps there are;
* `contents` : the contents after a trace, newest event first;
* `Effect.By` : what the work of one transaction can bring about, besides what the cache does on the way, and
  `Effect.Looks` : what it can where it changes no page;
* `account_of_contents` : where nothing is written past the cache, the contents are what the accounts of all
  pages say.
-/

namespace TupleStore

set_option autoImplicit false

/-- The pages of a store, as transactions are to see them. -/
structure Contents where
  committed : PageId → Bytes
  /-- What each transaction has left in each page since it began. -/
  own : TxnId → PageId → Option Bytes := fun _ _ => none

namespace Contents

/-- A page as a transaction sees it: as it has left it, or else as it was committed last. -/
def view (c : Contents) (t : TxnId) (page : PageId) : Bytes := (c.own t page).getD (c.committed page)

/-- The contents with a page changed by a transaction. -/
def write (c : Contents) (t : TxnId) (page : PageId) (bytes : Bytes) : Contents :=
  { c with own := fun u q => if u = t ∧ q = page then some bytes else c.own u q }

/-- The contents once a transaction has ended: its pages are committed all at once, or forgotten. -/
def complete (c : Contents) (t : TxnId) (commits : Bool) : Contents where
  committed := if commits then c.view t else c.committed
  own u := if u = t then fun _ => none else c.own u

/-- The contents after an event. -/
def record (c : Contents) : Effect → Contents
  | .changed t page bytes => c.write t page bytes
  | .completed t commits => c.complete t commits
  | _ => c

end Contents

/-- The contents after a trace, whose newest event is first. -/
def contents (first : PageId → Bytes) : List Effect → Contents
  | [] => { committed := first }
  | e :: past => (contents first past).record e

/-- Nothing was written past the cache. -/
def Inside (trace : List Effect) : Prop := ∀ page bytes, .rewrote page bytes ∉ trace

/-- What the work of a transaction can bring about, or of none: it ends no transaction, not in the log either, and
nothing is written past the cache. -/
def Effect.By (t : Option TxnId) : Effect → Prop
  | .saw u _ _ => t = some u
  | .opened u _ => t = some u
  | .changed u _ _ => t = some u
  | .loaded _ => True
  | .logged (.update _ _ _ _) => True
  | .forced => True
  | .wrote _ _ => True
  | _ => False

/-- What the work of a transaction can bring about, or of none, that only reads pages. -/
def Effect.Looks (t : Option TxnId) : Effect → Prop
  | .saw u _ _ => t = some u
  | .loaded _ => True
  | .logged (.update _ _ _ _) => True
  | .forced => True
  | .wrote _ _ => True
  | _ => False

theorem Effect.Looks.by {t : Option TxnId} {e : Effect} (h : e.Looks t) : e.By t := by
  cases e with
  | saw _ _ _ => exact h
  | loaded _ => trivial
  | logged r =>
    cases r with
    | update _ _ _ _ => trivial
    | _ => exact h.elim
  | forced => trivial
  | wrote _ _ => trivial
  | _ => exact h.elim

/-! ## Traces that grow -/

variable {first : PageId → Bytes} {past now : List Effect} {t u : TxnId} {page : PageId}

theorem Inside.grown {P : Effect → Prop} (h : Inside past) (hg : Grown P past now)
    (hP : ∀ page bytes, ¬ P (.rewrote page bytes)) : Inside now := by
  obtain ⟨more, rfl, hm⟩ := hg
  intro page bytes hin
  rcases List.mem_append.1 hin with hin | hin
  · exact hP page bytes (hm _ hin)
  · exact h page bytes hin

theorem Inside.of_append {later : List Effect} (h : Inside (later ++ past)) : Inside past :=
  fun page bytes hin => h page bytes (List.mem_append_right _ hin)

theorem Inside.of_cons {e : Effect} (h : Inside (e :: past)) : Inside past := fun page bytes hin =>
  h page bytes (List.mem_cons_of_mem _ hin)

/-- Events that change nothing of what transactions see, one after the other. -/
theorem contents_of_grown {P : Effect → Prop} (h : Grown P past now) (hP : ∀ e, P e → ∀ c : Contents, c.record e = c) :
    contents first now = contents first past := by
  obtain ⟨more, rfl, hm⟩ := h
  induction more with
  | nil => rfl
  | cons e more ih =>
    show (contents first (more ++ past)).record e = _
    rw [hP e (hm e (List.mem_cons_self ..)), ih fun e' he' => hm e' (List.mem_cons_of_mem _ he')]

theorem Trails.contents_eq (h : Trails past now) : contents first now = contents first past :=
  contents_of_grown h fun e he c => by
    cases e with
    | changed _ _ _ => exact he.elim
    | completed _ _ => exact he.elim
    | _ => rfl

theorem contents_of_looks {actor : Option TxnId} (first : PageId → Bytes) (h : Grown (Effect.Looks actor) past now) :
    contents first now = contents first past :=
  contents_of_grown h fun e he c => by
    cases e with
    | changed _ _ _ => exact he.elim
    | completed _ _ => exact he.elim
    | _ => rfl

/-- The work of a transaction changes what it has left in pages itself, and nothing else. -/
theorem contents_by {actor : Option TxnId} (first : PageId → Bytes) (h : Grown (Effect.By actor) past now) :
    (contents first now).committed = (contents first past).committed ∧
      ∀ u, actor ≠ some u → (contents first now).own u = (contents first past).own u := by
  obtain ⟨more, rfl, hm⟩ := h
  induction more with
  | nil => exact ⟨rfl, fun _ _ => rfl⟩
  | cons e more ih =>
    obtain ⟨hc, ho⟩ := ih fun e' he' => hm e' (List.mem_cons_of_mem _ he')
    have he := hm e (List.mem_cons_self ..)
    cases e with
    | changed t page bytes =>
      refine ⟨hc, fun u hu => ?_⟩
      have hne : u ≠ t := fun e => hu (e ▸ he)
      rw [← ho u hu]
      funext q
      exact if_neg fun hq => hne hq.1
    | completed _ _ => exact he.elim
    | _ => exact ⟨hc, ho⟩

/-! ## Contents and accounts -/

/-- Where nothing is written past the cache, the account of a page says what the contents do. -/
theorem account_of_contents (first : PageId → Bytes) (h : Inside now) (page : PageId) :
    (account first now page).committed = (contents first now).committed page ∧
      (∀ t, (account first now page).own t = (contents first now).own t page) ∧
      (account first now page).outside = none := by
  induction now with
  | nil => exact ⟨rfl, fun _ => rfl, rfl⟩
  | cons e past ih =>
    obtain ⟨hc, ho, hout⟩ := ih h.of_cons
    have hview : ∀ t, (account first past page).view t = (contents first past).view t page := fun t => by
      rw [Account.view, Contents.view, ho, hc]
    show ((account first past page).record page e).committed = ((contents first past).record e).committed page ∧
      (∀ t, ((account first past page).record page e).own t = ((contents first past).record e).own t page) ∧
      ((account first past page).record page e).outside = none
    cases e with
    | changed t p bytes =>
      by_cases hp : p = page
      · subst hp
        refine ⟨?_, fun u => ?_, ?_⟩ <;> simp [Account.record, Account.setOwn, Contents.record, Contents.write, hc, ho, hout]
      · refine ⟨?_, fun u => ?_, ?_⟩ <;>
          simp [Account.record, Contents.record, Contents.write, hp, Ne.symm hp, hc, ho, hout]
    | completed t commits =>
      refine ⟨?_, fun u => ?_, hout⟩
      · cases commits with
        | true => exact hview t
        | false => exact hc
      · by_cases hu : u = t
        · simp [Account.record, Account.complete, Contents.record, Contents.complete, hu]
        · simp [Account.record, Account.complete, Contents.record, Contents.complete, hu, ho]
    | loaded p =>
      by_cases hp : p = page
      · have hload : (account first past page).record page (.loaded p) = account first past page := by
          rw [Account.record, if_pos hp, Account.load_of_none hout]
        rw [hload]
        exact ⟨hc, ho, hout⟩
      · simp only [Account.record, if_neg hp]
        exact ⟨hc, ho, hout⟩
    | opened t p =>
      simp only [Account.record]
      split
      · exact ⟨hc, ho, hout⟩
      · exact ⟨hc, ho, hout⟩
    | wrote p bytes =>
      simp only [Account.record]
      split
      · exact ⟨hc, ho, rfl⟩
      · exact ⟨hc, ho, hout⟩
    | rewrote p bytes => exact absurd (List.mem_cons_self ..) (h p bytes)
    | _ => exact ⟨hc, ho, hout⟩

theorem view_of_contents (h : Inside now) (t : TxnId) (page : PageId) :
    (account first now page).view t = (contents first now).view t page := by
  obtain ⟨hc, ho, -⟩ := account_of_contents first h page
  rw [Account.view, Contents.view, ho, hc]

end TupleStore
