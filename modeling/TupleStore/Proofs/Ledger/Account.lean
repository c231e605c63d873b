import TupleStore.Pool.Store

/-!
# Accounts of pages

What the trace of a store says about one page: its committed bytes, what each transaction has left in it,
who has it open for change, and what its file holds that the cache has not seen.

* `Account.record` : an account after one more event;
* `account` : the account of a page after a trace, newest event first;
* `Touched` : a transaction has seen or changed a page since it began;
* `Unlogged` : a transaction has a change of a page that is not in the log;
* `MayWrite`, `Lawful` : the rules that events keep. A transaction sees its view of a page; one transaction at
  a time changes a page; the log has the committed bytes of a page and what its transaction has made of them; a
  commit is logged after all changes; a page is written only after the log can undo or redo it; a commit changes
  no page that another transaction has touched; locks are given up only after the end of their transaction is
  in the log.
-/

namespace TupleStore

set_option autoImplicit false

/-- What transactions have made of one page. -/
structure Account where
  committed : Bytes
  /-- What each transaction has left in the page since it began. -/
  own : TxnId → Option Bytes := fun _ => none
  /-- The transaction that opened the page for change and has not ended. -/
  opener : Option TxnId := none
  /-- What the owner of the file wrote past the cache, if the cache has neither read nor written the page
  since. -/
  outside : Option Bytes := none

namespace Account

/-- The page as a transaction is to see it. -/
def view (a : Account) (t : TxnId) : Bytes := (a.own t).getD a.committed

/-- The page as the cache is to hold it. -/
def current (a : Account) : Bytes :=
  match a.opener with
  | none => a.committed
  | some t => a.view t

/-- The account with what a transaction has left replaced. -/
def setOwn (a : Account) (t : TxnId) (bytes : Option Bytes) : Account :=
  { a with own := fun u => if u = t then bytes else a.own u }

/-- The account once a transaction has ended. -/
def complete (a : Account) (t : TxnId) (commits : Bool) : Account :=
  { a.setOwn t none with
    committed := if commits then a.view t else a.committed
    opener := if a.opener = some t then none else a.opener }

/-- The account once the cache has read the page. What was written past the cache then counts as left by
the transaction that has the page open, or else as committed. -/
def load (a : Account) : Account :=
  match a.outside, a.opener with
  | none, _ => a
  | some bytes, none => { a with committed := bytes, outside := none }
  | some bytes, some t => { a.setOwn t (some bytes) with outside := none }

/-- The account of a page after an event. -/
def record (page : PageId) (a : Account) : Effect → Account
  | .opened t p => if p = page then { a with opener := some t } else a
  | .changed t p bytes => if p = page then a.setOwn t (some bytes) else a
  | .completed t commits => a.complete t commits
  | .loaded p => if p = page then a.load else a
  | .wrote p _ => if p = page then { a with outside := none } else a
  | .rewrote p bytes => if p = page then { a with outside := some bytes } else a
  | _ => a

end Account

/-- The account of a page after a trace, whose newest event is first. -/
def account (first : PageId → Bytes) : List Effect → PageId → Account
  | [], page => { committed := first page }
  | e :: past, page => (account first past page).record page e

/-! ## Rules -/

/-- A transaction has seen or changed a page since it began. -/
def Touched (t : TxnId) (page : PageId) : List Effect → Prop
  | [] => False
  | .saw u p _ :: past => (u = t ∧ p = page) ∨ Touched t page past
  | .changed u p _ :: past => (u = t ∧ p = page) ∨ Touched t page past
  | .completed u _ :: past => u ≠ t ∧ Touched t page past
  | _ :: past => Touched t page past

/-- A transaction has opened or changed a page, and since then neither put its change into the log nor begun to
undo it. -/
def Unlogged (t : TxnId) (page : PageId) : List Effect → Prop
  | [] => False
  | .opened u p :: past => (u = t ∧ p = page) ∨ Unlogged t page past
  | .changed u p _ :: past => (u = t ∧ p = page) ∨ Unlogged t page past
  | .logged (.update u p _ _) :: past => ¬(u = t ∧ p = page) ∧ Unlogged t page past
  | .undoing u :: past => u ≠ t ∧ Unlogged t page past
  | .completed u _ :: past => u ≠ t ∧ Unlogged t page past
  | _ :: past => Unlogged t page past

/-- A record is in the log, the log was forced after it, and a transaction has kept its locks since. -/
def ForcedSince (t : TxnId) (r : LogRecord) (past : List Effect) : Prop :=
  ∃ later earlier, past = later ++ .logged r :: earlier ∧ .forced ∈ later ∧ .unlocked t ∉ later

/-- The rollback of a transaction has begun, and it has its locks still. -/
def Undoing (t : TxnId) (past : List Effect) : Prop :=
  ∃ later earlier, past = later ++ .undoing t :: earlier ∧ .unlocked t ∉ later

/-- When a page may be written to its file by the cache. -/
inductive MayWrite (first : PageId → Bytes) (past : List Effect) (page : PageId) (bytes : Bytes) : Prop where
  /-- The change of a transaction, from the committed bytes on, is in the forced log. -/
  | uncommitted (t : TxnId) (opener : (account first past page).opener = some t)
      (content : bytes = (account first past page).view t)
      (logged : ForcedSince t (.update t page (account first past page).committed bytes) past)
  /-- The commit of the transaction that changed the page is in the forced log. -/
  | committed (t : TxnId) (opener : (account first past page).opener = some t)
      (content : bytes = (account first past page).view t) (logged : ForcedSince t (.commit t) past)
  /-- A rollback gives the page its committed bytes back. -/
  | restored (t : TxnId) (opener : (account first past page).opener = some t)
      (content : bytes = (account first past page).committed) (undoing : Undoing t past)

/-- What has to hold of an event after a trace. -/
def Effect.Lawful (first : PageId → Bytes) (past : List Effect) : Effect → Prop
  | .saw t page bytes => bytes = (account first past page).view t
  | .opened t page => (account first past page).opener = none ∨ (account first past page).opener = some t
  | .changed t page _ => (account first past page).opener = some t
  | .logged (.update t page before after) => (account first past page).opener = some t ∧
      before = (account first past page).committed ∧ after = (account first past page).view t
  | .logged (.commit t) => ∀ page, ¬Unlogged t page past
  | .wrote page bytes => MayWrite first past page bytes
  | .completed t true => ∀ u page, u ≠ t → Touched u page past → (account first past page).own t = none
  | .unlocked t => ForcedSince t (.commit t) past ∨ ForcedSince t (.abort t) past
  | _ => True

/-- All events of a trace keep the rules. -/
def Lawful (first : PageId → Bytes) : List Effect → Prop
  | [] => True
  | e :: past => e.Lawful first past ∧ Lawful first past

/-- What the cache does with log and files, which is nothing to transactions. -/
def Effect.Internal : Effect → Prop
  | .logged _ => True
  | .forced => True
  | .wrote _ _ => True
  | .undoing _ => True
  | _ => False

/-- A change of a page that a transaction puts into the log. -/
def Effect.LogsChange (t : TxnId) : Effect → Prop
  | .logged (.update u _ _ _) => u = t
  | _ => False

/-- A page that the cache writes to its file. -/
def Effect.Writes : Effect → Prop
  | .wrote _ _ => True
  | _ => False

/-- What happens before the end of a transaction is logged: its changes are logged, or they are undone. -/
def Effect.Closes (t : TxnId) : Bool → Effect → Prop
  | true, e => e.LogsChange t
  | false, e => e.Writes ∨ e = .undoing t

/-- A trace with nothing but events of a kind more. -/
def Grown (P : Effect → Prop) (past now : List Effect) : Prop := ∃ more, now = more ++ past ∧ ∀ e ∈ more, P e

/-- A trace with nothing but internal events more. -/
def Trails (past now : List Effect) : Prop := Grown Effect.Internal past now

/-- A record is put into the log and the log is forced, among internal events. -/
def Forces (r : LogRecord) (past now : List Effect) : Prop :=
  ∃ later earlier, now = later ++ .logged r :: earlier ∧ .forced ∈ later ∧ Trails past earlier ∧
    ∀ e ∈ later, e.Internal

/-- The record of the end of a transaction. -/
def endRecord (t : TxnId) (commits : Bool) : LogRecord := if commits then .commit t else .abort t

/-- What a trace has more when the end of a transaction is due: its changes are logged or undone, then the record
of its end is in the forced log, and after that pages are written. -/
def Sealed (t : TxnId) (commits : Bool) (past now : List Effect) : Prop :=
  ∃ writes mid, now = writes ++ .forced :: .logged (endRecord t commits) :: mid ∧ (∀ e ∈ writes, e.Writes) ∧
    Grown (Effect.Closes t commits) past mid

/-! ## Lemmas -/

theorem Effect.Writes.internal {e : Effect} (h : e.Writes) : e.Internal := by
  cases e with
  | wrote _ _ => trivial
  | _ => exact h.elim

theorem Effect.LogsChange.internal {t : TxnId} {e : Effect} (h : e.LogsChange t) : e.Internal := by
  cases e with
  | logged _ => trivial
  | _ => exact h.elim

theorem Effect.Closes.internal {t : TxnId} {commits : Bool} {e : Effect} (h : Effect.Closes t commits e) :
    e.Internal := by
  cases commits with
  | true => exact LogsChange.internal h
  | false =>
    rcases h with h | rfl
    · exact h.internal
    · trivial

theorem Lawful.of_append {first : PageId → Bytes} {later past : List Effect} {e : Effect}
    (h : Lawful first (later ++ e :: past)) : e.Lawful first past := by
  induction later with
  | nil => exact h.1
  | cons _ later ih => exact ih h.2

theorem Lawful.of_grown {first : PageId → Bytes} {P : Effect → Prop} {past now : List Effect} (h : Lawful first now)
    (hg : Grown P past now) : Lawful first past := by
  obtain ⟨more, rfl, -⟩ := hg
  induction more with
  | nil => exact h
  | cons _ more ih => exact ih h.2

namespace Grown

variable {P : Effect → Prop} {past now later : List Effect}

theorem refl (past : List Effect) : Grown P past past := ⟨[], rfl, fun _ h => (List.not_mem_nil h).elim⟩

theorem trans (h : Grown P past now) (h' : Grown P now later) : Grown P past later := by
  obtain ⟨more, rfl, hm⟩ := h
  obtain ⟨more', rfl, hm'⟩ := h'
  refine ⟨more' ++ more, (List.append_assoc ..).symm, fun e he => ?_⟩
  rcases List.mem_append.1 he with he | he
  · exact hm' e he
  · exact hm e he

theorem mono {Q : Effect → Prop} (h : Grown P past now) (hPQ : ∀ e, P e → Q e) : Grown Q past now := by
  obtain ⟨more, rfl, hm⟩ := h
  exact ⟨more, rfl, fun e he => hPQ e (hm e he)⟩

theorem cons (h : Grown P past now) (e : Effect) (he : P e) : Grown P past (e :: now) := by
  obtain ⟨more, rfl, hm⟩ := h
  refine ⟨e :: more, rfl, fun e' he' => ?_⟩
  rcases List.mem_cons.1 he' with rfl | he'
  · exact he
  · exact hm e' he'

end Grown

/-- What is in the forced log stays there, as long as the transaction keeps its locks. -/
theorem ForcedSince.cons {t : TxnId} {r : LogRecord} {past : List Effect} (h : ForcedSince t r past) {e : Effect}
    (he : e ≠ .unlocked t) : ForcedSince t r (e :: past) := by
  obtain ⟨later, earlier, rfl, hin, hout⟩ := h
  refine ⟨e :: later, earlier, rfl, List.mem_cons_of_mem _ hin, fun hu => ?_⟩
  rcases List.mem_cons.1 hu with hu | hu
  · exact he hu.symm
  · exact hout hu

namespace Trails

variable {past now : List Effect} {t : TxnId} {r : LogRecord}

theorem forcedSince (h : Trails past now) (hf : ForcedSince t r past) : ForcedSince t r now := by
  obtain ⟨more, rfl, hm⟩ := h
  obtain ⟨later, earlier, rfl, hin, hout⟩ := hf
  refine ⟨more ++ later, earlier, (List.append_assoc ..).symm, List.mem_append_right _ hin, fun hu => ?_⟩
  rcases List.mem_append.1 hu with hu | hu
  · exact hm _ hu
  · exact hout hu

theorem undoing (h : Trails past now) (hu : Undoing t past) : Undoing t now := by
  obtain ⟨more, rfl, hm⟩ := h
  obtain ⟨later, earlier, rfl, hout⟩ := hu
  refine ⟨more ++ later, earlier, (List.append_assoc ..).symm, fun hu => ?_⟩
  rcases List.mem_append.1 hu with hu | hu
  · exact hm _ hu
  · exact hout hu

/-- Internal events change nothing of an account but what was written past the cache. -/
theorem account_eq (h : Trails past now) (first : PageId → Bytes) (page : PageId) :
    ∃ o, account first now page = { account first past page with outside := o } := by
  obtain ⟨more, rfl, hm⟩ := h
  induction more with
  | nil => exact ⟨_, rfl⟩
  | cons e more ih =>
    obtain ⟨o, ho⟩ := ih fun e' he' => hm e' (List.mem_cons_of_mem _ he')
    have he := hm e (List.mem_cons_self ..)
    have hrec : account first (e :: more ++ past) page = (account first (more ++ past) page).record page e := rfl
    rw [hrec, ho]
    cases e with
    | logged _ => exact ⟨o, rfl⟩
    | forced => exact ⟨o, rfl⟩
    | undoing _ => exact ⟨o, rfl⟩
    | wrote p b =>
      by_cases hp : p = page
      · exact ⟨none, if_pos hp⟩
      · exact ⟨o, if_neg hp⟩
    | _ => exact he.elim

end Trails

theorem Unlogged.of_logged {t : TxnId} {page : PageId} {past : List Effect} {r : LogRecord}
    (h : Unlogged t page (.logged r :: past)) : Unlogged t page past := by
  cases r with
  | update u p before after => exact h.2
  | commit u => exact h
  | abort u => exact h

namespace Forces

variable {past now later : List Effect} {t : TxnId} {r : LogRecord}

theorem trans (h : Forces r past now) (h' : Trails now later) : Forces r past later := by
  obtain ⟨mid, earlier, rfl, hin, htrails, hm⟩ := h
  obtain ⟨more, rfl, hmore⟩ := h'
  refine ⟨more ++ mid, earlier, (List.append_assoc ..).symm, List.mem_append_right _ hin, htrails, fun e he => ?_⟩
  rcases List.mem_append.1 he with he | he
  · exact hmore e he
  · exact hm e he

theorem trails (h : Forces r past now) : Trails past now := by
  obtain ⟨later, earlier, rfl, -, htrails, hm⟩ := h
  exact (htrails.cons (.logged r) trivial).trans ⟨later, rfl, hm⟩

theorem forcedSince (h : Forces r past now) : ForcedSince t r now := by
  obtain ⟨later, earlier, rfl, hin, -, hm⟩ := h
  exact ⟨later, earlier, rfl, hin, fun hu => hm _ hu⟩

end Forces

/-- Pages written leave a rollback on its way, with nothing of its transaction still to be logged. -/
structure Undone (t : TxnId) (past : List Effect) : Prop where
  undoing : Undoing t past
  logged : ∀ page, ¬Unlogged t page past

theorem Undone.grown {t : TxnId} {past now : List Effect} (h : Undone t past) (hg : Grown Effect.Writes past now) :
    Undone t now := by
  refine ⟨Trails.undoing (hg.mono fun _ he => he.internal) h.undoing, fun page hu => ?_⟩
  obtain ⟨more, rfl, hm⟩ := hg
  induction more with
  | nil => exact h.logged page hu
  | cons e more ih =>
    have he := hm e (List.mem_cons_self ..)
    refine ih (fun e' he' => hm e' (List.mem_cons_of_mem _ he')) ?_
    cases e with
    | wrote _ _ => exact hu
    | _ => exact he.elim

/-- A record at the end of the log, forced at once. -/
theorem Trails.forces {past now : List Effect} (h : Trails past now) (r : LogRecord) :
    Forces r past (.forced :: .logged r :: now) :=
  ⟨[.forced], now, rfl, List.mem_singleton_self _, h, fun e he => by rw [List.mem_singleton.1 he]; trivial⟩

theorem Sealed.forces {t : TxnId} {commits : Bool} {past now : List Effect} (h : Sealed t commits past now) :
    Forces (endRecord t commits) past now := by
  obtain ⟨writes, mid, rfl, hw, hmid⟩ := h
  refine (Trails.forces (hmid.mono fun _ he => he.internal) _).trans ⟨writes, rfl, fun e he => (hw e he).internal⟩

namespace Account

variable {a : Account} {t u : TxnId} {page : PageId}

@[simp] theorem own_setOwn (a : Account) (t u : TxnId) (bytes : Option Bytes) :
    (a.setOwn t bytes).own u = if u = t then bytes else a.own u := rfl

theorem view_of_own_none (h : a.own t = none) : a.view t = a.committed := by rw [view, h, Option.getD_none]

theorem current_of_opener (h : a.opener = some t) : a.current = a.view t := by rw [current, h]

theorem current_of_none (h : a.opener = none) : a.current = a.committed := by rw [current, h]

theorem current_of_own_none (h : ∀ t, a.own t = none) : a.current = a.committed := by
  cases ho : a.opener with
  | none => exact current_of_none ho
  | some t => rw [current_of_opener ho, view_of_own_none (h t)]

/-- The end of a transaction is nothing to a page that it has not changed. -/
theorem complete_of_ne (h : a.opener ≠ some t) (hown : a.own t = none) (commits : Bool) :
    a.complete t commits = a := by
  have hset : a.setOwn t none = a := by
    unfold setOwn
    congr
    funext u
    split
    · rename_i e
      rw [e, hown]
    · rfl
  rw [complete, hset, if_neg h, view_of_own_none hown, ite_self]

/-! ### The page read from its file -/

@[simp] theorem opener_load (a : Account) : a.load.opener = a.opener := by
  unfold load
  split <;> rfl

@[simp] theorem outside_load (a : Account) : a.load.outside = none := by
  unfold load
  split
  · assumption
  · rfl
  · rfl

theorem load_of_none (h : a.outside = none) : a.load = a := by rw [load, h]

theorem current_load (a : Account) : a.load.current = a.outside.getD a.current := by
  cases h : a.outside with
  | none => rw [load_of_none h, Option.getD_none]
  | some bytes =>
    cases ho : a.opener with
    | none =>
      rw [current_of_none (by rw [opener_load, ho]), load, h, ho]
      rfl
    | some t =>
      rw [current_of_opener (by rw [opener_load, ho]), load, h, ho]
      simp [view, setOwn]

theorem opener_record_of_ne {q : PageId} {e : Effect} (h : a.opener = some t)
    (hopened : ∀ u, e = .opened u q → u = t) (hcompleted : ∀ commits, e ≠ .completed t commits) :
    (a.record q e).opener = some t := by
  unfold record
  split
  · split
    · rename_i u p e
      rw [hopened u (e ▸ rfl)]
    · exact h
  · split
    · exact h
    · exact h
  · rename_i u commits
    have hne : a.opener ≠ some u := fun e => hcompleted commits (by rw [Option.some.inj (e.symm.trans h)])
    show (if a.opener = some u then none else a.opener) = some t
    rw [if_neg hne, h]
  · split
    · rw [opener_load, h]
    · exact h
  · split <;> exact h
  · split <;> exact h
  · exact h

theorem committed_load (h : a.opener = some t) : a.load.committed = a.committed := by
  unfold load
  rw [h]
  split <;> simp_all [setOwn]

theorem own_load (h : a.opener ≠ some t) : a.load.own t = a.own t := by
  unfold load
  split
  · rfl
  · rfl
  · rename_i u _ ho
    refine if_neg fun e => h ?_
    rw [e]
    exact ho

end Account

/-- A page with an unlogged change is open to its transaction. -/
theorem Lawful.opener_of_unlogged {first : PageId → Bytes} {past : List Effect} {t : TxnId} {page : PageId}
    (h : Lawful first past) (hu : Unlogged t page past) : (account first past page).opener = some t := by
  induction past with
  | nil => exact hu.elim
  | cons e past ih =>
    have ih := ih h.2
    have hlaw := h.1
    have hkeep : Unlogged t page past → (∀ u, e = .opened u page → u = t) →
        (∀ commits, e ≠ .completed t commits) → ((account first past page).record page e).opener = some t :=
      fun hu ho hc => Account.opener_record_of_ne (ih hu) ho hc
    show ((account first past page).record page e).opener = some t
    cases e with
    | opened u p =>
      rcases hu with ⟨rfl, rfl⟩ | hu
      · exact congrArg Account.opener (if_pos rfl)
      · refine hkeep hu (fun v e => ?_) nofun
        cases e
        rcases hlaw with hlaw | hlaw
        · rw [ih hu] at hlaw
          cases hlaw
        · rw [ih hu] at hlaw
          exact (Option.some.inj hlaw).symm
    | changed u p bytes =>
      rcases hu with ⟨rfl, rfl⟩ | hu
      · exact (congrArg Account.opener (if_pos rfl)).trans hlaw
      · exact hkeep hu nofun nofun
    | logged r =>
      cases r with
      | update u p before after => exact ih hu.2
      | commit u => exact ih hu
      | abort u => exact ih hu
    | completed u commits =>
      refine hkeep hu.2 nofun fun commits e => ?_
      cases e
      exact hu.1 rfl
    | undoing u => exact ih hu.2
    | _ => exact hkeep hu nofun nofun

/-- Once the change of a page is logged, there is no other. -/
theorem Lawful.not_unlogged_of_update {first : PageId → Bytes} {past : List Effect} {t : TxnId} {page : PageId}
    {before after : Bytes} (h : Lawful first past)
    (hlaw : Effect.Lawful first past (.logged (.update t page before after))) (u : TxnId) :
    ¬Unlogged u page (.logged (.update t page before after) :: past) := by
  rintro ⟨hne, hu⟩
  refine hne ⟨?_, rfl⟩
  exact Option.some.inj (hlaw.1.symm.trans (h.opener_of_unlogged hu))

end TupleStore
