import TupleStore.Proofs.Ledger.Contents
import TupleStore.Proofs.Ledger.Records

/-!
# The log read back

The records of a log, taken from its beginning: the commit of a transaction installs what the transaction has
logged last of each page, and everything else is ignored.

* `redo` : the pages that come of it, with the changes that wait for the commit of their transaction;
* `Redone` : the pages are those that are committed, and what waits is what the transactions have made of their
  pages, where all of it is logged;
* `Redone.by` : this is kept by the work of transactions, one event at a time;
* `Redone.ended` : and by the end of one. From the record of a commit until the transaction has ended the log is
  ahead, so this is a single step;
* `Ripe` : whenever a commit was logged, the log was up to date.
-/

namespace TupleStore

set_option autoImplicit false

/-! ## Records -/

/-- What the records of a log come to. -/
structure Redo where
  pages : PageId → Bytes
  /-- What a page was and is by the last change of it that a transaction has logged since it last ended. -/
  last : TxnId → PageId → Option (Bytes × Bytes) := fun _ _ => none

namespace Redo

/-- Nothing of a transaction waits any more. -/
def clear (r : Redo) (t : TxnId) : Redo := { r with last := fun u => if u = t then fun _ => none else r.last u }

/-- One more record. -/
def record (r : Redo) : LogRecord → Redo
  | .update t page before after =>
    { r with last := fun u q => if u = t ∧ q = page then some (before, after) else r.last u q }
  | .commit t => { r.clear t with pages := fun q => ((r.last t q).map Prod.snd).getD (r.pages q) }
  | .abort t => r.clear t

@[simp] theorem last_clear (r : Redo) (t u : TxnId) (page : PageId) :
    (r.clear t).last u page = if u = t then none else r.last u page := by
  unfold clear
  split <;> simp_all

end Redo

/-- The records of a log one after the other, from the first pages on. -/
def redo (first : PageId → Bytes) (records : List LogRecord) : Redo := records.foldl Redo.record { pages := first }

theorem redo_snoc (first : PageId → Bytes) (records : List LogRecord) (r : LogRecord) :
    redo first (records ++ [r]) = (redo first records).record r := by
  unfold redo
  rw [List.foldl_append]
  rfl

/-! ## Records and contents -/

/-- The log is up to date: its pages are committed, and a page whose changes are all logged waits as its
transaction has left it. -/
structure Redone (first : PageId → Bytes) (trace : List Effect) : Prop where
  pages : (redo first (recorded trace)).pages = (contents first trace).committed
  last : ∀ t page x, (redo first (recorded trace)).last t page = some x →
    (account first trace page).opener = some t ∧ x.1 = (contents first trace).committed page ∧
      (¬Unlogged t page trace → x.2 = (contents first trace).view t page)
  logged : ∀ t page, (account first trace page).opener = some t → ¬Unlogged t page trace →
    (redo first (recorded trace)).last t page ≠ none

variable {first : PageId → Bytes} {trace past mid now : List Effect} {t u : TxnId} {page : PageId} {commits : Bool}

/-- A transaction leaves something only in pages that it has open. -/
theorem Lawful.opener_of_own (h : Lawful first trace) (hown : (account first trace page).own t ≠ none) :
    (account first trace page).opener = some t := by
  induction trace with
  | nil => exact absurd rfl hown
  | cons e past ih =>
    have ih := ih h.2
    have hlaw := h.1
    change ((account first past page).record page e).own t ≠ none at hown
    show ((account first past page).record page e).opener = some t
    cases e with
    | opened u p =>
      simp only [Account.record] at hown ⊢
      split
      · rename_i hp
        subst hp
        rw [if_pos rfl] at hown
        rcases hlaw with hn | hu
        · rw [hn] at ih
          cases ih hown
        · exact hu.symm.trans (ih hown)
      · rename_i hp
        rw [if_neg hp] at hown
        exact ih hown
    | changed u p bytes =>
      simp only [Account.record] at hown ⊢
      split
      · rename_i hp
        subst hp
        rw [if_pos rfl, Account.own_setOwn] at hown
        split at hown
        · rename_i hu
          rw [hu]
          exact hlaw
        · exact ih hown
      · rename_i hp
        rw [if_neg hp] at hown
        exact ih hown
    | completed u commits =>
      have hown' : (if t = u then none else (account first past page).own t) ≠ none := hown
      split at hown'
      · exact absurd rfl hown'
      · rename_i hu
        refine (if_neg fun e => hu ?_).trans (ih hown')
        exact Option.some.inj ((ih hown').symm.trans e)
    | loaded p =>
      simp only [Account.record] at hown ⊢
      split
      · rename_i hp
        rw [if_pos hp] at hown
        rw [Account.opener_load]
        by_cases ho : (account first past page).opener = some t
        · exact ho
        · rw [Account.own_load ho] at hown
          exact ih hown
      · rename_i hp
        rw [if_neg hp] at hown
        exact ih hown
    | wrote p bytes =>
      simp only [Account.record] at hown ⊢
      split <;> simp_all
    | rewrote p bytes =>
      simp only [Account.record] at hown ⊢
      split <;> simp_all
    | _ => exact ih hown

/-- A page that is open to a transaction is to all others as it was committed. -/
theorem Lawful.view_eq_committed (h : Lawful first trace) (hin : Inside trace)
    (ho : (account first trace page).opener ≠ some t) :
    (contents first trace).view t page = (contents first trace).committed page := by
  have hown : (contents first trace).own t page = none := by
    rw [← (account_of_contents first hin page).2.1]
    exact Classical.byContradiction fun hn => ho (h.opener_of_own hn)
  rw [Contents.view, hown, Option.getD_none]

namespace Redone

theorem nil (first : PageId → Bytes) : Redone first [] := ⟨rfl, nofun, nofun⟩

/-! ## The work of transactions -/

theorem opened (h : Redone first past) (hlaw : Effect.Lawful first past (.opened t page)) :
    Redone first (.opened t page :: past) := by
  have ho : ∀ q, (account first (.opened t page :: past) q).opener =
      if page = q then some t else (account first past q).opener := by
    intro q
    show ((account first past q).record q _).opener = _
    simp only [Account.record]
    split <;> rfl
  refine ⟨h.pages, fun u q x hx => ?_, fun u q hu hn => ?_⟩
  · obtain ⟨hopen, hbefore, hafter⟩ := h.last u q x hx
    refine ⟨?_, hbefore, fun hn => hafter fun hu => hn (Or.inr hu)⟩
    rw [ho]
    split
    · rename_i e
      subst e
      rcases hlaw with hn | hs
      · rw [hn] at hopen
        cases hopen
      · exact hs.symm.trans hopen
    · exact hopen
  · rw [ho] at hu
    split at hu
    · rename_i e
      exact absurd (Or.inl ⟨Option.some.inj hu, e⟩) hn
    · exact h.logged u q hu fun hun => hn (Or.inr hun)

theorem changed (h : Redone first past) (t : TxnId) (page : PageId) (bytes : Bytes) :
    Redone first (.changed t page bytes :: past) := by
  have ho : ∀ q, (account first (.changed t page bytes :: past) q).opener = (account first past q).opener := by
    intro q
    show ((account first past q).record q _).opener = _
    simp only [Account.record]
    split <;> rfl
  refine ⟨h.pages, fun u q x hx => ?_, fun u q hu hn => ?_⟩
  · obtain ⟨hopen, hbefore, hafter⟩ := h.last u q x hx
    refine ⟨(ho q).trans hopen, hbefore, fun hn => ?_⟩
    refine (hafter fun hu => hn (Or.inr hu)).trans ?_
    show _ = Option.getD (if u = t ∧ q = page then some bytes else _) _
    rw [if_neg fun e => hn (Or.inl ⟨e.1.symm, e.2.symm⟩)]
    rfl
  · rw [ho] at hu
    exact h.logged u q hu fun hun => hn (Or.inr hun)

theorem update (h : Redone first past) (hin : Inside past) {before after : Bytes}
    (hlaw : Effect.Lawful first past (.logged (.update t page before after))) :
    Redone first (.logged (.update t page before after) :: past) := by
  obtain ⟨hopen, hbefore, hafter⟩ := hlaw
  have hlast : ∀ u q, (redo first (recorded (.logged (.update t page before after) :: past))).last u q =
      if u = t ∧ q = page then some (before, after) else (redo first (recorded past)).last u q := by
    intro u q
    rw [recorded, redo_snoc]
    rfl
  have hunlogged : ∀ u q, Unlogged u q (.logged (.update t page before after) :: past) ↔
      ¬(u = t ∧ q = page) ∧ Unlogged u q past := by
    intro u q
    show ¬(t = u ∧ page = q) ∧ _ ↔ _
    rw [eq_comm, eq_comm (a := page)]
  refine ⟨?_, fun u q x hx => ?_, fun u q hu hn => ?_⟩
  · rw [recorded, redo_snoc]
    exact h.pages
  · rw [hlast] at hx
    split at hx
    · rename_i e
      obtain ⟨rfl, rfl⟩ := e
      cases hx
      refine ⟨hopen, hbefore.trans (account_of_contents first hin _).1, fun _ => ?_⟩
      exact hafter.trans (view_of_contents hin _ _)
    · rename_i e
      obtain ⟨hu, hb, ha⟩ := h.last u q x hx
      exact ⟨hu, hb, fun hn => ha fun hun => hn ((hunlogged u q).2 ⟨e, hun⟩)⟩
  · rw [hlast]
    split
    · exact Option.some_ne_none _
    · rename_i e
      exact h.logged u q hu fun hun => hn ((hunlogged u q).2 ⟨e, hun⟩)

/-- What the cache does with files is nothing to the log. -/
theorem quiet (h : Redone first past) {e : Effect} (hrec : recorded (e :: past) = recorded past)
    (hcontents : contents first (e :: past) = contents first past)
    (hopener : ∀ q, (account first (e :: past) q).opener = (account first past q).opener)
    (hunlogged : ∀ u q, Unlogged u q (e :: past) ↔ Unlogged u q past) : Redone first (e :: past) := by
  refine ⟨?_, fun u q x hx => ?_, fun u q hu hn => ?_⟩
  · rw [hrec, hcontents]
    exact h.pages
  · rw [hrec] at hx
    rw [hopener, hcontents, hunlogged]
    exact h.last u q x hx
  · rw [hrec]
    rw [hopener] at hu
    rw [hunlogged] at hn
    exact h.logged u q hu hn

/-- Each event of the work of a transaction keeps the log up to date. -/
theorem work {actor : Option TxnId} (h : Redone first past) (hin : Inside past) {e : Effect}
    (hlaw : e.Lawful first past) (he : e.By actor) : Redone first (e :: past) := by
  cases e with
  | opened t p => exact h.opened hlaw
  | changed t p bytes => exact h.changed t p bytes
  | logged r =>
    cases r with
    | update t p before after => exact h.update hin hlaw
    | commit t => exact he.elim
    | abort t => exact he.elim
  | saw t p bytes => exact h.quiet rfl rfl (fun _ => rfl) fun _ _ => Iff.rfl
  | forced => exact h.quiet rfl rfl (fun _ => rfl) fun _ _ => Iff.rfl
  | loaded p =>
    refine h.quiet rfl rfl (fun q => ?_) fun _ _ => Iff.rfl
    show ((account first past q).record q _).opener = _
    simp only [Account.record]
    split
    · exact Account.opener_load _
    · rfl
  | wrote p bytes =>
    refine h.quiet rfl rfl (fun q => ?_) fun _ _ => Iff.rfl
    show ((account first past q).record q _).opener = _
    simp only [Account.record]
    split <;> rfl
  | _ => exact he.elim

theorem grown {actor : Option TxnId} (h : Redone first past) (hl : Lawful first now) (hin : Inside now)
    (hg : Grown (Effect.By actor) past now) : Redone first now := by
  obtain ⟨more, rfl, hm⟩ := hg
  induction more with
  | nil => exact h
  | cons e more ih =>
    have hmore := ih (fun e' he' => hm e' (List.mem_cons_of_mem _ he')) hl.2 hin.of_cons
    exact hmore.work hin.of_cons hl.1 (hm e (List.mem_cons_self ..))

end Redone

/-! ## Ends of transactions -/

/-- What a trace says more once a transaction has ended that had logged its changes before. -/
structure Ended (t : TxnId) (commits : Bool) (past now : List Effect) : Prop where
  recorded : recorded now = recorded past ++ [endRecord t commits]
  contents : ∀ first, contents first now = (contents first past).complete t commits
  opener : ∀ first page, (account first now page).opener =
    if (account first past page).opener = some t then none else (account first past page).opener
  unlogged : ∀ u page, Unlogged u page now ↔ u ≠ t ∧ Unlogged u page past

theorem recorded_of_grown {P : Effect → Prop} (h : Grown P past now) (hP : ∀ r, ¬P (.logged r)) :
    recorded now = recorded past := by
  obtain ⟨more, rfl, hm⟩ := h
  induction more with
  | nil => rfl
  | cons e more ih =>
    have ih := ih fun e' he' => hm e' (List.mem_cons_of_mem _ he')
    have he := hm e (List.mem_cons_self ..)
    cases e with
    | logged r => exact absurd he (hP r)
    | _ => exact ih

theorem unlogged_of_grown {P : Effect → Prop} (h : Grown P past now)
    (hP : ∀ e past, P e → (Unlogged u page (e :: past) ↔ Unlogged u page past)) :
    Unlogged u page now ↔ Unlogged u page past := by
  obtain ⟨more, rfl, hm⟩ := h
  induction more with
  | nil => exact Iff.rfl
  | cons e more ih =>
    refine (hP e _ (hm e (List.mem_cons_self ..))).trans (ih fun e' he' => hm e' (List.mem_cons_of_mem _ he'))

theorem unlogged_of_writes {e : Effect} (he : e.Writes) : Unlogged u page (e :: past) ↔ Unlogged u page past := by
  cases e with
  | wrote _ _ => exact Iff.rfl
  | _ => exact he.elim

/-- Changes undone and pages written, then the end in the log, and pages written again. -/
theorem Ended.of_closes (hmid : Grown (Effect.Closes t false) past mid) {writes : List Effect}
    (hw : ∀ e ∈ writes, e.Writes) :
    Ended t commits past (.unlocked t :: .completed t commits ::
      (writes ++ .forced :: .logged (endRecord t commits) :: mid)) := by
  have hclosed : ∀ e, Effect.Closes t false e → ∀ r, e ≠ .logged r := by
    rintro e (he | rfl) r
    · rintro rfl
      exact he
    · exact nofun
  have hgrown : Grown Effect.Writes (.forced :: .logged (endRecord t commits) :: mid)
      (writes ++ .forced :: .logged (endRecord t commits) :: mid) := ⟨writes, rfl, hw⟩
  have htrails : Trails past (writes ++ .forced :: .logged (endRecord t commits) :: mid) :=
    ((hmid.mono fun _ he => he.internal).cons (.logged _) trivial |>.cons .forced trivial).trans
      (hgrown.mono fun _ he => he.internal)
  refine ⟨?_, fun first => ?_, fun first page => ?_, fun u page => ?_⟩
  · show TupleStore.recorded (writes ++ _) = _
    rw [recorded_of_grown hgrown fun _ => id]
    show TupleStore.recorded mid ++ _ = _
    rw [recorded_of_grown hmid fun r hr => hclosed _ hr r rfl]
  · rw [← htrails.contents_eq]
    rfl
  · obtain ⟨o, ho⟩ := htrails.account_eq first page
    show ((account first (writes ++ _) page).complete t commits).opener = _
    rw [ho]
    rfl
  · show t ≠ u ∧ Unlogged u page (writes ++ _) ↔ _
    rw [ne_comm]
    refine and_congr_right fun hu => ?_
    rw [unlogged_of_grown hgrown fun _ _ => unlogged_of_writes]
    have hend : Unlogged u page (.forced :: .logged (endRecord t commits) :: mid) ↔ Unlogged u page mid := by
      cases commits <;> exact Iff.rfl
    rw [hend]
    refine unlogged_of_grown hmid fun e past he => ?_
    rcases he with he | rfl
    · exact unlogged_of_writes he
    · exact and_iff_right hu.symm

/-- The end of a transaction, whose changes are all logged if it commits, keeps the log up to date. -/
theorem Redone.ended (h : Redone first past) (hl : Lawful first past) (hin : Inside past)
    (he : Ended t commits past now) (hlogged : commits = true → ∀ page, ¬Unlogged t page past) :
    Redone first now := by
  have hrec : redo first (recorded now) = (redo first (recorded past)).record (endRecord t commits) := by
    rw [he.recorded, redo_snoc]
  have hlast : ∀ u q, (redo first (recorded now)).last u q =
      if u = t then none else (redo first (recorded past)).last u q := by
    intro u q
    rw [hrec, ← Redo.last_clear]
    cases commits <;> rfl
  have hcommitted : ∀ q, (account first past q).opener ≠ some t →
      (contents first now).committed q = (contents first past).committed q := by
    intro q ho
    rw [he.contents]
    cases commits with
    | true => exact hl.view_eq_committed hin ho
    | false => rfl
  refine ⟨?_, fun u q x hx => ?_, fun u q hu hn => ?_⟩
  · rw [hrec, he.contents]
    cases commits with
    | false => exact h.pages
    | true =>
      funext q
      show (((redo first (recorded past)).last t q).map Prod.snd).getD ((redo first (recorded past)).pages q) =
        (contents first past).view t q
      cases hq : (redo first (recorded past)).last t q with
      | some x => exact (h.last t q x hq).2.2 (hlogged rfl q)
      | none =>
        -- a page that the transaction has open would be waiting
        rw [hl.view_eq_committed hin fun ho => h.logged t q ho (hlogged rfl q) hq, h.pages]
        rfl
  · rw [hlast] at hx
    split at hx
    · cases hx
    · rename_i hu
      obtain ⟨hopen, hbefore, hafter⟩ := h.last u q x hx
      have hne : (account first past q).opener ≠ some t := fun e => hu (Option.some.inj (hopen.symm.trans e))
      refine ⟨?_, hbefore.trans (hcommitted q hne).symm, fun hn => ?_⟩
      · rw [he.opener, if_neg hne]
        exact hopen
      · have hview : (contents first now).view u q = (contents first past).view u q := by
          rw [Contents.view, hcommitted q hne, he.contents]
          exact congrArg (fun own : PageId → Option Bytes => (own q).getD _) (if_neg hu)
        rw [hview]
        exact hafter fun hun => hn ((he.unlogged u q).2 ⟨hu, hun⟩)
  · rw [he.opener] at hu
    split at hu
    · cases hu
    · rename_i hne
      have hut : u ≠ t := fun e => hne (e ▸ hu)
      rw [hlast, if_neg hut]
      exact h.logged u q hu fun hun => hn ((he.unlogged u q).2 ⟨hut, hun⟩)

/-! ## Commits in the log -/

/-- Whenever a commit was logged, the log was up to date. -/
def Ripe (first : PageId → Bytes) : List Effect → Prop
  | [] => True
  | .logged (.commit _) :: past => Redone first past ∧ Ripe first past
  | _ :: past => Ripe first past

namespace Ripe

theorem of_append {later : List Effect} (h : Ripe first (later ++ .logged (.commit t) :: past)) :
    Redone first past := by
  induction later with
  | nil => exact h.1
  | cons e later ih =>
    refine ih ?_
    cases e with
    | logged r =>
      cases r with
      | commit u => exact h.2
      | _ => exact h
    | _ => exact h

theorem grown {P : Effect → Prop} (h : Ripe first past) (hg : Grown P past now) (hP : ∀ t, ¬P (.logged (.commit t))) :
    Ripe first now := by
  obtain ⟨more, rfl, hm⟩ := hg
  induction more with
  | nil => exact h
  | cons e more ih =>
    have ih := ih fun e' he' => hm e' (List.mem_cons_of_mem _ he')
    have he := hm e (List.mem_cons_self ..)
    cases e with
    | logged r =>
      cases r with
      | commit u => exact absurd he (hP u)
      | _ => exact ih
    | _ => exact ih

end Ripe

/-- A record of the log was put there at some moment. -/
theorem eq_append_of_recorded {records rest : List LogRecord} {r : LogRecord}
    (h : recorded trace = records ++ r :: rest) :
    ∃ later past, trace = later ++ .logged r :: past ∧ recorded past = records := by
  induction trace generalizing rest with
  | nil => exact absurd h.symm (by simp [recorded])
  | cons e past ih =>
    have hpast : ∀ rest, recorded past = records ++ r :: rest →
        ∃ later past', e :: past = later ++ .logged r :: past' ∧ recorded past' = records := by
      intro rest hrest
      obtain ⟨later, past', rfl, hp⟩ := ih hrest
      exact ⟨e :: later, past', rfl, hp⟩
    cases e with
    | logged r' =>
      rcases List.eq_nil_or_concat rest with rfl | ⟨rest', r'', rfl⟩
      · obtain ⟨hrecords, hr⟩ := List.append_inj' h rfl
        cases hr
        exact ⟨[], past, rfl, hrecords⟩
      · have hsplit : recorded past ++ [r'] = (records ++ r :: rest') ++ [r''] := by
          rw [List.append_assoc, List.cons_append]
          simpa [recorded] using h
        exact hpast rest' (List.append_inj' hsplit rfl).1
    | _ => exact hpast rest h

end TupleStore
