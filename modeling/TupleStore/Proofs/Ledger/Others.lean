import TupleStore.Proofs.Ledger.Contents

/-!
# Events of others

What a trace says of the end of a transaction stays true whatever others do meanwhile: they neither see nor change
its pages for it, and do not give up its locks.

* `Effect.Spares` : an event in which a transaction has no part;
* `LoggedSince` : a record is in the log, and the transaction has kept its locks since;
* `LoggedSince.spared`, `ForcedSince.spared`, `Undone.spared`, `Touched.spared` : what stays.
-/

namespace TupleStore

set_option autoImplicit false

/-- An event in which a transaction has no part: it is not the transaction that sees, opens or changes a page, nor
does it give up its locks. -/
def Effect.Spares (t : TxnId) : Effect → Prop
  | .saw u _ _ => u ≠ t
  | .opened u _ => u ≠ t
  | .changed u _ _ => u ≠ t
  | .unlocked u => u ≠ t
  | _ => True

/-- A record is in the log, and a transaction has kept its locks since. -/
def LoggedSince (t : TxnId) (r : LogRecord) (past : List Effect) : Prop :=
  ∃ later earlier, past = later ++ .logged r :: earlier ∧ .unlocked t ∉ later

variable {past now : List Effect} {t : TxnId} {r : LogRecord} {page : PageId} {e : Effect}

/-- The work of another transaction. -/
theorem Effect.By.spares {actor : Option TxnId} (h : e.By actor) (ht : actor ≠ some t) : e.Spares t := by
  cases e with
  | saw u _ _ => exact fun hu => ht (h.trans (congrArg some hu))
  | opened u _ => exact fun hu => ht (h.trans (congrArg some hu))
  | changed u _ _ => exact fun hu => ht (h.trans (congrArg some hu))
  | unlocked _ => exact h.elim
  | _ => trivial

theorem Effect.Internal.spares (h : e.Internal) (t : TxnId) : e.Spares t := by
  cases e with
  | saw _ _ _ => exact h.elim
  | opened _ _ => exact h.elim
  | changed _ _ _ => exact h.elim
  | unlocked _ => exact h.elim
  | _ => trivial

/-- What no event of others changes stays so when a trace grows by such events. -/
theorem Grown.spared {P : List Effect → Prop} (hg : Grown (Effect.Spares t) past now) (h : P past)
    (hP : ∀ e past, e.Spares t → P past → P (e :: past)) : P now := by
  obtain ⟨more, rfl, hm⟩ := hg
  induction more with
  | nil => exact h
  | cons e more ih =>
    exact hP e _ (hm e (List.mem_cons_self ..)) (ih fun e' he' => hm e' (List.mem_cons_of_mem _ he'))

theorem Effect.Spares.ne_unlocked (h : e.Spares t) : e ≠ .unlocked t := by
  rintro rfl
  exact h rfl

theorem ForcedSince.spared (h : ForcedSince t r past) (hg : Grown (Effect.Spares t) past now) : ForcedSince t r now :=
  hg.spared h fun _ _ he h' => h'.cons he.ne_unlocked

theorem LoggedSince.spared (h : LoggedSince t r past) (hg : Grown (Effect.Spares t) past now) : LoggedSince t r now :=
  hg.spared h fun e _ he ⟨later, earlier, hp, hout⟩ =>
    ⟨e :: later, earlier, congrArg (e :: ·) hp, fun hu => (List.mem_cons.1 hu).elim (he.ne_unlocked ·.symm) hout⟩

/-- The log is forced. -/
theorem LoggedSince.force (h : LoggedSince t r past) : ForcedSince t r (.forced :: past) := by
  obtain ⟨later, earlier, rfl, hout⟩ := h
  refine ⟨.forced :: later, earlier, rfl, List.mem_cons_self .., fun hu => ?_⟩
  rcases List.mem_cons.1 hu with hu | hu
  · cases hu
  · exact hout hu

theorem Undone.spared (h : Undone t past) (hg : Grown (Effect.Spares t) past now) : Undone t now :=
  hg.spared h fun e past he h' => by
    obtain ⟨⟨later, earlier, hp, hout⟩, hlogged⟩ := h'
    refine ⟨⟨e :: later, earlier, congrArg (e :: ·) hp, fun hu => ?_⟩, fun page hu => ?_⟩
    · exact (List.mem_cons.1 hu).elim (he.ne_unlocked ·.symm) hout
    · refine hlogged page ?_
      cases e with
      | opened u p => exact hu.resolve_left fun hu => he hu.1
      | changed u p _ => exact hu.resolve_left fun hu => he hu.1
      | logged r =>
        cases r with
        | update _ _ _ _ => exact hu.2
        | _ => exact hu
      | undoing _ => exact hu.2
      | completed _ _ => exact hu.2
      | _ => exact hu

/-- A transaction that has touched nothing since it began has not when only others have acted. -/
theorem Touched.spared (h : ¬Touched t page past) (hg : Grown (Effect.Spares t) past now) : ¬Touched t page now :=
  hg.spared (P := fun past => ¬Touched t page past) h fun e past he h' ht => by
    refine h' ?_
    cases e with
    | saw u p _ => exact ht.resolve_left fun hu => he hu.1
    | changed u p _ => exact ht.resolve_left fun hu => he hu.1
    | completed _ _ => exact ht.2
    | _ => exact ht

end TupleStore
