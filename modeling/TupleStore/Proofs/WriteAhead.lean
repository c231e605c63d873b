import TupleStore.Proofs.Crowds

/-!
# The log is ahead of the files

The cache writes a page to its file only when the log can undo the write or will redo it: the change is in the
forced log with what the page was before, or the commit is, or the write is itself the undoing of a change. And
no transaction gives its locks up before the record of its end is in the forced log: it has all of them while it
commits or is rolled back, and nothing else takes them away.

`Crowd.WritesAhead` says this of all events so far, and of whatever happens next. Transactions end in steps, with
others at work in between, and pages may be written past the cache. It holds after every run in which no flush
overtakes a commit (`Crowd.run_writesAhead`).

A flush can overtake a commit. The commit takes the before-image of a page when it has logged the change, and forces
the log later; a flush in between finds no before-image, and writes the page without a force
(`Crowd.run_writesAhead_overtaken`).
-/

namespace TupleStore

set_option autoImplicit false

open TupleStore.Action

namespace Crowd

/-- Something that happens can be the last that is done for the end of a transaction. -/
def CanEnd (c : Crowd) (t : TxnId) : Move → Prop
  | .op (.complete u _) => u = t
  | .step i => ∃ e, c.endings[i]? = some e ∧ e.txn = t
  | _ => False

/-- The log was ahead of the files whenever the cache wrote a page, and is so when a transaction ends. -/
structure WritesAhead (first : PageId → Bytes) (c : Crowd) : Prop where
  wrote : ∀ later past page bytes, c.store.trace = later ++ .wrote page bytes :: past →
    MayWrite first past page bytes
  unlocked : ∀ later past t, c.store.trace = later ++ .unlocked t :: past →
    ForcedSince t (.commit t) past ∨ ForcedSince t (.abort t) past
  /-- No lock is lost or weakened but by the end of its transaction, which then gives up all of them. -/
  kept : ∀ (move : Move) t page m, c.store.pool.locks.mode? t page = some m →
    (∃ m', (c.apply move).store.pool.locks.mode? t page = some m' ∧ m'.covers m = true) ∨
      c.CanEnd t move ∧ ∃ past, (c.apply move).store.trace = .unlocked t :: past
  /-- A transaction begins to commit when that is wanted, unless it is doomed, and else to be rolled back. -/
  begun : ∀ t wantsCommit, c.uses? t = false → c.isEnding t = false →
    (Ending.start t wantsCommit).Ends c.store
      (fun e _ => e.txn = t ∧ e.commits = (wantsCommit && !c.store.pool.isDoomed t) ∧
        e.refused = (wantsCommit && c.store.pool.isDoomed t)) fun _ _ => False
  /-- Step by step it goes on with its locks, which it gives up with the last step, when the record of its end is in
  the forced log. It fails only then, and only if a commit was wanted. -/
  ended : ∀ e ∈ c.endings, e.step.Ends c.store
    (fun p s => match p with
      | .finished _ => e.Ended c.store s
      | .moved e' => e.Follows e' ∧ s.pool.locks = c.store.pool.locks
      | .blocked e' => e' = e ∧ s = c.store)
    fun err s => e.Ended c.store s ∧ err = .deadlock e.txn ∧ e.refused = true ∧ e.commits = false
  /-- It is the same where nobody comes in between. -/
  completed : ∀ t wantsCommit, c.uses? t = false → c.isEnding t = false →
    (Action.complete t wantsCommit).Ends c.store (fun _ s => Finished t wantsCommit c.store s)
      fun err s => err = .deadlock t ∧ wantsCommit = true ∧ Finished t false c.store s

variable {s₀ : Store} {c : Crowd} {t : TxnId} {page : PageId} {m : LockMode}

/-- The locks once something has happened: none is lost, or a transaction has ended and given up all of its own. -/
inductive LeavesLocks (c : Crowd) (move : Move) (s : Store) : Prop where
  | kept (h : c.store.pool.locks.Keeps s.pool.locks)
  | ended (t : TxnId) (h : c.CanEnd t move) (locks : s.pool.locks = c.store.pool.locks.releaseAll t)
      (trace : ∃ past, s.trace = .unlocked t :: past)

namespace Stands

theorem leavesLocks_op (h : c.Stands s₀) (op : Op) : c.LeavesLocks (.op op) (c.apply (.op op)).store := by
  simp only [Crowd.apply]
  split
  · exact .kept (.refl _)
  · rename_i hactor
    by_cases ho : op.Ongoing
    · exact .kept (World.keeps_apply c.toWorld ho)
    · cases op with
      | complete u wantsCommit =>
        simp only [World.apply]
        split
        · exact .kept (.refl _)
        · rename_i hu
          have hends : ∀ {commits : Bool} {s : Store}, Finishes u commits c.store s →
              c.LeavesLocks (.op (.complete u wantsCommit)) s := fun hs => by
            obtain ⟨past, htrace, -⟩ := hs.trace
            exact .ended u rfl hs.locks ⟨_, htrace⟩
          have hend := h.finishes (Bool.eq_false_iff.2 hu) (Bool.eq_false_iff.2 hactor) wantsCommit
          exact World.of_perform (P := fun w => c.LeavesLocks (.op (.complete u wantsCommit)) w.store)
            (hend.mono (fun _ _ hs => hends hs) fun _ _ hs => hends hs.2.2)
      | _ => exact absurd trivial ho

theorem leavesLocks_finish (h : c.Stands s₀) (u : TxnId) (wantsCommit : Bool) :
    c.LeavesLocks (.finish u wantsCommit) (c.finish u wantsCommit).store := by
  refine of_finish (P := fun c' => c.LeavesLocks (.finish u wantsCommit) c'.store) (.kept (.refl _)) fun hu hne => ?_
  refine (h.store.start (World.away_of_uses? s₀ hu) (txn_ne_of_not_isEnding hne) wantsCommit).mono
    (fun _ s hs => ?_) fun _ _ hs => hs.elim
  obtain ⟨-, -, -, -, -, haside⟩ := hs
  exact .kept (haside.locks ▸ .refl _)

theorem leavesLocks_step (h : c.Stands s₀) (i : Nat) : c.LeavesLocks (.step i) (c.step i).store := by
  refine of_step (P := fun c' => c.LeavesLocks (.step i) c'.store) (.kept (.refl _)) fun e hi => ?_
  have hended : ∀ {s : Store}, e.Ended c.store s → c.LeavesLocks (.step i) s := fun hend =>
    .ended e.txn ⟨e, hi, rfl⟩ hend.locks ⟨_, hend.trace⟩
  refine (h.ends_step hi).mono (fun p s hs => ?_) fun _ _ hs => hended hs.ended
  cases p with
  | finished _ => exact hended hs.2
  | moved e' =>
    obtain ⟨-, -, -, haside⟩ := hs
    exact .kept (haside.locks ▸ .refl _)
  | blocked e' => exact .kept (hs.2 ▸ .refl _)

theorem leavesLocks_apply (h : c.Stands s₀) (move : Move) : c.LeavesLocks move (c.apply move).store := by
  cases move with
  | op op => exact h.leavesLocks_op op
  | finish u wantsCommit => exact h.leavesLocks_finish u wantsCommit
  | step i => exact h.leavesLocks_step i

theorem keepsLock (h : c.Stands s₀) (move : Move) (hm : c.store.pool.locks.mode? t page = some m) :
    (∃ m', (c.apply move).store.pool.locks.mode? t page = some m' ∧ m'.covers m = true) ∨
      c.CanEnd t move ∧ ∃ past, (c.apply move).store.trace = .unlocked t :: past := by
  cases h.leavesLocks_apply move with
  | kept hkeeps => exact Or.inl (hkeeps t page m hm)
  | ended u hend hlocks htrace =>
    by_cases hu : t = u
    · exact Or.inr ⟨hu ▸ hend, hu ▸ htrace⟩
    · refine Or.inl ⟨m, ?_, m.covers_self⟩
      rw [hlocks, LockTable.mode?_releaseAll h.store.locks, if_neg hu]
      exact hm

theorem writesAhead (h : c.Stands s₀) : c.WritesAhead s₀.onFile where
  wrote _ _ page bytes htrace := (Lawful.of_append (e := .wrote page bytes) (htrace ▸ h.store.lawful) :)
  unlocked _ _ t htrace := (Lawful.of_append (e := .unlocked t) (htrace ▸ h.store.lawful) :)
  kept move _ _ _ hm := h.keepsLock move hm
  begun t wantsCommit hu hne := (h.store.start (World.away_of_uses? s₀ hu) (txn_ne_of_not_isEnding hne) wantsCommit).mono
    (fun _ _ hs => ⟨hs.1, hs.2.1, hs.2.2.1⟩) fun _ _ hs => hs
  ended e he := by
    obtain ⟨i, hi⟩ := List.mem_iff_getElem?.1 he
    refine (h.ends_step hi).mono (fun p s hs => ?_) fun _ _ hs => ⟨hs.ended, hs.deadlock, hs.refused, hs.aborts⟩
    cases p with
    | finished _ => exact hs.2
    | moved e' => exact ⟨hs.2.1, hs.2.2.2.locks⟩
    | blocked e' => exact hs
  completed t wantsCommit hu hne := (h.finishes hu hne wantsCommit).mono (fun _ _ hs => hs.finished)
    fun _ _ hs => ⟨hs.1, hs.2.1, hs.2.2.finished⟩

end Stands

/-- After every run on a store that has just been opened in which no flush overtakes a commit, the log is ahead of
the files. -/
theorem run_writesAhead (o : Opening s₀) (moves : List Move) (hmoves : heeds moves { store := s₀ } = true) :
    (run moves { store := s₀ }).WritesAhead s₀.onFile :=
  (stands_run o moves hmoves).writesAhead

/-- A page is driven out of the only frame with changes. It is changed again, and its transaction commits. Once the
log is forced, a flush writes the page before the commit does. -/
def flushing : List Move :=
  ((Op.stealing true).take 11).map .op ++
    [.op (.ask ⟨1⟩ (.ofT 0) .write), .op (.advance 0), .op (.advance 0), .op (.advance 0), .op (.patch 0 1 [98]),
      .op (.drop 0), .finish ⟨1⟩ true, .step 0, .step 0, .step 0, .op (.flushPage (.ofT 0)), .op (.advance 0),
      .op (.advance 0), .step 0, .step 0, .step 0, .step 0]

theorem run_writesAhead_flushing :
    Opening .narrow ∧ heeds flushing { store := .narrow } = true ∧
      .wrote (.ofT 0) [99, 1, 2, 3, 4, 5, 6, 7] ∈ (run flushing { store := .narrow }).store.trace ∧
      .wrote (.ofT 0) [99, 98, 2, 3, 4, 5, 6, 7] ∈ (run flushing { store := .narrow }).store.trace ∧
      .unlocked ⟨1⟩ ∈ (run flushing { store := .narrow }).store.trace ∧
      (run flushing { store := .narrow }).WritesAhead Store.narrow.onFile :=
  ⟨Opening.narrow, by decide +kernel, by decide +kernel, by decide +kernel, by decide +kernel,
    run_writesAhead Opening.narrow flushing (by decide +kernel)⟩

end Crowd

/-! ## A flush inside a commit -/

/-- Without a force nothing but what a rollback gives back may be written. -/
theorem MayWrite.restores {first : PageId → Bytes} {past : List Effect} {page : PageId} {bytes : Bytes}
    (h : MayWrite first past page bytes) (hforced : .forced ∉ past) : bytes = (account first past page).committed := by
  have hnone : ∀ {t : TxnId} {r : LogRecord}, ¬ForcedSince t r past := by
    rintro t r ⟨later, earlier, rfl, hin, -⟩
    exact hforced (List.mem_append_left _ hin)
  cases h with
  | uncommitted _ _ _ hl => exact absurd hl hnone
  | committed _ _ _ hl => exact absurd hl hnone
  | restored _ _ hb _ => exact hb

namespace Crowd

/-- A transaction changes a page and begins to commit. Once it has logged the change, the page is flushed. -/
def overtaking : List Move :=
  [.op (.ask ⟨1⟩ (.ofT 0) .write), .op (.advance 0), .op (.advance 0), .op (.advance 0), .op (.patch 0 0 [99]),
    .op (.drop 0), .finish ⟨1⟩ true, .step 0, .op (.flushPage (.ofT 0)), .op (.advance 0)]

/-- The flush writes the change before anything has been forced. -/
theorem run_writesAhead_overtaken :
    ∃ past, (run overtaking { store := .narrow }).store.trace = .wrote (.ofT 0) [99, 1, 2, 3, 4, 5, 6, 7] :: past ∧
      .forced ∉ past ∧ ¬MayWrite Store.narrow.onFile past (.ofT 0) [99, 1, 2, 3, 4, 5, 6, 7] := by
  have htrace : (run overtaking { store := .narrow }).store.trace =
      .wrote (.ofT 0) [99, 1, 2, 3, 4, 5, 6, 7] :: (run overtaking { store := .narrow }).store.trace.tail := by
    decide +kernel
  have hforced : .forced ∉ (run overtaking { store := .narrow }).store.trace.tail := by decide +kernel
  have hcommitted : (account Store.narrow.onFile (run overtaking { store := .narrow }).store.trace.tail
      (.ofT 0)).committed = [0, 1, 2, 3, 4, 5, 6, 7] := by decide +kernel
  obtain ⟨w, hw⟩ : ∃ w, w = run overtaking { store := .narrow } := ⟨_, rfl⟩
  rw [← hw] at htrace hforced hcommitted ⊢
  refine ⟨w.store.trace.tail, htrace, hforced, fun h => ?_⟩
  have hbytes := h.restores hforced
  rw [hcommitted] at hbytes
  exact absurd hbytes (by decide)

end Crowd

end TupleStore
