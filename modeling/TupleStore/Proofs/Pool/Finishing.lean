import TupleStore.Proofs.Ledger.Others
import TupleStore.Proofs.Pool.Flushing

/-!
# Ends of transactions, step by step

A transaction ends in steps while others are at work. What it has put into the log, or has begun to undo, the trace
says at each stage, and this stays so whatever others do.

* `Ending.Told` : what the trace says of the end of a transaction at each stage;
* `Standing.start`, `Standing.step` : the invariant is kept when a transaction begins to end, and by each step. It
  fails only by the refusal of a commit, when it is all over;
* `Flush.overtakes` : a flush writes a page before a commit has forced its change of it. A flush that does not may go
  on beside transactions that end (`Standing.mayGoOn`).
-/

namespace TupleStore

set_option autoImplicit false

open TupleStore.Action

/-! ## What the trace says -/

/-- What the trace says of a transaction that ends. -/
def Ending.Told (e : Ending) (past : List Effect) : Prop :=
  match e.stage with
  | .logging _ => True
  | .restoring _ => Undone e.txn past
  | .collecting => Undone e.txn past
  | .returning _ => Undone e.txn past
  | .forcing => LoggedSince e.txn (endRecord e.txn e.commits) past
  | .writing _ => ForcedSince e.txn (endRecord e.txn e.commits) past
  | .settling => ForcedSince e.txn (endRecord e.txn e.commits) past
  | .unlocking => ForcedSince e.txn (endRecord e.txn e.commits) past ∧ ∀ page, ¬Touched e.txn page past

variable {s₀ s : Store} {uses : List Use} {f : FrameId} {page : PageId} {t : TxnId} {e : Ending} {others : List Ending}
  {past now : List Effect} {x : Copies} {a : Account} {c : Copy}

/-- What others do makes nothing of it untrue. -/
theorem Ending.Told.spared (h : e.Told past) (hg : Grown (Effect.Spares e.txn) past now) : e.Told now := by
  obtain ⟨txn, commits, refused, pinned, stage⟩ := e
  cases stage with
  | logging _ => trivial
  | restoring _ => exact Undone.spared h hg
  | collecting => exact Undone.spared h hg
  | returning _ => exact Undone.spared h hg
  | forcing => exact LoggedSince.spared h hg
  | writing _ => exact ForcedSince.spared h hg
  | settling => exact ForcedSince.spared h hg
  | unlocking => exact ⟨ForcedSince.spared h.1 hg, fun page => Touched.spared (h.2 page) hg⟩

/-- A step of the end of a transaction: others find in it nothing that they have a part in, and no lock is gone. -/
structure Aside (t : TxnId) (s s' : Store) : Prop where
  trace : ∀ u, u ≠ t → Grown (Effect.Spares u) s.trace s'.trace
  locks : s'.pool.locks = s.pool.locks

theorem Onward.aside {K : Effect → Prop} {s s' : Store} (h : Onward K s s') (t : TxnId) (hK : ∀ e, K e → e.Internal) :
    Aside t s s' :=
  ⟨fun u _ => h.trace.mono fun e he => (hK e he).spares u, h.locks⟩

theorem Aside.note {s s' : Store} {x : Effect} (htrace : s'.trace = x :: s.trace) (hx : ∀ u, u ≠ t → x.Spares u)
    (hlocks : s'.pool.locks = s.pool.locks) : Aside t s s' :=
  ⟨fun u hu => htrace ▸ (Grown.refl _).cons x (hx u hu), hlocks⟩

theorem Aside.quiet {s s' : Store} (htrace : s'.trace = s.trace) (hlocks : s'.pool.locks = s.pool.locks) :
    Aside t s s' :=
  ⟨fun _ _ => htrace ▸ .refl _, hlocks⟩

/-- How a transaction has ended: the record of its end is in the forced log, and all its locks are given up after
that. -/
structure Ending.Ended (e : Ending) (s s' : Store) : Prop where
  forced : ForcedSince e.txn (endRecord e.txn e.commits) s.trace
  trace : s'.trace = .unlocked e.txn :: s.trace
  locks : s'.pool.locks = s.pool.locks.releaseAll e.txn

/-- An end without pins at another stage. -/
theorem Ending.goto_eq_letGo (e : Ending) (stage : EndingStage) (h : e.pinned = []) : e.goto stage = e.letGo stage := by
  rw [Ending.letGo, ← h]
  rfl

/-- An end of a transaction at another stage. -/
structure Ending.Follows (e e' : Ending) : Prop where
  txn : e'.txn = e.txn
  commits : e'.commits = e.commits
  refused : e'.refused = e.refused

namespace Standing

/-- A transaction that has nothing in use begins to end. -/
theorem start (h : Standing others s₀ uses s) (haway : ∀ u ∈ uses, ∀ m, u.holder ≠ some (t, m))
    (hne : ∀ o ∈ others, o.txn ≠ t) (wantsCommit : Bool) :
    (Ending.start t wantsCommit).Ends s
      (fun e s' => e.txn = t ∧ e.commits = (wantsCommit && !s.pool.isDoomed t) ∧
        e.refused = (wantsCommit && s.pool.isDoomed t) ∧ e.Told s'.trace ∧ Standing (e :: others) s₀ uses s' ∧
        Aside t s s')
      fun _ _ => False := by
  have hpardon : Standing others s₀ uses (s.modifyPool fun p => p.pardon t) :=
    h.same (h.toInvariant.congr rfl rfl rfl rfl rfl rfl rfl rfl) rfl
  unfold Ending.start
  rw [ends_bind, ends_get]
  dsimp only
  rw [ends_bind, ends_modifyPool]
  cases hc : wantsCommit && !s.pool.isDoomed t with
  | true =>
    obtain ⟨hwants, hdoomed⟩ := Bool.and_eq_true_iff.1 hc
    rw [if_pos rfl, ends_bind, ends_modifyPool, ends_pure]
    refine ⟨rfl, rfl, ?_, trivial, ?_, .quiet rfl (Pool.locks_pinAll _ _)⟩
    · rw [Bool.not_eq_true'] at hdoomed
      rw [hwants, hdoomed]
      rfl
    · exact hpardon.enlist (e := ⟨t, true, false, _, .logging _⟩) haway hne rfl ⟨rfl, fun _ hx => hx⟩ rfl
        fun _ _ _ ho hc => Or.inl ⟨ho, hc⟩
  | false =>
    have h₁ : Standing others s₀ uses
        { s.modifyPool fun p => p.pardon t with trace := .undoing t :: s.trace } :=
      hpardon.same (hpardon.toInvariant.note s.log trivial (fun _ _ ht => Or.inl ht) (fun _ hp => hp)
        fun _ _ hu => Or.inl hu.2) rfl
    rw [if_neg Bool.false_ne_true, ends_bind, ends_note, ends_bind, ends_modifyPool, ends_pure]
    refine ⟨rfl, rfl, ?_, ?_, ?_, .note rfl (fun _ _ => trivial) (Pool.locks_pinAll _ _)⟩
    · cases wantsCommit with
      | true =>
        rw [Bool.true_and, Bool.not_eq_false'] at hc
        rw [hc]
        rfl
      | false => rfl
    · exact ⟨⟨[], s.trace, rfl, List.not_mem_nil⟩, fun page hu => hu.1 rfl⟩
    · exact h₁.enlist (e := ⟨t, false, wantsCommit, _, .restoring _⟩) haway hne rfl ⟨rfl, fun _ hx => hx⟩ rfl
        fun _ _ _ ho hc => Or.inl ⟨ho, hc⟩

end Standing

/-! ## Steps -/

/-- What a step of the end of a transaction comes to, beside others. -/
def Ending.Goes (others : List Ending) (s₀ : Store) (uses : List Use) (e : Ending) (s : Store) :
    Progress Ending Unit → Store → Prop
  | .finished _, s' => Standing others s₀ uses s' ∧ e.Ended s s'
  | .moved e', s' => Standing (e' :: others) s₀ uses s' ∧ e.Follows e' ∧ e'.Told s'.trace ∧ Aside e.txn s s'
  | .blocked e', s' => e' = e ∧ s' = s

/-- How it fails: a commit is refused, when all is over. -/
structure Ending.Refused (others : List Ending) (s₀ : Store) (uses : List Use) (e : Ending) (s : Store) (err : Error)
    (s' : Store) : Prop where
  stands : Standing others s₀ uses s'
  ended : e.Ended s s'
  deadlock : err = .deadlock e.txn
  refused : e.refused = true
  aborts : e.commits = false

theorem Ending.follows_goto (e : Ending) (stage stage' : EndingStage) : (e.goto stage).Follows (e.goto stage') :=
  ⟨rfl, rfl, rfl⟩

theorem Ending.follows_letGo (e : Ending) (stage stage' : EndingStage) : (e.goto stage).Follows (e.letGo stage') :=
  ⟨rfl, rfl, rfl⟩

namespace Standing

theorem step_logging {rest : List (PageId × FrameId)} (h : Standing (e.goto (.logging rest) :: others) s₀ uses s) :
    (e.goto (.logging rest)).step.Ends s ((e.goto (.logging rest)).Goes others s₀ uses s)
      ((e.goto (.logging rest)).Refused others s₀ uses s) := by
  cases rest with
  | nil =>
    have hcommits : e.commits = true := (h.proper _ (List.mem_cons_self ..)).1
    have hrecord : endRecord e.txn e.commits = .commit e.txn := by rw [hcommits]; rfl
    refine ⟨h.logCommit, e.follows_goto .., ⟨[], s.trace, ?_, List.not_mem_nil⟩, .note rfl (fun _ _ => trivial) rfl⟩
    exact congrArg (fun r => Effect.logged r :: s.trace) hrecord.symm
  | cons x rest =>
    show (get >>= _ : Action _).Ends ..
    rw [ends_bind, ends_get]
    split
    · rw [ends_bind]
      exact h.logChange.mono
        (fun _ _ hs => ⟨hs.1, e.follows_goto .., trivial, hs.2.aside _ fun _ he => he.internal⟩) fun _ _ hs => hs.elim
    · exact ⟨rfl, rfl⟩

theorem step_restoring {rest : List (PageId × FrameId)} (h : Standing (e.goto (.restoring rest) :: others) s₀ uses s)
    (hundo : Undone e.txn s.trace) :
    (e.goto (.restoring rest)).step.Ends s ((e.goto (.restoring rest)).Goes others s₀ uses s)
      ((e.goto (.restoring rest)).Refused others s₀ uses s) := by
  cases rest with
  | nil => exact ⟨h.letGoRestored, e.follows_letGo .., hundo, .quiet rfl (Pool.locks_unpinAll _ _)⟩
  | cons x rest =>
    show (get >>= _ : Action _).Ends ..
    rw [ends_bind, ends_get]
    split
    · exact ⟨rfl, rfl⟩
    · rw [ends_bind, ends_orElseDo]
      exact (h.restorePage hundo).mono
        (fun _ _ hs => ⟨hs.1, e.follows_goto .., hundo.grown hs.2.trace, hs.2.aside _ fun _ he => he.internal⟩)
        fun _ _ hs => hs.elim

theorem step_collecting (h : Standing (e.goto .collecting :: others) s₀ uses s) (hundo : Undone e.txn s.trace) :
    (e.goto .collecting).step.Ends s ((e.goto .collecting).Goes others s₀ uses s)
      ((e.goto .collecting).Refused others s₀ uses s) :=
  ⟨h.collect, e.follows_goto .., hundo, .quiet rfl rfl⟩

theorem step_returning {rest : List (PageId × BeforeImage)}
    (h : Standing (e.goto (.returning rest) :: others) s₀ uses s) (hundo : Undone e.txn s.trace) :
    (e.goto (.returning rest)).step.Ends s ((e.goto (.returning rest)).Goes others s₀ uses s)
      ((e.goto (.returning rest)).Refused others s₀ uses s) := by
  cases rest with
  | nil =>
    have hcommits : e.commits = false := (h.proper _ (List.mem_cons_self ..)).1.1
    have hrecord : endRecord e.txn e.commits = .abort e.txn := by rw [hcommits]; rfl
    refine ⟨h.logAbort, e.follows_goto .., ⟨[], s.trace, ?_, List.not_mem_nil⟩, .note rfl (fun _ _ => trivial) rfl⟩
    exact congrArg (fun r => Effect.logged r :: s.trace) hrecord.symm
  | cons x rest =>
    show ((Action.restoreRetained x.1 x.2).orElseDo _ >>= _ : Action _).Ends ..
    rw [ends_bind, ends_orElseDo]
    exact (h.restoreRetained hundo).mono
      (fun _ _ hs => ⟨hs.1, e.follows_goto .., hundo.grown hs.2.trace, hs.2.aside _ fun _ he => he.internal⟩)
      fun _ _ hs => hs.elim

theorem step_forcing (h : Standing (e.goto .forcing :: others) s₀ uses s)
    (hlogged : LoggedSince e.txn (endRecord e.txn e.commits) s.trace) :
    (e.goto .forcing).step.Ends s ((e.goto .forcing).Goes others s₀ uses s)
      ((e.goto .forcing).Refused others s₀ uses s) := by
  have htold : (e.goto (if e.commits then .writing e.pinned else .settling)).Told (.forced :: s.trace) := by
    split
    · exact hlogged.force
    · exact hlogged.force
  exact ⟨h.force, e.follows_goto .., htold, .note rfl (fun _ _ => trivial) rfl⟩

theorem step_writing {rest : List (PageId × FrameId)} (h : Standing (e.goto (.writing rest) :: others) s₀ uses s)
    (hforced : ForcedSince e.txn (endRecord e.txn e.commits) s.trace) :
    (e.goto (.writing rest)).step.Ends s ((e.goto (.writing rest)).Goes others s₀ uses s)
      ((e.goto (.writing rest)).Refused others s₀ uses s) := by
  cases rest with
  | nil => exact ⟨h.letGoWritten, e.follows_letGo .., hforced, .quiet rfl (Pool.locks_unpinAll _ _)⟩
  | cons x rest =>
    have hcommits : e.commits = true := (h.proper _ (List.mem_cons_self ..)).1
    have hcommit : ForcedSince e.txn (.commit e.txn) s.trace := by rwa [hcommits] at hforced
    show (get >>= _ : Action _).Ends ..
    rw [ends_bind, ends_get]
    split
    · rw [ends_bind, ends_orElseDo]
      refine (h.writeTaken hcommit).mono (fun _ s' hs => ?_) fun _ _ hs => hs.elim
      have htrails : Trails s.trace s'.trace := hs.2.trace.mono fun _ he => he.internal
      exact ⟨hs.1, e.follows_goto .., htrails.forcedSince hforced, hs.2.aside _ fun _ he => he.internal⟩
    · exact ⟨rfl, rfl⟩

theorem step_settling (h : Standing (e.goto .settling :: others) s₀ uses s)
    (hforced : ForcedSince e.txn (endRecord e.txn e.commits) s.trace) :
    (e.goto .settling).step.Ends s ((e.goto .settling).Goes others s₀ uses s)
      ((e.goto .settling).Refused others s₀ uses s) := by
  have hpinned : e.pinned = [] := h.proper _ (List.mem_cons_self ..)
  have htold : ∀ commits, (e.letGo .unlocking).Told (.completed e.txn commits :: s.trace) := fun commits =>
    ⟨ForcedSince.cons hforced nofun, fun page htouched => htouched.1 rfl⟩
  obtain ⟨txn, commits, refused, pinned, stage⟩ := e
  obtain rfl : pinned = [] := hpinned
  cases commits with
  | true =>
    exact ⟨h.settleCommit rfl, Ending.follows_goto _ .settling .unlocking, htold true, .note rfl (fun _ _ => trivial) rfl⟩
  | false =>
    exact ⟨h.settleAbort rfl, Ending.follows_goto _ .settling .unlocking, htold false, .note rfl (fun _ _ => trivial) rfl⟩

theorem step_unlocking (h : Standing (e.goto .unlocking :: others) s₀ uses s)
    (hforced : ForcedSince e.txn (endRecord e.txn e.commits) s.trace) (htouched : ∀ page, ¬Touched e.txn page s.trace) :
    (e.goto .unlocking).step.Ends s ((e.goto .unlocking).Goes others s₀ uses s)
      ((e.goto .unlocking).Refused others s₀ uses s) := by
  have hpinned : e.pinned = [] := h.proper _ (List.mem_cons_self ..)
  rw [e.goto_eq_letGo .unlocking hpinned] at h
  have hrecord : ForcedSince e.txn (.commit e.txn) s.trace ∨ ForcedSince e.txn (.abort e.txn) s.trace := by
    cases hc : e.commits with
    | true => exact Or.inl (by rwa [hc] at hforced)
    | false => exact Or.inr (by rwa [hc] at hforced)
  have hgone : Standing others s₀ uses (Action.unlock e.txn s) := h.unlock htouched hrecord
  obtain ⟨txn, commits, refused, pinned, stage⟩ := e
  cases commits with
  | true => exact ⟨hgone.count _, hforced, rfl, rfl⟩
  | false =>
    cases refused with
    | true => exact ⟨hgone.count _, ⟨hforced, rfl, rfl⟩, rfl, rfl, rfl⟩
    | false => exact ⟨hgone.count _, hforced, rfl, rfl⟩

/-- One step of the end of a transaction. It waits only at a latch, and fails only where a commit is refused, when all
is over. -/
theorem step (h : Standing (e :: others) s₀ uses s) (ht : e.Told s.trace) :
    e.step.Ends s (e.Goes others s₀ uses s) (e.Refused others s₀ uses s) := by
  suffices hstage : ∀ stage, Standing (e.goto stage :: others) s₀ uses s → (e.goto stage).Told s.trace →
      (e.goto stage).step.Ends s ((e.goto stage).Goes others s₀ uses s) ((e.goto stage).Refused others s₀ uses s) from
    hstage e.stage h ht
  intro stage h ht
  cases stage with
  | logging _ => exact h.step_logging
  | restoring _ => exact h.step_restoring ht
  | collecting => exact h.step_collecting ht
  | returning _ => exact h.step_returning ht
  | forcing => exact h.step_forcing ht
  | writing _ => exact h.step_writing ht
  | settling => exact h.step_settling ht
  | unlocking => exact h.step_unlocking ht.1 ht.2

end Standing

/-! ## Flushes beside ends of transactions -/

/-- Whether the end of a transaction is a commit whose record is not in the forced log yet. -/
def Ending.isUnforced (e : Ending) : Bool :=
  match e.stage with
  | .logging _ => true
  | .forcing => e.commits
  | _ => false

/-- The frame that a flush writes next holds changes of a page, without a before-image, which a commit has logged
and not forced. -/
def Flush.overtakes (fl : Flush) (s : Store) (endings : List Ending) : Bool :=
  match fl.rest with
  | [] => false
  | (page, f) :: _ =>
    let frame := s.pool.frame f
    !fl.skips frame && frame.dirtyBy.isSome && frame.before.isNone &&
      endings.any fun e => e.isUnforced && e.pinned.contains (page, f)

/-- A page with changes that is not restored has a before-image. -/
theorem Restoring.before_of_dirty {rest : List (PageId × FrameId)} (h : Restoring t rest page x a) (hc : x.cached = some c)
    (hd : c.dirtyBy ≠ none) : c.before ≠ none := by
  rcases h with ⟨h, -⟩ | h
  · exact h.before_ne_none hc
  · exact absurd (congrArg Copy.dirtyBy (h.cached c hc)) hd

theorem Returning.clean {owed : List (PageId × BeforeImage)} (h : Returning t owed page x a) (hc : x.cached = some c) :
    c.dirtyBy = none := by
  rcases h with h | ⟨h, -⟩
  · exact congrArg Copy.dirtyBy (h.cached c hc)
  · exact absurd (h.cached.symm.trans hc) (Option.some_ne_none c).symm

/-- A frame with changes and without a before-image is one that a commit has given up, and its record is forced. -/
theorem Ending.Has.forced (h : e.Has page x a) (hp : e.Proper s₀) (ht : e.Told past) (hu : e.isUnforced = false)
    (hc : x.cached = some c) (hd : c.dirtyBy ≠ none) (hb : c.before = none) :
    x.Taken e.txn a ∧ ForcedSince e.txn (.commit e.txn) past := by
  have hcommitting : ∀ {t unlogged unwritten}, Committing t unlogged unwritten page x a → x.Taken t a := fun h =>
    h.elim (fun h => absurd hb (h.1.before_ne_none hc)) And.left
  obtain ⟨txn, commits, refused, pinned, stage⟩ := e
  cases stage with
  | logging rest => cases hu
  | restoring rest => exact absurd hb (Restoring.before_of_dirty h hc hd)
  | collecting => exact absurd hb (Restoring.before_of_dirty h hc hd)
  | returning rest => exact absurd (Returning.clean h hc) hd
  | forcing =>
    cases commits with
    | true => cases hu
    | false => exact absurd (Returning.clean h hc) hd
  | writing rest =>
    obtain rfl : commits = true := hp.1
    exact ⟨hcommitting h, ht⟩
  | settling =>
    cases commits with
    | true => exact ⟨hcommitting h, ht⟩
    | false => exact absurd (Returning.clean h hc) hd
  | unlocking => exact h.elim

/-- A flush that overtakes no commit may go on. -/
theorem Standing.mayGoOn {endings : List Ending} {fl : Flush} (h : Standing endings s₀ (pinsOf fl.pinned ++ uses) s)
    (hr : ∀ x ∈ fl.rest, x ∈ fl.pinned) (htold : ∀ e ∈ endings, e.Told s.trace) (hfl : fl.overtakes s endings = false) :
    fl.MayGoOn s₀.onFile s := by
  intro page f rest hrest hskips hd hb
  have hf : (s.pool.frame f).page = some page := h.pool.used ⟨f, page, none, false⟩
    (List.mem_append_left _ (List.mem_append_left _ (mem_pinsOf (hr _ (hrest ▸ List.mem_cons_self ..)))))
  have hcached := Store.cached_eq h.pool.mapped hf
  -- without a before-image the page is one of those that a commit has pinned
  refine (h.pages page).cases h.proper (fun ha => ?_) fun e he ho hlasts => ?_
  · obtain ⟨u, hu⟩ := Option.ne_none_iff_exists'.1 hd
    have ho := ha.dirty _ u hcached hu
    rw [ha.opener, Copies.before, hcached] at ho
    obtain ⟨b, hb', -⟩ := Option.map_eq_some_iff.1 ho
    cases hb'.symm.trans hb
  · rcases hlasts.evicted _ hcached with ⟨g, hg⟩ | ⟨hclean, -⟩
    · have hgf : g = f := h.pool.frame_inj (h.frame_of_pinned he hg) hf
      have hunforced : e.isUnforced = false := Bool.eq_false_iff.2 fun hun => by
        have hcommits : endings.any (fun e => e.isUnforced && e.pinned.contains (page, f)) = true :=
          List.any_eq_true.2 ⟨e, he, Bool.and_eq_true_iff.2 ⟨hun, List.contains_iff_mem.2 (hgf ▸ hg)⟩⟩
        rw [Flush.overtakes, hrest] at hfl
        simp only [hskips, hcommits, Option.isSome_iff_ne_none.2 hd, hb, Option.isNone_none, Bool.not_false,
          Bool.and_self, Bool.true_eq_false] at hfl
      obtain ⟨htaken, hforced⟩ :=
        ((h.pages page).ended e he ho).2.forced (h.proper e he) (htold e he) hunforced hcached hd hb
      exact .committed e.txn ho (htaken.cached _ hcached).2 hforced
    · exact absurd hclean hd

end TupleStore
