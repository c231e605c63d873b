import TupleStore.Proofs.Lock.Waiting

/-!
# No wakeup is lost

A request that waits sleeps until locks are given back or some request is refused. It misses nothing: what happens
in between only adds to what stands in its way.

* `LockTable.mem_blockers_acquire` : no request takes anybody out of the way of another one;
* `LockTable.Alike` : the same locks and the same entries of those who wait, which is all that answers depend on;
* `LockQueue.signals` : the steps that wake those who wait;
* `LockQueue.Rests` : a request that somebody is in the way of and that is registered. Made again it is not answered,
  and nothing changes (`Sound.again_rests`); every step that signals nobody lets it rest (`Sound.rests_apply`);
* `LockQueue.Sleeping` : the queue in which a request is made again only when it has been woken, and
  `LockQueue.rounds` : the queue with all requests made again after the steps for which that is due;
* `LockQueue.run_wakes` : both answer every request as if it had been made again at all times.
-/

namespace TupleStore

set_option autoImplicit false

/-! ## What stands in the way -/

namespace LockTable

variable {t t' t'' : LockTable} {txn u b : TxnId} {page p : PageId} {mode m : LockMode}

/-- No request takes anybody out of the way of another one, or of the same one. A reader that comes to write stands in
the way of more. -/
theorem mem_blockers_acquire (h : t.Sound) (hb : b ∈ t.blockers u p m) :
    b ∈ (t.acquire txn page mode).2.blockers u p m := by
  rw [mem_blockers (h.acquire txn page mode)]
  obtain ⟨hne, hmode⟩ := (mem_blockers h).1 hb
  refine ⟨hne, ?_⟩
  by_cases hg : (t.acquire txn page mode).1 = .granted
  · rw [mode?_acquire_granted hg]
    split
    · rename_i e
      obtain ⟨rfl, rfl⟩ := e
      rcases hmode with hw | ⟨hr, hm⟩
      · rw [hw]
        exact .inl (by cases mode <;> rfl)
      · rw [hr]
        cases mode with
        | read => exact .inr ⟨rfl, hm⟩
        | write => exact .inl rfl
    · exact hmode
  · rw [mode?_acquire_of_ne_granted hg]
    exact hmode

/-- A request that somebody is in the way of is not granted. -/
theorem acquire_ne_granted (hb : b ∈ t.blockers txn page mode) : (t.acquire txn page mode).1 ≠ .granted :=
  fun hg => Std.TreeSet.isEmpty_iff_forall_not_mem.1 (acquire_granted hg).1 b hb

theorem exists_blocker (hg : (t.acquire txn page mode).1 ≠ .granted) : ∃ b, b ∈ t.blockers txn page mode := by
  by_contra hn
  refine hg ?_
  rw [acquire, if_pos (Std.TreeSet.isEmpty_iff_forall_not_mem.2 fun b hb => hn ⟨b, hb⟩)]

/-! ### Tables that answer alike -/

/-- The same locks, and the same entry for everybody who waits. -/
structure Alike (t t' : LockTable) : Prop where
  pages : t'.pages = t.pages
  held : t'.held = t.held
  waiting : ∀ txn : TxnId, t'.waiting[txn]? = t.waiting[txn]?

namespace Alike

theorem refl (t : LockTable) : t.Alike t := ⟨rfl, rfl, fun _ => rfl⟩

theorem symm (h : t.Alike t') : t'.Alike t := ⟨h.pages.symm, h.held.symm, fun u => (h.waiting u).symm⟩

theorem trans (h : t.Alike t') (h' : t'.Alike t'') : t.Alike t'' :=
  ⟨h'.pages.trans h.pages, h'.held.trans h.held, fun u => (h'.waiting u).trans (h.waiting u)⟩

theorem mode? (h : t.Alike t') : t'.mode? = t.mode? := by
  funext txn page
  rw [LockTable.mode?, LockTable.lock, h.pages]
  rfl

theorem blockers (h : t.Alike t') (txn : TxnId) (page : PageId) (mode : LockMode) :
    t'.blockers txn page mode = t.blockers txn page mode := by
  rw [LockTable.blockers, LockTable.lock, h.pages]
  rfl

theorem startWaiting (h : t.Alike t') (txn : TxnId) (page : PageId) (mode : LockMode) :
    (t.startWaiting txn page mode).Alike (t'.startWaiting txn page mode) where
  pages := h.pages
  held := h.held
  waiting u := by simp only [LockTable.startWaiting, Std.TreeMap.getElem?_insert, h.waiting]

theorem stopWaiting (h : t.Alike t') (txn : TxnId) : (t.stopWaiting txn).Alike (t'.stopWaiting txn) where
  pages := h.pages
  held := h.held
  waiting u := by simp only [LockTable.stopWaiting, Std.TreeMap.getElem?_erase, h.waiting]

theorem grant (h : t.Alike t') (txn : TxnId) (page : PageId) (mode : LockMode) :
    (t.grant txn page mode).Alike (t'.grant txn page mode) where
  pages := by simp only [LockTable.grant, LockTable.lock, h.pages]
  held := by simp only [LockTable.grant, h.held]
  waiting := h.waiting

/-- The search for a cycle sees only the entries and who is in whose way. -/
theorem isDeadlocked (h : t.Alike t') (hs : t.Sound) (txn : TxnId) :
    t'.waitGraph.isDeadlocked txn = t.waitGraph.isDeadlocked txn := by
  have hedge : t'.waitGraph.Edge = t.waitGraph.Edge := by
    funext a b
    refine propext ((edge_waitGraph (hs.congr h.pages h.held)).trans (Iff.trans ?_ (edge_waitGraph hs).symm))
    simp only [h.waiting, h.blockers]
  rw [Bool.eq_iff_iff, WaitGraph.isDeadlocked_iff, WaitGraph.isDeadlocked_iff, hedge]

theorem acquire (h : t.Alike t') (hs : t.Sound) (txn : TxnId) (page : PageId) (mode : LockMode) :
    (t'.acquire txn page mode).1 = (t.acquire txn page mode).1 ∧
      (t.acquire txn page mode).2.Alike (t'.acquire txn page mode).2 := by
  have hw := h.startWaiting txn page mode
  unfold LockTable.acquire
  rw [h.blockers]
  split
  · exact ⟨rfl, (h.grant txn page mode).stopWaiting txn⟩
  · dsimp only
    rw [hw.isDeadlocked (hs.congr rfl rfl)]
    split
    · exact ⟨rfl, hw.stopWaiting txn⟩
    · exact ⟨rfl, hw⟩

theorem dropLock (h : t.Alike t') (txn : TxnId) (page : PageId) :
    (t.dropLock txn page).Alike (t'.dropLock txn page) where
  pages := by
    simp only [LockTable.dropLock, LockTable.lock, h.pages]
    rfl
  held := h.held
  waiting := h.waiting

theorem release (h : t.Alike t') (txn : TxnId) (page : PageId) :
    (t'.release txn page).1 = (t.release txn page).1 ∧ (t.release txn page).2.Alike (t'.release txn page).2 := by
  have hd := h.dropLock txn page
  unfold LockTable.release
  rw [show t'.holds txn page = t.holds txn page by rw [holds, h.mode?]; rfl]
  split
  · exact ⟨rfl, hd.pages, by simp only [hd.held, h.held], hd.waiting⟩
  · exact ⟨rfl, h⟩

theorem foldl_dropLock (h : t.Alike t') (txn : TxnId) (pages : List PageId) :
    (pages.foldl (fun t page => t.dropLock txn page) t).Alike
      (pages.foldl (fun t page => t.dropLock txn page) t') := by
  induction pages generalizing t t' with
  | nil => exact h
  | cons page pages ih => exact ih (h.dropLock txn page)

theorem releaseAll (h : t.Alike t') (txn : TxnId) : (t.releaseAll txn).Alike (t'.releaseAll txn) := by
  have hf := h.foldl_dropLock txn (t.lockedBy txn)
  have hl : t'.lockedBy txn = t.lockedBy txn := by rw [lockedBy, h.held]; rfl
  unfold LockTable.releaseAll
  rw [hl]
  exact ⟨hf.pages, congrArg (·.erase txn) hf.held, fun u => by
    simp only [Std.TreeMap.getElem?_erase, hf.waiting]⟩

end Alike

end LockTable

namespace LockQueue

variable {q q' q'' : LockQueue} {r r' : LockRequest} {op : Op}

/-- The same requests wait, at tables that answer alike. -/
structure Alike (q q' : LockQueue) : Prop where
  table : q.table.Alike q'.table
  pending : q'.pending = q.pending

/-- What a step answers: the request that it makes, unless that waits on. -/
def told (q : LockQueue) : Op → List (LockRequest × LockAnswer)
  | .request r => if q.isBusy r.txn then [] else [(r, (q.request r).1)]
  | .retry r => if r ∈ q.pending ∧ (q.again r).1 ≠ .waits then [(r, (q.again r).1)] else []
  | _ => []

/-- All answers in the course of some operations. -/
def trace (q : LockQueue) : List Op → List (LockRequest × LockAnswer)
  | [] => []
  | op :: ops => q.told op ++ (q.apply op).trace ops

/-- Whether a step wakes all who wait: one lock has been given back, or all of a transaction, or a request has been
refused. -/
def signals (q : LockQueue) : Op → Bool
  | .request r => !q.isBusy r.txn && (q.request r).1 = .refused
  | .retry r => decide (r ∈ q.pending ∧ (q.again r).1 = .refused)
  | .release txn page => (q.table.release txn page).1
  | .releaseAll _ => true

namespace Alike

theorem refl (q : LockQueue) : q.Alike q := ⟨.refl _, rfl⟩

theorem symm (h : q.Alike q') : q'.Alike q := ⟨h.table.symm, h.pending.symm⟩

theorem trans (h : q.Alike q') (h' : q'.Alike q'') : q.Alike q'' := ⟨h.table.trans h'.table, h'.pending.trans h.pending⟩

theorem isBusy (h : q.Alike q') (txn : TxnId) : q'.isBusy txn = q.isBusy txn := by
  rw [LockQueue.isBusy, h.pending]
  rfl

theorem request (h : q.Alike q') (hs : q.table.Sound) (r : LockRequest) :
    (q'.request r).1 = (q.request r).1 ∧ (q.request r).2.Alike (q'.request r).2 := by
  obtain ⟨ha, ht⟩ := h.table.acquire hs r.txn r.page r.mode
  exact ⟨ha, ht, by simp only [LockQueue.request, ha, h.pending]⟩

theorem again (h : q.Alike q') (hs : q.table.Sound) (r : LockRequest) :
    (q'.again r).1 = (q.again r).1 ∧ (q.again r).2.Alike (q'.again r).2 := by
  obtain ⟨ha, ht⟩ := h.table.acquire hs r.txn r.page r.mode
  exact ⟨ha, ht, by simp only [LockQueue.again, ha, h.pending]⟩

theorem apply (h : q.Alike q') (hs : q.table.Sound) (op : Op) : (q.apply op).Alike (q'.apply op) := by
  cases op with
  | request r =>
    simp only [LockQueue.apply, h.isBusy]
    split
    · exact h
    · exact (h.request hs r).2
  | retry r =>
    simp only [LockQueue.apply, h.pending]
    split
    · exact (h.again hs r).2
    · exact h
  | release txn page => exact ⟨(h.table.release txn page).2, h.pending⟩
  | releaseAll txn => exact ⟨h.table.releaseAll txn, h.pending⟩

theorem told (h : q.Alike q') (hs : q.table.Sound) (op : Op) : q'.told op = q.told op := by
  cases op with
  | request r => simp only [LockQueue.told, h.isBusy, (h.request hs r).1]
  | retry r => simp only [LockQueue.told, h.pending, (h.again hs r).1]
  | release txn page => rfl
  | releaseAll txn => rfl

theorem signals (h : q.Alike q') (hs : q.table.Sound) (op : Op) : q'.signals op = q.signals op := by
  cases op with
  | request r => simp only [LockQueue.signals, h.isBusy, (h.request hs r).1]
  | retry r => simp only [LockQueue.signals, h.pending, (h.again hs r).1]
  | release txn page => exact (h.table.release txn page).1
  | releaseAll txn => rfl

theorem run (h : q.Alike q') (hs : q.Sound) (ops : List Op) :
    q'.trace ops = q.trace ops ∧ (q.run ops).Alike (q'.run ops) := by
  induction ops generalizing q q' with
  | nil => exact ⟨rfl, h⟩
  | cons op ops ih =>
    obtain ⟨htrace, hlast⟩ := ih (h.apply hs.table op) (hs.apply op)
    exact ⟨by rw [LockQueue.trace, LockQueue.trace, h.told hs.table, htrace], hlast⟩

end Alike

/-! ## Requests that need not be made again -/

/-- Somebody stands in the way of a request. -/
def Blocked (q : LockQueue) (r : LockRequest) : Prop := ∃ b, b ∈ q.blockers r

/-- A request that need not be made again: it would not be granted, and the table knows that it waits. -/
structure Rests (q : LockQueue) (r : LockRequest) : Prop where
  blocked : q.Blocked r
  registered : q.table.waiting[r.txn]? = some (r.page, r.mode)

/-- What a step that signals nobody leaves in the way of requests. -/
theorem Sound.blocked_apply (h : q.Sound) (hquiet : q.signals op = false) (hb : q.Blocked r) :
    (q.apply op).Blocked r := by
  obtain ⟨b, hb⟩ := hb
  cases op with
  | request r' =>
    rw [LockQueue.apply]
    split
    · exact ⟨b, hb⟩
    · exact ⟨b, LockTable.mem_blockers_acquire h.table hb⟩
  | retry r' =>
    rw [LockQueue.apply]
    split
    · exact ⟨b, LockTable.mem_blockers_acquire h.table hb⟩
    · exact ⟨b, hb⟩
  | release txn page =>
    -- nothing is given back
    have hm : q.table.mode? txn page = none := by
      by_contra hm
      exact absurd ((LockTable.locks_release hm).1.symm.trans hquiet) (by simp)
    refine ⟨b, ?_⟩
    show b ∈ (q.table.release txn page).2.blockers r.txn r.page r.mode
    rw [LockTable.release_of_mode?_eq_none hm]
    exact hb
  | releaseAll txn => cases hquiet

/-- A request that has just been made and waits is at rest. -/
theorem rests_of_waits {pending : List LockRequest} (h : q.table.Sound)
    (hw : (q.table.acquire r.txn r.page r.mode).1 = .waits) :
    Rests ⟨(q.table.acquire r.txn r.page r.mode).2, pending⟩ r where
  blocked := by
    obtain ⟨b, hb⟩ := LockTable.exists_blocker (show (q.table.acquire r.txn r.page r.mode).1 ≠ .granted by simp [hw])
    exact ⟨b, LockTable.mem_blockers_acquire h hb⟩
  registered := by rw [LockTable.waiting_acquire, if_pos rfl, if_pos hw]

theorem mem_pending_request : r ∈ (q.request r').2.pending ↔
    r ∈ q.pending ∨ r = r' ∧ (q.table.acquire r'.txn r'.page r'.mode).1 = .waits := by
  simp only [LockQueue.request]
  split
  · rename_i hw
    simp [hw]
  · rename_i hw
    simp [hw]

theorem Sound.mem_pending_again (h : q.Sound) (hr : r' ∈ q.pending) : r ∈ (q.again r').2.pending ↔
    r ∈ q.pending ∧ r ≠ r' ∨ r = r' ∧ (q.table.acquire r'.txn r'.page r'.mode).1 = .waits := by
  have hnodup : q.pending.Nodup := List.Nodup.of_map _ h.distinct
  simp only [LockQueue.again]
  split
  · rename_i hw
    by_cases e : r = r'
    · simp [hw, e, hr]
    · simp [e]
  · rename_i hw
    simp [hw, hnodup.mem_erase_iff, and_comm]

/-- A request of another transaction, made or made again, lets a request rest. -/
theorem Sound.rests_acquire {pending : List LockRequest} (h : q.Sound) (hrest : q.Rests r) (hne : r.txn ≠ r'.txn) :
    Rests ⟨(q.table.acquire r'.txn r'.page r'.mode).2, pending⟩ r where
  blocked := by
    obtain ⟨b, hb⟩ := hrest.blocked
    exact ⟨b, LockTable.mem_blockers_acquire h.table hb⟩
  registered := by
    rw [LockTable.waiting_acquire, if_neg hne]
    exact hrest.registered

/-- A step that signals nobody lets everybody rest who rested before, and the request that it makes as well, unless that
is answered. -/
theorem Sound.rests_apply (h : q.Sound) (hquiet : q.signals op = false) (hr : r ∈ (q.apply op).pending)
    (hrests : r ∈ q.pending → op ≠ .retry r → q.Rests r) : (q.apply op).Rests r := by
  cases op with
  | request r' =>
    rw [LockQueue.apply] at hr ⊢
    split at hr
    · rename_i hbusy
      rw [if_pos hbusy]
      exact hrests hr (by simp)
    · rename_i hbusy
      rw [if_neg hbusy]
      rcases mem_pending_request.1 hr with hr | ⟨rfl, hw⟩
      · exact h.rests_acquire (hrests hr (by simp)) fun e => hbusy (isBusy_iff.2 ⟨r, hr, e⟩)
      · exact rests_of_waits h.table hw
  | retry r' =>
    rw [LockQueue.apply] at hr ⊢
    split at hr
    · rename_i hmem
      rw [if_pos hmem]
      rcases (h.mem_pending_again hmem).1 hr with ⟨hr, hne⟩ | ⟨rfl, hw⟩
      · exact h.rests_acquire (hrests hr fun e => hne (Op.retry.inj e).symm) fun e => hne (h.eq_of_txn hr hmem e)
      · exact rests_of_waits h.table hw
    · rename_i hmem
      rw [if_neg hmem]
      exact hrests hr fun e => hmem (Op.retry.inj e ▸ hr)
  | release txn page =>
    have hrest := hrests hr (by simp)
    exact ⟨h.blocked_apply hquiet hrest.blocked, by
      rw [LockQueue.apply, LockQueue.withTable, LockTable.waiting_release]
      exact hrest.registered⟩
  | releaseAll txn => cases hquiet

/-- A step that signals nobody leaves everybody blocked, and whoever comes to wait is blocked, too. -/
theorem Sound.blocked_pending (h : q.Sound) (hquiet : q.signals op = false) (hblocked : ∀ r ∈ q.pending, q.Blocked r)
    (hr : r ∈ (q.apply op).pending) : (q.apply op).Blocked r := by
  by_cases hmem : r ∈ q.pending
  · exact h.blocked_apply hquiet (hblocked r hmem)
  · exact (h.rests_apply hquiet hr fun hmem' => absurd hmem' hmem).blocked

/-- A request at rest, made again, has to wait on, and nothing changes. -/
theorem Sound.again_rests (h : q.Sound) (hr : r ∈ q.pending) (hrest : q.Rests r) :
    (q.again r).1 = .waits ∧ q.Alike (q.again r).2 := by
  obtain ⟨b, hb⟩ := hrest.blocked
  have hwaits : (q.table.acquire r.txn r.page r.mode).1 = .waits := by
    cases ha : (q.table.acquire r.txn r.page r.mode).1 with
    | granted => exact absurd ha (LockTable.acquire_ne_granted hb)
    | waits => rfl
    | refused => exact absurd ha (h.again_ne_refused hr)
  have hlocks := LockTable.locks_acquire_of_ne_granted (LockTable.acquire_ne_granted hb)
  refine ⟨hwaits, ⟨hlocks.1, hlocks.2, fun u => ?_⟩, ?_⟩
  · refine (LockTable.waiting_acquire u).trans ?_
    rw [hwaits]
    split
    · rename_i e
      rw [e, hrest.registered]
      rfl
    · rfl
  · simp only [LockQueue.again, hwaits, if_true]

theorem Sound.retry_rests (h : q.Sound) (hrest : r ∈ q.pending → q.Rests r) :
    q.told (.retry r) = [] ∧ q.Alike (q.apply (.retry r)) := by
  rw [told, LockQueue.apply]
  by_cases hr : r ∈ q.pending
  · obtain ⟨hw, halike⟩ := h.again_rests hr (hrest hr)
    rw [if_neg fun hn => hn.2 hw, if_pos hr]
    exact ⟨rfl, halike⟩
  · rw [if_neg fun hn => hr hn.1, if_neg hr]
    exact ⟨rfl, .refl q⟩

theorem Rests.of_alike (hrest : q.Rests r) (h : q.Alike q') : q'.Rests r where
  blocked := by
    obtain ⟨b, hb⟩ := hrest.blocked
    exact ⟨b, by rw [LockQueue.blockers, h.table.blockers]; exact hb⟩
  registered := (h.table.waiting _).trans hrest.registered

/-! ## Sleeping until a signal -/

/-- A queue, and which of its requests have been woken and not been made again since. -/
structure Sleeping where
  queue : LockQueue := {}
  awake : List LockRequest := []

namespace Sleeping

/-- Whether a step is passed over: it would make a request again that sleeps. -/
def skips (s : Sleeping) : Op → Bool
  | .retry r => r ∉ s.awake
  | _ => false

/-- Who is awake still after a step that signals nobody. -/
def drowsy (awake : List LockRequest) : Op → List LockRequest
  | .retry r => awake.filter (· ≠ r)
  | _ => awake

def apply (s : Sleeping) (op : Op) : Sleeping :=
  if s.skips op then s
  else ⟨s.queue.apply op, if s.queue.signals op then (s.queue.apply op).pending else drowsy s.awake op⟩

def told (s : Sleeping) (op : Op) : List (LockRequest × LockAnswer) := if s.skips op then [] else s.queue.told op

def run (s : Sleeping) (ops : List Op) : Sleeping := ops.foldl apply s

def trace (s : Sleeping) : List Op → List (LockRequest × LockAnswer)
  | [] => []
  | op :: ops => s.told op ++ (s.apply op).trace ops

variable {s : Sleeping}

theorem skips_iff : s.skips op = true ↔ ∃ r, op = .retry r ∧ r ∉ s.awake := by
  cases op <;> simp [skips]

theorem mem_drowsy {awake : List LockRequest} : r ∈ drowsy awake op ↔ r ∈ awake ∧ op ≠ .retry r := by
  cases op with
  | retry r' => simp [drowsy, eq_comm (a := r)]
  | _ => simp [drowsy]

/-- The queue in which requests sleep is like the one in which they are made again at any time, and those who sleep
are at rest. -/
structure Follows (s : Sleeping) (q : LockQueue) : Prop where
  sound : q.Sound
  alike : q.Alike s.queue
  rests : ∀ r ∈ q.pending, r ∉ s.awake → q.Rests r

theorem Follows.apply (h : s.Follows q) (op : Op) :
    s.told op = q.told op ∧ (s.apply op).Follows (q.apply op) := by
  rw [Sleeping.told, Sleeping.apply]
  split
  · rename_i hskip
    obtain ⟨r, rfl, hr⟩ := skips_iff.1 hskip
    obtain ⟨htold, halike⟩ := h.sound.retry_rests fun hmem => h.rests r hmem hr
    refine ⟨htold.symm, h.sound.apply _, ?_, fun r' hr' hsleeps => ?_⟩
    · exact halike.symm.trans h.alike
    · exact (h.rests r' (halike.pending ▸ hr') hsleeps).of_alike halike
  · have halike := h.alike.apply h.sound.table op
    refine ⟨h.alike.told h.sound.table op, h.sound.apply op, halike, fun r hr hsleeps => ?_⟩
    dsimp only at hsleeps
    split at hsleeps
    · exact absurd (halike.pending ▸ hr) hsleeps
    · rename_i hquiet
      rw [h.alike.signals h.sound.table, Bool.not_eq_true] at hquiet
      refine h.sound.rests_apply hquiet hr fun hmem hne => h.rests r hmem fun hawake => ?_
      exact hsleeps (mem_drowsy.2 ⟨hawake, hne⟩)

theorem Follows.run (h : s.Follows q) (ops : List Op) :
    s.trace ops = q.trace ops ∧ (s.run ops).Follows (q.run ops) := by
  induction ops generalizing s q with
  | nil => exact ⟨rfl, h⟩
  | cons op ops ih =>
    obtain ⟨htold, hnext⟩ := h.apply op
    obtain ⟨htrace, hlast⟩ := ih hnext
    exact ⟨by rw [Sleeping.trace, LockQueue.trace, htold, htrace], hlast⟩

theorem follows_empty : Follows {} {} where
  sound := sound_empty
  alike := .refl _
  rests _ hr := absurd hr List.not_mem_nil

end Sleeping

/-! ## Rounds -/

/-- Operations, with a round after each for which one is due: all requests that wait are made again, in the order that
comes with the operation. -/
def rounds (due : LockQueue → Op → Bool) (q : LockQueue) :
    List (Op × List LockRequest) → List (LockRequest × LockAnswer) × LockQueue
  | [] => ([], q)
  | (op, order) :: steps =>
    let q' := q.apply op
    let round := if due q op then (order ++ q'.pending).map Op.retry else []
    let rest := rounds due (q'.run round) steps
    (q.told op ++ q'.trace round ++ rest.1, rest.2)

theorem Sound.signals_retry (h : q.Sound) (r' : LockRequest) : q.signals (.retry r') = false := by
  simp only [signals, decide_eq_false_iff_not, not_and]
  exact fun hr => h.again_ne_refused hr

theorem Sound.mem_of_mem_retry (h : q.Sound) (hr : r ∈ (q.apply (.retry r')).pending) : r ∈ q.pending := by
  rw [LockQueue.apply] at hr
  split at hr
  · rename_i hmem
    rcases (h.mem_pending_again hmem).1 hr with hr | ⟨rfl, -⟩
    · exact hr.1
    · exact hmem
  · exact hr

theorem Sound.mem_of_mem_run (h : q.Sound) (round : List LockRequest)
    (hr : r ∈ (q.run (round.map Op.retry)).pending) : r ∈ q.pending := by
  induction round generalizing q with
  | nil => exact hr
  | cons r' round ih => exact h.mem_of_mem_retry (ih (h.apply (.retry r')) hr)

/-- Whoever still waits after a round in which its request was made again is at rest: the induction is on the round,
and nothing that is granted later in it helps. -/
theorem Sound.rests_run (h : q.Sound) (round : List LockRequest)
    (hr : r ∈ (q.run (round.map Op.retry)).pending) (hrests : r ∉ round → q.Rests r) :
    (q.run (round.map Op.retry)).Rests r := by
  induction round generalizing q with
  | nil => exact hrests List.not_mem_nil
  | cons r' round ih =>
    have h' := h.apply (.retry r')
    refine ih h' hr fun hout => h.rests_apply (h.signals_retry r') (h'.mem_of_mem_run round hr) fun _ hne => ?_
    exact hrests fun hin => (List.mem_cons.1 hin).elim (fun e => hne (e ▸ rfl)) hout

/-- A round of requests that are all at rest answers none, and changes nothing. -/
theorem Sound.round_rests (h : q.Sound) (hrests : ∀ r ∈ q.pending, q.Rests r) (round : List LockRequest) :
    q.trace (round.map Op.retry) = [] ∧ q.Alike (q.run (round.map Op.retry)) := by
  induction round generalizing q with
  | nil => exact ⟨rfl, .refl q⟩
  | cons r round ih =>
    obtain ⟨htold, halike⟩ := h.retry_rests (hrests r)
    obtain ⟨htrace, hrun⟩ := ih (h.apply (.retry r)) fun r' hr' =>
      (hrests r' (halike.pending ▸ hr')).of_alike halike
    exact ⟨by rw [List.map_cons, LockQueue.trace, htold, htrace, List.nil_append], halike.trans hrun⟩

theorem Sound.rounds (h : q.Sound) (halike : q.Alike q') (hrests : ∀ r ∈ q.pending, q.Rests r)
    (steps : List (Op × List LockRequest)) :
    (LockQueue.rounds (fun _ _ => true) q steps).1 = (LockQueue.rounds signals q' steps).1 ∧
      (LockQueue.rounds (fun _ _ => true) q steps).2.Alike (LockQueue.rounds signals q' steps).2 := by
  induction steps generalizing q q' with
  | nil => exact ⟨rfl, halike⟩
  | cons step steps ih =>
    obtain ⟨op, order⟩ := step
    have h' := h.apply op
    have hstep := halike.apply h.table op
    have htold := halike.told h.table op
    simp only [LockQueue.rounds, halike.signals h.table, hstep.pending, htold, if_true]
    let round := order ++ (q.apply op).pending
    have hrest : ∀ r ∈ ((q.apply op).run (round.map Op.retry)).pending,
        ((q.apply op).run (round.map Op.retry)).Rests r := fun r hr =>
      h'.rests_run round hr fun hout =>
        absurd (List.mem_append_right order (h'.mem_of_mem_run round hr)) hout
    split
    · -- both make the same round
      obtain ⟨htrace, hround⟩ := hstep.run h' (round.map Op.retry)
      obtain ⟨h₁, h₂⟩ := ih (h'.run (round.map Op.retry)) hround hrest
      exact ⟨by rw [h₁, htrace], h₂⟩
    · rename_i hquiet
      rw [Bool.not_eq_true] at hquiet
      obtain ⟨htrace, hround⟩ := h'.round_rests
        (fun r hr => h.rests_apply hquiet hr fun hmem _ => hrests r hmem) round
      obtain ⟨h₁, h₂⟩ := ih (h'.run (round.map Op.retry)) (hround.symm.trans hstep) hrest
      exact ⟨by rw [h₁, htrace]; rfl, h₂⟩

/-! ## Nobody sleeps on -/

/-- What those who wait can rely on, after some operations and in the course of them. -/
structure Wakes (ops : List Op) : Prop where
  /-- A lock that is granted to anybody leaves all who stand in the way of a request where they are. -/
  grows : ∀ r r' : LockRequest, ∀ b, b ∈ (run {} ops).blockers r →
    b ∈ ((run {} ops).withTable ((run {} ops).table.acquire r'.txn r'.page r'.mode).2).blockers r
  /-- Where nobody can be granted anything, a step that signals nobody leaves it so. -/
  quiet : (∀ r ∈ (run {} ops).pending, (run {} ops).Blocked r) → ∀ op, (run {} ops).signals op = false →
    ∀ r ∈ ((run {} ops).apply op).pending, ((run {} ops).apply op).Blocked r
  /-- Requests that sleep until they are woken are answered as if they never slept, in whatever order they are made
  again and whatever happens in between. -/
  sleeping : Sleeping.trace {} ops = trace {} ops ∧ (run {} ops).Alike (Sleeping.run {} ops).queue
  /-- Rounds after the steps that signal do for the operations what rounds after all steps do. -/
  rounds : ∀ steps, steps.map Prod.fst = ops →
    (rounds (fun _ _ => true) {} steps).1 = (rounds signals {} steps).1 ∧
      (rounds (fun _ _ => true) {} steps).2.Alike (rounds signals {} steps).2

theorem run_wakes (ops : List Op) : Wakes ops where
  grows _ _ _ hb := LockTable.mem_blockers_acquire (sound_empty.run ops).table hb
  quiet hblocked _ hquiet _ hr := (sound_empty.run ops).blocked_pending hquiet hblocked hr
  sleeping :=
    have hrun := Sleeping.follows_empty.run ops
    ⟨hrun.1, hrun.2.alike⟩
  rounds steps _ := sound_empty.rounds (.refl _) (fun _ hr => absurd hr List.not_mem_nil) steps

/-- A writer behind a reader is passed over until the reader has given its lock back. -/
example :
    let writer : LockRequest := ⟨1, ⟨2⟩, ⟨⟨0⟩, 0⟩, .write⟩
    let ops := [.request ⟨0, ⟨1⟩, ⟨⟨0⟩, 0⟩, .read⟩, .request writer, .retry writer, .releaseAll ⟨1⟩, .retry writer]
    (Sleeping.run {} (ops.take 2)).skips (.retry writer) = true ∧
      (Sleeping.trace {} ops).map Prod.snd = [.granted, .waits, .granted] := by
  decide +kernel

end LockQueue

end TupleStore
