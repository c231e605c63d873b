import TupleStore.Proofs.Lock.Waiting
import TupleStore.Proofs.Pool.Replacing
import TupleStore.Proofs.Refusals
import TupleStore.Proofs.Rollbacks

/-!
# Requests that fail

A request for a page fails because its transaction is doomed or becomes so, because of the table or the number of the
page, or because no frame is to be had for it. The last is found out late, when a victim has been chosen that cannot be
written. Whichever it is, the cache, the files and the log are as they were.

* `LockTable.Adds` : what becomes of the locks. A transaction has the lock that it asked for, at most;
* `Store.Withstands` : what becomes of the store;
* `Tidy.step` : one step of a request that fails. Once its page is pinned, a request does not fail any more
  (`ends_step_pinned`), so that this holds of whole requests (`Tidy.run`);
* `World.handleAll_withstands` : whatever has happened before, also to the tables of pages in the cache.
-/

namespace TupleStore

set_option autoImplicit false

open TupleStore.Action

/-! ## Locks -/

/-- The locks after a request. One of them can be there that was not, or be stronger. Nobody else waits for others than
before. -/
structure LockTable.Adds (t t' : LockTable) (txn : TxnId) (page : PageId) (mode : LockMode) : Prop where
  others : ∀ u q, u ≠ txn ∨ q ≠ page → t'.mode? u q = t.mode? u q
  own : t'.mode? txn page = t.mode? txn page ∧ (page ∈ t'.lockedBy txn ↔ page ∈ t.lockedBy txn) ∨
    t'.mode? txn page = some (LockMode.raise (t.mode? txn page) mode) ∧ page ∈ t'.lockedBy txn
  lockedBy : ∀ u q, u ≠ txn ∨ q ≠ page → (q ∈ t'.lockedBy u ↔ q ∈ t.lockedBy u)
  waiting : ∀ u, u ≠ txn → t'.waiting[u]? = t.waiting[u]?

namespace LockTable

variable {t : LockTable} {txn u : TxnId} {page q : PageId} {mode : LockMode}

theorem Adds.refl (t : LockTable) (txn : TxnId) (page : PageId) (mode : LockMode) : t.Adds t txn page mode where
  others _ _ _ := rfl
  own := .inl ⟨rfl, Iff.rfl⟩
  lockedBy _ _ _ := Iff.rfl
  waiting _ _ := rfl

theorem mem_lockedBy_grant (t : LockTable) (mode : LockMode) :
    q ∈ (t.grant txn page mode).lockedBy u ↔ u = txn ∧ q = page ∨ q ∈ t.lockedBy u := by
  simp only [lockedBy, LockTable.grant, Std.TreeSet.mem_toList, Std.TreeMap.getD_insert,
    Std.LawfulEqCmp.compare_eq_iff_eq]
  by_cases e : txn = u
  · rw [if_pos e, ← e, Std.TreeSet.mem_insert, Std.LawfulEqCmp.compare_eq_iff_eq, and_iff_right rfl, eq_comm]
  · rw [if_neg e, or_iff_right fun hh => e hh.1.symm]

theorem adds_acquire (t : LockTable) (txn : TxnId) (page : PageId) (mode : LockMode) :
    t.Adds (t.acquire txn page mode).2 txn page mode := by
  have hwaiting : ∀ u, u ≠ txn → (t.acquire txn page mode).2.waiting[u]? = t.waiting[u]? := fun u hu => by
    rw [waiting_acquire, if_neg hu]
  by_cases hg : (t.acquire txn page mode).1 = .granted
  · have hmode := mode?_acquire_granted hg
    have hlisted : ∀ u q, q ∈ (t.acquire txn page mode).2.lockedBy u ↔ u = txn ∧ q = page ∨ q ∈ t.lockedBy u :=
      fun u q => by
        rw [(acquire_granted hg).2]
        exact t.mem_lockedBy_grant mode
    have hother : ∀ {u q}, u ≠ txn ∨ q ≠ page → ¬ (u = txn ∧ q = page) := fun h hh =>
      h.elim (fun hu => hu hh.1) fun hq => hq hh.2
    refine ⟨fun u q h => ?_, .inr ⟨?_, (hlisted txn page).2 (.inl ⟨rfl, rfl⟩)⟩, fun u q h => ?_, hwaiting⟩
    · rw [hmode, if_neg (hother h)]
    · rw [hmode, if_pos ⟨rfl, rfl⟩]
    · rw [hlisted, or_iff_right (hother h)]
  · have hmode := mode?_acquire_of_ne_granted hg
    have hlisted : ∀ u, (t.acquire txn page mode).2.lockedBy u = t.lockedBy u := fun u => by
      rw [LockTable.lockedBy, (locks_acquire_of_ne_granted hg).2]
      rfl
    exact ⟨fun u q _ => hmode u q, .inl ⟨hmode txn page, by rw [hlisted]⟩, fun u q _ => by rw [hlisted], hwaiting⟩

end LockTable

/-! ## Stores -/

/-- What a request that fails leaves of a store. Apart from what is said of locks and sentences, only the clock, the
counters and discarded frames that nobody uses can differ. -/
structure Store.Withstands (s : Store) (r : Request) (e : Error) (s' : Store) : Prop where
  cause : e = .deadlock r.txn ∨ s.Denies r.page e
  volume : s'.volume = s.volume
  catalog : s'.catalog = s.catalog
  log : s'.log = s.log
  trace : s'.trace = s.trace
  config : s'.pool.config = s.pool.config
  capacity : s'.pool.capacity = s.pool.capacity
  /-- The same pages are cached, and each is in its frame as it was. -/
  table : s'.pool.pageTable = s.pool.pageTable
  frames : ∀ page f, s.pool.find? page = some f → s'.pool.frame f = s.pool.frame f
  pins : ∀ f, (s'.pool.frame f).pins = (s.pool.frame f).pins
  retained : s'.pool.retained = s.pool.retained
  /-- Some frames have moved from the discarded ones to the free ones, and all others are as they were. -/
  moved : ∃ ready : List FrameId, s'.pool.free = ready ++ s.pool.free ∧
    (ready ++ s'.pool.pendingFree).Perm s.pool.pendingFree ∧ (∀ f ∈ ready, s.pool.isPinned f = false) ∧
    ∀ f, s'.pool.frame f = if f ∈ ready then (s.pool.frame f).reset else s.pool.frame f
  /-- Every cached page can be chosen as a victim, also one that has been and could not be written: it is, once the
  frames of all the others are pinned. -/
  choosable : ∀ page f, s.pool.find? page = some f → ∀ isPinned : FrameId → Bool, isPinned f = false →
    (∀ q g, s.pool.find? q = some g → g ≠ f → isPinned g = true) → (s'.pool.clock.evict isPinned).1 = some f
  locks : s.pool.locks.Adds s'.pool.locks r.txn r.page r.mode
  /-- A transaction that is refused a lock has none that it had not. -/
  refused : e = .deadlock r.txn → s'.pool.locks.mode? = s.pool.locks.mode?
  /-- Only the transaction that asked can be doomed, and it is exactly if it was refused a lock. -/
  sentences : Store.Sentences (some r.txn) e s s'
  /-- Nobody is told to look again, unless a lock was refused. -/
  signals : e ≠ .deadlock r.txn → s'.pool.signals = s.pool.signals

variable {s s' t : Store} {pins : List FrameId} {r : Request} {e : Error}

namespace Store

/-- A store that is left intact once the locks have changed, but for sentences and signals. -/
theorem Intact.withstands {locks : LockTable} (h : (s.modifyPool fun p => { p with locks }).Intact t)
    (ha : s.pool.Accounted pins none) (hfit : s.pool.clock.Fit) (hcause : e = .deadlock r.txn ∨ s.Denies r.page e)
    (hlocks : s.pool.locks.Adds locks r.txn r.page r.mode)
    (hrefused : e = .deadlock r.txn → locks.mode? = s.pool.locks.mode?) {p : Pool}
    (hp : p = { t.pool with doomed := p.doomed, signals := p.signals })
    (hsentences : Store.Sentences (some r.txn) e s { t with pool := p })
    (hsignals : e ≠ .deadlock r.txn → p.signals = s.pool.signals) : s.Withstands r e { t with pool := p } := by
  have hl : (s.modifyPool fun p => { p with locks }).pool.Accounted pins none := ha.congr rfl rfl rfl rfl rfl rfl
  have hmapped : ∀ {page f}, s.pool.find? page = some f → (s.pool.frame f).page ≠ none := fun hf =>
    (ha.mapped _ _).1 hf ▸ Option.some_ne_none _
  have hframe : p.frame = t.pool.frame := by rw [hp]; rfl
  refine {
    cause := hcause
    volume := h.volume
    catalog := h.catalog
    log := h.log
    trace := h.trace
    config := ?_
    capacity := ?_
    table := ?_
    frames := fun page f hf => ?_
    pins := fun f => ?_
    retained := ?_
    moved := ?_
    choosable := fun page f hf isPinned hidle hothers => ?_
    locks := ?_
    refused := fun he => ?_
    sentences := hsentences
    signals := hsignals }
  · rw [hp]
    exact h.config
  · rw [hp]
    exact h.capacity
  · rw [hp]
    exact h.table
  · show p.frame f = _
    rw [hframe]
    exact h.frame hl (hmapped hf)
  · show (p.frame f).pins = _
    rw [hframe]
    exact h.pins_eq f
  · rw [hp]
    exact h.retained
  · rw [hp]
    exact h.moved
  · have htracks : ∀ g, t.pool.clock.tracks g = true ↔ (s.pool.frame g).page ≠ none := fun g => by
      rw [h.tracked]
      exact (ha.tracked g).trans (and_iff_left (Option.some_ne_none g).symm)
    rw [hp]
    refine Clock.evict_of_alone (h.fit hfit) ((htracks f).2 (hmapped hf)) hidle fun g hg hne => ?_
    obtain ⟨q, hq⟩ := Option.ne_none_iff_exists'.1 ((htracks g).1 hg)
    exact hothers q g ((ha.mapped q g).2 hq) hne
  · rw [hp]
    exact h.locks ▸ hlocks
  · rw [hp]
    exact (congrArg LockTable.mode? h.locks).trans (hrefused he)

/-! ## Steps -/

/-- What stands against a page does not depend on locks. -/
theorem Denies.of_locks {locks : LockTable} {page : PageId}
    (h : (s.modifyPool fun p => { p with locks }).Denies page e) : s.Denies page e := by
  cases h with
  | fault hf => exact .fault hf
  | beyond hn => exact .beyond hn
  | stuck hs =>
    refine .stuck ?_
    cases hs with
    | full hall => exact .full hall
    | victim hstop => exact .victim hstop

/-- A request that has its lock and its page pins it. One that fails before leaves the store as it was. -/
theorem Tidy.lock (h : s.Tidy) (ha : s.pool.Accounted pins none) (hfit : s.pool.clock.Fit) (r : Request) :
    r.lock.Ends s (fun p _ => ∀ r', p = .moved r' → r'.stage.isPinned = true) fun e s' => s.Withstands r e s' := by
  have hadds := s.pool.locks.adds_acquire r.txn r.page r.mode
  have hkept := @LockTable.mode?_acquire_of_ne_granted s.pool.locks r.txn r.page r.mode
  suffices r.lock.Ends s (fun p _ => ∀ r', p = .moved r' → r'.stage.isPinned = true) fun e s' =>
      Store.Sentences (some r.txn) e s s' → s.Withstands r e s' from
    (this.and (dooms_lock r s)).mono (fun _ _ h' => h'.1) fun _ _ h' => h'.1 h'.2
  unfold Request.lock
  rw [ends_bind, ends_get]
  cases hq : s.pool.locks.acquire r.txn r.page r.mode with
  | mk answer locks =>
    rw [hq] at hadds hkept
    let s₁ := s.modifyPool fun p => { p with locks }
    have h₁ : s₁.Tidy := ⟨h.pool.congr rfl rfl rfl, h.tables⟩
    dsimp only
    rw [ends_bind, ends_modifyPool]
    cases answer with
    | granted =>
      show (Action.fetch r.page >>= _).Ends _ _ _
      rw [ends_bind]
      have hdooms : Dooms none (Action.fetch r.page) := dooms_fetch r.page
      refine ((h₁.fetch (ha.congr rfl rfl rfl rfl rfl rfl) hfit r.page).and (hdooms s₁)).mono
        (fun f s' _ r' hr' => ?_) fun e s' h' hsentences => ?_
      · cases hr'
        rfl
      · obtain ⟨⟨hi, hdenies⟩, hdooms⟩ := h'
        -- the cache dooms nobody
        have hne : e ≠ .deadlock r.txn := fun he => (Option.some_ne_none _).symm (hdooms.own _ he)
        exact hi.withstands ha hfit (.inr hdenies.of_locks) hadds (fun he => absurd he hne) rfl hsentences
          fun _ => hi.signals
    | waits =>
      intro r' hr'
      cases hr'
    | refused =>
      intro hsentences
      refine (Intact.refl s₁).withstands ha hfit (.inl rfl) hadds (fun _ => ?_) rfl hsentences
        fun hne => absurd rfl hne
      funext u q
      exact hkept nofun u q

/-- A request whose page is pinned goes on without failure. -/
theorem ends_step_pinned (hr : r.stage.isPinned = true) (s : Store) :
    r.step.Ends s (fun p _ => ∀ r', p = .moved r' → r'.stage.isPinned = true) fun _ _ => False := by
  unfold Request.step
  rw [ends_bind, ends_get]
  cases hstage : r.stage with
  | fresh =>
    rw [hstage] at hr
    cases hr
  | locking signals =>
    rw [hstage] at hr
    cases hr
  | fetched f =>
    dsimp only
    split
    · intro r' hr'
      cases hr'
      rfl
    · exact nofun
  | entered f =>
    dsimp only
    split
    · exact nofun
    · exact nofun

/-- A step of a request that fails leaves the store as it was. -/
theorem Tidy.step (h : s.Tidy) (ha : s.pool.Accounted pins none) (hfit : s.pool.clock.Fit) (r : Request) :
    r.step.Ends s (fun p _ => ∀ r', p = .moved r' → r'.stage.isPinned = true) fun e s' => s.Withstands r e s' := by
  by_cases hr : r.stage.isPinned = true
  · exact (ends_step_pinned hr s).mono (fun _ _ h' => h') fun _ _ h' => h'.elim
  · have hlock := h.lock ha hfit r
    suffices r.step.Ends s (fun p _ => ∀ r', p = .moved r' → r'.stage.isPinned = true) fun e s' =>
        Store.Sentences (some r.txn) e s s' → s.Withstands r e s' from
      (this.and (dooms_requestStep r s)).mono (fun _ _ h' => h'.1) fun _ _ h' => h'.1 h'.2
    unfold Request.step
    rw [ends_bind, ends_get]
    cases hstage : r.stage with
    | fresh =>
      dsimp only
      split
      · exact fun hsentences => (Intact.refl s).withstands ha hfit (.inl rfl) (.refl ..) (fun _ => rfl) rfl hsentences
          fun _ => rfl
      · exact hlock.mono (fun _ _ h' => h') fun _ _ h' _ => h'
    | locking signals =>
      dsimp only
      split
      · exact nofun
      · exact hlock.mono (fun _ _ h' => h') fun _ _ h' _ => h'
    | fetched f => exact absurd (hstage ▸ rfl) hr
    | entered f => exact absurd (hstage ▸ rfl) hr

/-! ## Requests -/

theorem ends_advance_pinned (n : Nat) (hr : r.stage.isPinned = true) (s : Store) :
    (Action.advance Request.step n r).Ends s (fun _ _ => True) fun _ _ => False := by
  induction n generalizing r s with
  | zero => trivial
  | succ n ih =>
    unfold Action.advance
    rw [ends_bind]
    refine (ends_step_pinned hr s).mono (fun p s' h' => ?_) fun _ _ h' => h'
    cases p with
    | finished g => trivial
    | moved r' => exact ih (h' r' rfl) s'
    | blocked r' => trivial

/-- Only the first step of a request can fail. -/
theorem Tidy.run (h : s.Tidy) (ha : s.pool.Accounted pins none) (hfit : s.pool.clock.Fit) (r : Request) :
    r.run.Ends s (fun _ _ => True) fun e s' => s.Withstands r e s' := by
  unfold Request.run Action.advance
  rw [ends_bind]
  refine (h.step ha hfit r).mono (fun p s' h' => ?_) fun _ _ h' => h'
  cases p with
  | finished g => trivial
  | moved r' => exact (ends_advance_pinned 2 (h' r' rfl) s').mono (fun _ _ _ => trivial) fun _ _ h' => h'.elim
  | blocked r' => trivial

end Store

/-! ## Runs -/

namespace World

/-- Whatever has happened to a store with an empty cache, a request that fails leaves it as it was, be it made for the
first time or taken up again. -/
theorem handleAll_withstands {config : Config} (hp : s.pool = .ofConfig config) (hs : s.volume.Lists s.catalog)
    (events : List Event) (r : Request) (hr : r.run (handleAll events { store := s }).store = .error e s') :
    (handleAll events { store := s }).store.Withstands r e s' := by
  obtain ⟨hb, ht⟩ := tidy_of_fresh hp hs events
  have hfit : s.pool.clock.Fit := hp ▸ .ofCapacity config.poolPages
  have hend := ht.run hb.store.pool (turns_handleAll events (tidy_of_fresh hp hs []).1 hfit) r
  unfold Action.Ends at hend
  rwa [hr] at hend

/-- A page is changed in the only frame. Then its table is taken out of the catalog, and another one stays. -/
def stubborn : List Event :=
  [.create "u" ⟨[]⟩ 8, .op (.allocate 1), .op (.ask ⟨1⟩ (.ofT 0) .write), .op (.advance 0), .op (.advance 0),
    .op (.advance 0), .op (.patch 0 0 [98]), .op (.drop 0), .unregisterAll, .register 1 "u"]

/-- The page cannot be written, and so there is no frame for one of the other table. -/
theorem handleAll_withstands_stubborn :
    Store.narrow.pool = .ofConfig { pageSize := 8, poolPages := 1 } ∧ Store.narrow.volume.Lists Store.narrow.catalog ∧
      ((handleAll stubborn { store := .narrow }).store.copies (.ofT 0)).cached.bind Copy.dirtyBy = some ⟨1⟩ ∧
      ∃ s', Request.run ⟨⟨2⟩, ofU, .read, .fresh⟩ (handleAll stubborn { store := .narrow }).store =
          .error (.noSuchTable (PageId.ofT 0).table) s' ∧
        (handleAll stubborn { store := .narrow }).store.Withstands ⟨⟨2⟩, ofU, .read, .fresh⟩
          (.noSuchTable (PageId.ofT 0).table) s' := by
  have hlists : Store.narrow.volume.Lists Store.narrow.catalog := Store.lists_ofFile ..
  have hp : Store.narrow.pool = .ofConfig { pageSize := 8, poolPages := 1 } := rfl
  have he : (match Request.run ⟨⟨2⟩, ofU, .read, .fresh⟩ (handleAll stubborn { store := .narrow }).store with
      | .ok _ _ => none
      | .error e _ => some e) = some (.noSuchTable (PageId.ofT 0).table) := by decide +kernel
  refine ⟨hp, hlists, by decide +kernel, ?_⟩
  cases hr : Request.run ⟨⟨2⟩, ofU, .read, .fresh⟩ (handleAll stubborn { store := .narrow }).store with
  | ok a s' =>
    rw [hr] at he
    cases he
  | error e s' =>
    rw [hr] at he
    cases he
    exact ⟨s', rfl, handleAll_withstands hp hlists stubborn _ hr⟩

end World

end TupleStore
