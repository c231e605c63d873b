import TupleStore.Proofs.Misses
import TupleStore.Proofs.Pool.Passing

/-!
# What requests leave of a store

A request for a page, whatever comes of it, changes the content of no page. Other pages can make way for it, locks are
added, and that is all (`Settled.request`). What it gives is the content of the page as the cache and the file have had
it before.

* `Store.Shifts` : pages make way, whatever becomes of files, and `Store.Browses`, `Store.Reads` : what calls do that change
  no tuple, with pages appended and without;
* `Store.Settled` : what is known of every store that has come to be from an empty cache;
* `Settled.fetch_shifts`, `Settled.fetch` : pages into frames, and `Settled.lock`, `Settled.request` : requests.
-/

namespace TupleStore

set_option autoImplicit false

open TupleStore.Action

/-! ## Stores -/

/-- What comes of a store by reads and by pages that are appended, while some frames are in use. Pages have perhaps made
way, and a page of a file is as it was, or was dirty in the cache and has been written. -/
structure Store.Browses (s : Store) (pins : List FrameId) (s' : Store) : Prop where
  catalog : s'.catalog = s.catalog
  config : s'.pool.config = s.pool.config
  grown : s.volume.Extends s'.volume
  trace : s.trace <:+ s'.trace
  locks : ∀ t q m, Covered (s.mode? t q) m → Covered (s'.mode? t q) m
  copies : ∀ q, (s.copies q).Passes (s'.copies q)
  /-- A page in a frame that is in use stays where it is, and as it is. -/
  anchors : ∀ (q : PageId) (f : FrameId), s.pool.find? q = some f → f ∈ pins →
    s'.pool.find? q = some f ∧ s'.copies q = s.copies q
  files : ∀ (h : HandleId) (f : HeapFile), s.volume.handles[h]? = some f → ∀ n,
    s'.volume.filePage f.name f.pages.pageSize n = s.volume.filePage f.name f.pages.pageSize n ∨
      ∃ c, (s.copies ⟨f.id, n⟩).cached = some c ∧ c.dirtyBy ≠ none ∧
        s'.volume.filePage f.name f.pages.pageSize n = c.bytes

/-- What comes of a store by reads alone. No table has grown, and at most the last page of a file has been filled up. -/
structure Store.Reads (s : Store) (pins : List FrameId) (s' : Store) : Prop extends Store.Browses s pins s' where
  handles : s'.volume.handles = s.volume.handles
  lengths : ∀ (h : HandleId) (f : HeapFile), s.volume.handles[h]? = some f →
    (s.volume.folder.content f.name).length ≤ (s'.volume.folder.content f.name).length ∧
      (s'.volume.folder.content f.name).length ≤
        max (s.volume.folder.content f.name).length (f.pages.pageCount * f.pages.pageSize)

/-- Only pins and latches differ, and the trace has grown. -/
structure Store.Idles (s s' : Store) : Prop where
  volume : s'.volume = s.volume
  catalog : s'.catalog = s.catalog
  config : s'.pool.config = s.pool.config
  locks : s'.pool.locks = s.pool.locks
  trace : s.trace <:+ s'.trace
  table : s'.pool.pageTable = s.pool.pageTable
  frames : ∀ f, (s'.pool.frame f).copy = (s.pool.frame f).copy
  retained : s'.pool.retained = s.pool.retained

/-- Pages have perhaps made way, but those in frames that are in use have stayed, and as they were. -/
structure Store.Shifts (s : Store) (pins : List FrameId) (s' : Store) : Prop where
  copies : ∀ q, (s.copies q).Passes (s'.copies q)
  anchors : ∀ (q : PageId) (f : FrameId), s.pool.find? q = some f → f ∈ pins →
    s'.pool.find? q = some f ∧ s'.copies q = s.copies q

/-- Every page has room for a tuple. -/
def Volume.Roomy (v : Volume) : Prop := ∀ (h : HandleId) (f : HeapFile), v.handles[h]? = some f → 0 < f.layout.slots

/-- What is known of every store that has come to be from an empty cache. -/
structure Store.Settled (s : Store) (pins : List FrameId) : Prop where
  tidy : s.Tidy
  accounted : s.pool.Accounted pins none
  fit : s.pool.clock.Fit
  housed : ∀ (f : FrameId) (page : PageId), (s.pool.frame f).page = some page → s.volume.Counts page
  spanned : s.volume.Spanned
  roomy : s.volume.Roomy

variable {s s' s'' s₂ : Store} {f : FrameId} {page q : PageId} {pins pins' : List FrameId} {r : Request}

theorem Volume.Extends.of_handles {v v' : Volume} (h : v'.handles = v.handles) : v.Extends v' := fun i => by
  rw [h]
  exact Volume.Extends.refl v i

namespace Store

/-! ### How these go together -/

theorem Shifts.trans (h : s.Shifts pins s') (h' : s'.Shifts pins s'') : s.Shifts pins s'' where
  copies q := (h.copies q).trans (h'.copies q)
  anchors q f hq hp := by
    obtain ⟨hq₁, hcopies⟩ := h.anchors q f hq hp
    obtain ⟨hq₂, hcopies'⟩ := h'.anchors q f hq₁ hp
    exact ⟨hq₂, hcopies'.trans hcopies⟩

theorem Browses.shifts (h : s.Browses pins s') : s.Shifts pins s' := ⟨h.copies, h.anchors⟩

theorem Browses.trans (h : s.Browses pins s') (h' : s'.Browses pins s'') : s.Browses pins s'' where
  catalog := h'.catalog.trans h.catalog
  config := h'.config.trans h.config
  grown := h.grown.trans h'.grown
  trace := h.trace.trans h'.trace
  locks t q m hl := h'.locks t q m (h.locks t q m hl)
  copies := (h.shifts.trans h'.shifts).copies
  anchors := (h.shifts.trans h'.shifts).anchors
  files hd f hf n := by
    obtain ⟨f', hf', hshape, -⟩ := h.grown.file hf
    simp only [Volume.shape, Prod.mk.injEq] at hshape
    obtain ⟨hid, hname, -, hsize⟩ := hshape
    have hfile := h'.files hd f' hf' n
    rw [hid, hname, hsize] at hfile
    rcases hfile with hsame | ⟨c, hc, hdirty, hbytes⟩
    · rw [hsame]
      exact h.files hd f hf n
    · exact .inr ⟨c, (h.copies _).eq_of_dirty hc hdirty ▸ hc, hdirty, hbytes⟩

theorem Reads.trans (h : s.Reads pins s') (h' : s'.Reads pins s'') : s.Reads pins s'' where
  toBrowses := h.toBrowses.trans h'.toBrowses
  handles := h'.handles.trans h.handles
  lengths hd f hf := by
    obtain ⟨hle, hge⟩ := h.lengths hd f hf
    obtain ⟨hle', hge'⟩ := h'.lengths hd f (h.handles ▸ hf)
    omega

/-- Some of the frames are in use. -/
theorem Reads.of_subset (h : s.Reads pins s') (hsub : ∀ f ∈ pins', f ∈ pins) : s.Reads pins' s' :=
  { h with anchors := fun q f hq hp => h.anchors q f hq (hsub f hp) }

namespace Idles

theorem refl (s : Store) : s.Idles s := ⟨rfl, rfl, rfl, rfl, List.suffix_rfl, rfl, fun _ => rfl, rfl⟩

theorem trans (h : s.Idles s') (h' : s'.Idles s'') : s.Idles s'' :=
  ⟨h'.volume.trans h.volume, h'.catalog.trans h.catalog, h'.config.trans h.config, h'.locks.trans h.locks,
    h.trace.trans h'.trace, h'.table.trans h.table, fun f => (h'.frames f).trans (h.frames f),
    h'.retained.trans h.retained⟩

theorem modifyFrame (s : Store) (f : FrameId) {c : Frame → Frame} (hc : ∀ x, (c x).copy = x.copy) :
    s.Idles (s.modifyPool fun p => p.modifyFrame f c) :=
  { refl s with frames := fun g => Pool.modifyFrame_keeps s.pool f g Frame.copy hc }

theorem note (s : Store) (e : Effect) : s.Idles { s with trace := e :: s.trace } :=
  { refl s with trace := List.suffix_cons .. }

theorem find?_eq (h : s.Idles s') (q : PageId) : s'.pool.find? q = s.pool.find? q := by
  rw [Pool.find?, h.table, Pool.find?]

theorem mode?_eq (h : s.Idles s') (t : TxnId) (q : PageId) : s'.mode? t q = s.mode? t q := by
  rw [mode?, h.locks, mode?]

theorem copies_eq (h : s.Idles s') (q : PageId) : s'.copies q = s.copies q := by
  unfold copies onFile
  rw [h.find?_eq, h.retained, h.volume, h.catalog]
  simp only [h.frames]

theorem shifts (h : s.Idles s') (pins : List FrameId) : s.Shifts pins s' :=
  ⟨fun q => h.copies_eq q ▸ .stays, fun q _ hq _ => ⟨(h.find?_eq q).trans hq, h.copies_eq q⟩⟩

theorem reads (h : s.Idles s') (pins : List FrameId) : s.Reads pins s' where
  catalog := h.catalog
  config := h.config
  grown := .of_handles (h.volume ▸ rfl)
  trace := h.trace
  locks t q _ hl := h.mode?_eq t q ▸ hl
  copies := (h.shifts pins).copies
  anchors := (h.shifts pins).anchors
  files _ _ _ _ := .inl (h.volume ▸ rfl)
  handles := h.volume ▸ rfl
  lengths _ _ _ := ⟨(h.volume ▸ Nat.le_refl _), h.volume ▸ Nat.le_max_left ..⟩

end Idles

/-- A store that has been read from, told by its pages. -/
theorem Calm.reads (h : s.Calm s') (hm : s.pool.Maps) (hcopies : ∀ q, (s.copies q).Passes (s'.copies q))
    (hanchors : ∀ q f, s.pool.find? q = some f → f ∈ pins → s'.pool.find? q = some f ∧ s'.copies q = s.copies q) :
    s.Reads pins s' where
  catalog := h.catalog
  config := h.config
  grown := .of_handles h.handles
  trace := h.trace
  locks t q _ hl := mode?_congr h.locks ▸ hl
  copies := hcopies
  anchors := hanchors
  files hd f hf n := by
    rcases h.files hd f hf n with hsame | ⟨g, hg, hdirty, hbytes⟩
    · exact .inl hsame
    · exact .inr ⟨(s.pool.frame g).copy, cached_eq hm hg, hdirty, hbytes⟩
  handles := h.handles
  lengths := h.lengths

/-! ## Pages into frames -/

/-- A frame that is taken is not that of a page in use. -/
theorem Takes.anchors (h : s.Takes f s₂) (ha : s.pool.Accounted pins none) {g : FrameId} (hq : s.pool.find? q = some g)
    (hg : g ∈ pins) : s₂.pool.find? q = some g ∧ s₂.copies q = s.copies q := by
  have hp := ha.isPinned_iff.2 hg
  cases h with
  | @spare t rest hi hf =>
    have hfind : t.pool.find? q = some g := by
      rw [Pool.find?, hi.table]
      exact hq
    exact ⟨hfind, hi.copies ha q⟩
  | @victim page s₁ _ hnone he =>
    have hne : q ≠ page := fun e => by
      obtain rfl : g = f := ha.frame_inj ((ha.mapped q g).1 hq) (e ▸ he.held)
      rw [he.idle] at hp
      cases hp
    refine ⟨?_, (he.copies ha q).trans (if_neg hne)⟩
    rw [he.left]
    show (s₁.pool.unmap f page).find? q = some g
    rw [Pool.find?_unmap, if_neg hne, Pool.find?, he.table]
    exact hq

/-- A page comes into a frame as it was, and others have perhaps made way. -/
theorem Seats.passes (h : s.Seats page f s') (hmiss : s.pool.find? page = none) (q : PageId) :
    (s.copies q).Passes (s'.copies q) := by
  by_cases hq : q = page
  · have huncached : (s.copies page).cached = none := by
      unfold copies
      rw [hmiss]
      rfl
    rw [hq, h.loaded]
    exact .comes huncached
  · by_cases hspare : ∃ g, s.pool.Reusable g
    · rw [(h.spared hspare).1 q hq]
      exact .stays
    · obtain ⟨q', hy⟩ := h.replaced fun g hg => hspare ⟨g, hg⟩
      by_cases hq' : q = q'
      · rw [hq', hy.gone]
        exact .leaves
      · rw [hy.others q hq' hq]
        exact .stays

/-- Only a table that can be used has its pages read. -/
theorem Tidy.ends_load_fault (h : s.Tidy) (page : PageId) :
    (Action.load page).Ends s (fun _ _ => s.fault? page.table = none) fun _ _ => True := by
  let s₁ := s.modifyPool fun p => p.count fun c => { c with misses := c.misses + 1 }
  have h₁ : s₁.Tidy := ⟨h.pool.congr rfl rfl rfl, h.tables⟩
  unfold Action.load
  rw [ends_bind, ends_modifyPool, ends_bind]
  refine (h₁.resolve page.table).mono (fun hd s' h' => ?_) fun _ _ _ => trivial
  have hfault : s.fault? page.table = none := h'.2.1
  unfold Ends
  split
  · exact hfault
  · trivial

/-- A page that is fetched is in its frame as the cache or the file had it. Others have perhaps made way. -/
theorem Settled.fetch_shifts (h : s.Settled pins) (page : PageId) :
    (Action.fetch page).Ends s
      (fun f s' => s.Shifts pins s' ∧ s'.pool.find? page = some f ∧ s'.copies page = (s.copies page).load)
      fun _ s' => s.Shifts pins s' := by
  have ha := h.accounted
  have hbalanced := ends_fetch_balanced (s := s) (v := s.volume) ⟨ha, .refl _⟩ page
  cases hf : s.pool.find? page with
  | some f =>
    unfold Action.fetch
    rw [ends_bind, ends_get, hf]
    have hidles : s.Idles (s.modifyPool fun p => ((p.pin f).touch f).count fun c => { c with hits := c.hits + 1 }) :=
      (Idles.modifyFrame s f (c := fun x => { x with pins := x.pins + 1 }) fun _ => rfl).trans
        ⟨rfl, rfl, rfl, rfl, List.suffix_rfl, rfl, fun _ => rfl, rfl⟩
    have hload : (s.copies page).load = s.copies page := by
      rw [copies_eq ha.mapped ((ha.mapped page f).1 hf)]
      rfl
    exact ⟨hidles.shifts pins, (hidles.find?_eq page).trans hf, (hidles.copies_eq page).trans hload.symm⟩
  | none =>
    refine ((h.tidy.fetch ha h.fit page).and hbalanced).mono (fun f s' h' => ?_) fun _ s' h' => ?_
    · obtain ⟨hfetched, hb, -⟩ := h'
      obtain ⟨s₂, htakes, hready, rfl⟩ := hfetched hf
      have hseats : s.Seats page f _ := htakes.seats ha hready hb.pool hf
      refine ⟨⟨hseats.passes hf, fun q g hq hg => ?_⟩, hseats.seated, hseats.loaded⟩
      obtain ⟨hq', hcopies⟩ := htakes.anchors ha hq hg
      have hne : q ≠ page := fun e => by
        rw [e, hf] at hq
        cases hq
      refine ⟨?_, (copies_seat hready _ q).trans ((if_neg hne).trans hcopies)⟩
      exact (Pool.find?_install s₂.pool f page q _).trans ((if_neg hne).trans hq')
    · obtain ⟨⟨hi, -⟩, -⟩ := h'
      refine ⟨fun q => hi.copies ha q ▸ .stays, fun q g hq _ => ⟨?_, hi.copies ha q⟩⟩
      rw [Pool.find?, hi.table]
      exact hq

/-- Where tables have one handle each, no more is written to files than the pages that make way. -/
theorem Settled.fetch (h : s.Settled pins) (hone : s.volume.Single) (page : PageId) :
    (Action.fetch page).Ends s
      (fun f s' => s.Reads pins s' ∧ s'.pool.find? page = some f ∧ s'.copies page = (s.copies page).load ∧
        (s.pool.find? page = none → s.fault? page.table = none))
      fun _ s' => s.Reads pins s' := by
  have hcalm : (Action.fetch page).Ends s (fun _ s' => s.Calm s') fun _ s' => s.Calm s' :=
    calm_fetch hone h.tidy.tables.named page s (.refl h.housed)
  have hfault : (Action.fetch page).Ends s (fun _ _ => s.pool.find? page = none → s.fault? page.table = none)
      fun _ _ => True := by
    unfold Action.fetch
    rw [ends_bind, ends_get]
    cases s.pool.find? page with
    | some f => exact nofun
    | none => exact (h.tidy.ends_load_fault page).mono (fun _ _ h' _ => h') fun _ _ h' => h'
  have hreads : ∀ s', s.Shifts pins s' → s.Calm s' → s.Reads pins s' := fun s' hs hc =>
    hc.reads h.accounted.mapped hs.copies hs.anchors
  refine (((h.fetch_shifts page).and hcalm).and hfault).mono (fun f s' h' => ?_) fun _ s' h' => hreads s' h'.1.1 h'.1.2
  obtain ⟨⟨⟨hs, hfound, hloaded⟩, hc⟩, hfault⟩ := h'
  exact ⟨hreads s' hs hc, hfound, hloaded, hfault⟩

/-! ## Requests -/

end Store

/-- A request has been given its page, or it waits for it. -/
def Request.Halts (r : Request) (P : Guard → Store → Prop) : Advance Request Guard → Store → Prop
  | .done g, s' => P g s'
  | .waiting r', _ => ∃ stage, stage ≠ .fresh ∧ r' = r.goto stage

/-- It is the same request at any of its stages. -/
theorem Request.Halts.of_goto {r' : Request} {P Q : Guard → Store → Prop} {a : Advance Request Guard} (h : r'.Halts P a s')
    (hr : r'.goto = r.goto) (hpq : ∀ g, P g s' → Q g s') : r.Halts Q a s' := by
  cases a with
  | done g => exact hpq g h
  | waiting r'' =>
    obtain ⟨stage, hne, rfl⟩ := h
    exact ⟨stage, hne, congrFun hr stage⟩

namespace Store

/-- Locks show in no page. -/
theorem Reads.of_locks {locks : LockTable} (h : (s.modifyPool fun p => { p with locks }).Reads pins s')
    (hkeep : ∀ t q m, Covered (s.mode? t q) m → Covered (locks.mode? t q) m) : s.Reads pins s' :=
  { h with locks := fun t q m hl => h.locks t q m (hkeep t q m hl) }

theorem Settled.withLocks (h : s.Settled pins) (locks : LockTable) :
    (s.modifyPool fun p => { p with locks }).Settled pins where
  tidy := ⟨h.tidy.pool.congr rfl rfl rfl, h.tidy.tables⟩
  accounted := h.accounted.congr rfl rfl rfl rfl rfl rfl
  fit := h.fit
  housed := h.housed
  spanned := h.spanned
  roomy := h.roomy

/-- A page that is locked and fetched. -/
structure Seated (s : Store) (r : Request) (f : FrameId) (s' : Store) : Prop where
  found : s'.pool.find? r.page = some f
  loaded : s'.copies r.page = (s.copies r.page).load
  covered : Covered (s'.mode? r.txn r.page) r.mode
  faultless : s.pool.find? r.page = none → s.fault? r.page.table = none

theorem Settled.lock (h : s.Settled pins) (hone : s.volume.Single) (r : Request) :
    r.lock.Ends s
      (fun p s' => s.Reads pins s' ∧ match p with
        | .finished _ => False
        | .moved r' => ∃ f, r' = r.goto (.fetched f) ∧ s.Seated r f s'
        | .blocked r' => ∃ signals, r' = r.goto (.locking signals))
      fun _ s' => s.Reads pins s' := by
  have hkeep : ∀ t q m, Covered (s.mode? t q) m → Covered ((s.pool.locks.acquire r.txn r.page r.mode).2.mode? t q) m :=
    fun t q m hl => LockTable.covered_acquire hl
  have hgranted : (s.pool.locks.acquire r.txn r.page r.mode).1 = .granted → _ := LockTable.covered_of_granted
  unfold Request.lock
  rw [ends_bind, ends_get]
  cases hq : s.pool.locks.acquire r.txn r.page r.mode with
  | mk answer locks =>
    rw [hq] at hkeep hgranted
    have hlocks : s.Reads pins (s.modifyPool fun p => { p with locks }) :=
      .of_locks ((Idles.refl (s.modifyPool fun p => { p with locks })).reads pins) hkeep
    dsimp only
    rw [ends_bind, ends_modifyPool]
    cases answer with
    | granted =>
      show (Action.fetch r.page >>= _).Ends _ _ _
      rw [ends_bind]
      refine ((h.withLocks locks).fetch hone r.page).mono (fun f s' h' => ?_) fun _ s' h' => .of_locks h' hkeep
      obtain ⟨hreads, hfound, hloaded, hfault⟩ := h'
      exact ⟨.of_locks hreads hkeep, f, rfl, hfound, hloaded, hreads.locks _ _ _ (hgranted rfl), hfault⟩
    | waits => exact ⟨hlocks, _, rfl⟩
    | refused =>
      refine hlocks.trans (Idles.reads ?_ pins)
      exact ⟨rfl, rfl, rfl, rfl, List.suffix_rfl, rfl, fun _ => rfl, rfl⟩

theorem Seated.idles (h : s.Seated r f s') (hi : s'.Idles s'') : s.Seated r f s'' where
  found := (hi.find?_eq _).trans h.found
  loaded := (hi.copies_eq _).trans h.loaded
  covered := hi.mode?_eq _ _ ▸ h.covered
  faultless := h.faultless

/-- What a request has come to that goes on from a page that is pinned. -/
structure Looks (s : Store) (r : Request) (f : FrameId) (g : Guard) (s' : Store) : Prop where
  answers : g.Answers r
  frame : g.frame = f
  saw : ∃ past, s'.trace = .saw r.txn r.page (g.bytes s') :: past ∧ s.trace <:+ past

theorem Looks.of_goto {g : Guard} {stage : RequestStage} (h : s'.Looks (r.goto stage) f g s'')
    (htrace : s.trace <:+ s'.trace) : s.Looks r f g s'' where
  answers := ⟨h.answers.page, h.answers.txn, h.answers.mode, h.answers.unchanged⟩
  frame := h.frame
  saw := by
    obtain ⟨past, hsaw, hpast⟩ := h.saw
    exact ⟨past, hsaw, htrace.trans hpast⟩

/-- An operation in steps is a step, and whatever that leaves to be done. -/
theorem ends_advance_succ {σ α : Type} {step : σ → Action (Progress σ α)} {ok : Advance σ α → Store → Prop}
    {err : Error → Store → Prop} {n : Nat} {x : σ} :
    (Action.advance step (n + 1) x).Ends s ok err ↔ (step x).Ends s
      (fun p s' => match p with
        | .finished a => ok (.done a) s'
        | .moved x' => (Action.advance step n x').Ends s' ok err
        | .blocked x' => ok (.waiting x') s') err := by
  rw [Action.advance, ends_bind]
  exact ⟨fun h => h.mono (fun p _ h' => by cases p <;> exact h') fun _ _ h' => h',
    fun h => h.mono (fun p _ h' => by cases p <;> exact h') fun _ _ h' => h'⟩

/-- Whoever has entered the latch of the frame looks at the page once the latch is clear. -/
theorem ends_advance_entered (n : Nat) (hr : r.stage = .entered f) (s : Store) :
    (Action.advance Request.step n r).Ends s
      (fun a s' => s.Idles s' ∧ r.Halts (s.Looks r f) a s') fun _ _ => False := by
  cases n with
  | zero => exact ⟨.refl s, r.stage, hr ▸ nofun, rfl⟩
  | succ n =>
    unfold Action.advance Request.step
    rw [ends_bind, ends_bind, ends_get, hr]
    dsimp only
    split
    · exact ⟨.note s _, ⟨rfl, rfl, rfl, rfl⟩, rfl, s.trace, rfl, List.suffix_rfl⟩
    · exact ⟨.refl s, r.stage, hr ▸ nofun, rfl⟩

/-- A request whose page is pinned only waits, or enters a latch and looks. -/
theorem ends_advance_fetched (n : Nat) (hr : r.stage = .fetched f) (s : Store) :
    (Action.advance Request.step n r).Ends s
      (fun a s' => s.Idles s' ∧ r.Halts (s.Looks r f) a s') fun _ _ => False := by
  cases n with
  | zero => exact ⟨.refl s, r.stage, hr ▸ nofun, rfl⟩
  | succ n =>
    unfold Action.advance Request.step
    rw [ends_bind, ends_bind, ends_get, hr]
    dsimp only
    split
    · rw [ends_bind, ends_modifyPool, ends_pure]
      have henter : s.Idles (s.modifyPool fun p => p.enter f r.mode) := .modifyFrame s f fun _ => rfl
      refine (ends_advance_entered n (r := r.goto (.entered f)) rfl _).mono (fun a s' h' => ?_) fun _ _ h' => h'
      obtain ⟨hi, h'⟩ := h'
      exact ⟨henter.trans hi, h'.of_goto rfl fun g hg => hg.of_goto henter.trace⟩
    · exact ⟨.refl s, r.stage, hr ▸ nofun, rfl⟩

/-- What a request has given: the page that it asked for, as the transaction has been shown it. Unless the page had been
pinned before, it is in the frame of the guard, as the cache or the file had it. -/
structure Gives (s : Store) (r : Request) (g : Guard) (s' : Store) : Prop where
  answers : g.Answers r
  saw : ∃ past, s'.trace = .saw r.txn r.page (g.bytes s') :: past ∧ s.trace <:+ past
  seated : r.stage.isPinned = false → s.Seated r g.frame s'

/-- A request that goes on from a page that is pinned has the page where it is. -/
theorem Looks.gives {g : Guard} (h : s.Looks r f g s') (hr : r.stage.isPinned = true) : s.Gives r g s' where
  answers := h.answers
  saw := h.saw
  seated hn := nomatch hn.symm.trans hr

/-- Once the page is locked and fetched, only the latch of its frame is left. -/
theorem Settled.ends_lock (h : s.Settled pins) (hone : s.volume.Single) (r : Request) (n : Nat) : r.lock.Ends s
    (fun p s' => match p with
      | .finished g => s.Reads pins s' ∧ r.Halts (s.Gives r) (.done g) s'
      | .moved r' => (Action.advance Request.step n r').Ends s' (fun a s' => s.Reads pins s' ∧ r.Halts (s.Gives r) a s')
          fun _ s' => s.Reads pins s'
      | .blocked r' => s.Reads pins s' ∧ r.Halts (s.Gives r) (.waiting r') s')
    fun _ s' => s.Reads pins s' := by
  refine (h.lock hone r).mono (fun p s₁ h₁ => ?_) fun _ _ h' => h'
  obtain ⟨hreads, h₁⟩ := h₁
  cases p with
  | finished g => exact h₁.elim
  | moved r' =>
    obtain ⟨f, rfl, hseated⟩ := h₁
    refine (ends_advance_fetched n (r := r.goto (.fetched f)) rfl s₁).mono (fun a s' h' => ?_) fun _ _ h' => h'.elim
    obtain ⟨hi, h'⟩ := h'
    refine ⟨hreads.trans (hi.reads pins), h'.of_goto rfl fun g hg => ?_⟩
    have hlooks : s.Looks r f g s' := hg.of_goto hreads.trace
    exact ⟨hlooks.answers, hlooks.saw, fun _ => hlooks.frame ▸ hseated.idles hi⟩
  | blocked r' =>
    obtain ⟨signals, rfl⟩ := h₁
    exact ⟨hreads, .locking signals, nofun, rfl⟩

/-- A request, whatever it comes to, changes no page. -/
theorem Settled.request (h : s.Settled pins) (hone : s.volume.Single) (r : Request) :
    r.run.Ends s (fun a s' => s.Reads pins s' ∧ r.Halts (s.Gives r) a s') fun _ s' => s.Reads pins s' := by
  have hsame : s.Reads pins s := (Idles.refl s).reads pins
  have hpinned : ∀ f, r.stage.isPinned = true → r.run.Ends s (fun a s' => s.Idles s' ∧ r.Halts (s.Looks r f) a s')
      (fun _ _ => False) → r.run.Ends s (fun a s' => s.Reads pins s' ∧ r.Halts (s.Gives r) a s')
      fun _ s' => s.Reads pins s' := fun f hr hrun =>
    hrun.mono (fun _ _ h' => ⟨h'.1.reads pins, h'.2.of_goto rfl fun _ hg => hg.gives hr⟩) fun _ _ h' => h'.elim
  cases hstage : r.stage with
  | fetched f => exact hpinned f (hstage ▸ rfl) (ends_advance_fetched 3 hstage s)
  | entered f => exact hpinned f (hstage ▸ rfl) (ends_advance_entered 3 hstage s)
  | fresh =>
    rw [Request.run, ends_advance_succ, Request.step.eq_1 r, ends_bind, ends_get, hstage]
    dsimp only
    split
    · exact hsame
    · exact (h.ends_lock hone r 2).mono (fun p _ h' => by cases p <;> exact h') fun _ _ h' => h'
  | locking signals =>
    rw [Request.run, ends_advance_succ, Request.step.eq_1 r, ends_bind, ends_get, hstage]
    dsimp only
    split
    · exact ⟨hsame, r.stage, hstage ▸ nofun, rfl⟩
    · exact (h.ends_lock hone r 2).mono (fun p _ h' => by cases p <;> exact h') fun _ _ h' => h'

end Store

end TupleStore
