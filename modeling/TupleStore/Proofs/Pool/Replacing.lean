import TupleStore.Proofs.Pool.Turns
import TupleStore.Proofs.Pool.Underway

/-!
# Frames for pages that are not cached

How the cache comes by a frame for a page, told exactly. It takes a spare frame if there is one, be it free or
discarded and no longer in use. Otherwise it chooses a victim, writes it if it is dirty, and only then takes the page
out of its frame. If it cannot come by a frame, nothing has happened but that discarded frames have become free and
that the clock has turned.

* `Store.Intact` : what an action leaves as it was that comes to nothing;
* `Pool.Reusable` : a spare frame. There is no frame to be had exactly if all are pinned (`Pool.Accounted.full_iff`);
* `Store.Evicts` : a page has left its frame. At the moment before, it was the same there and in its file;
* `Store.Takes` : a spare frame or that of a victim, as `takeFrame` finds it (`Tidy.takeFrame`);
* `Tidy.load`, `Tidy.fetch` : the same for a page that is read, and what can stand against it (`Store.Denies`).
-/

namespace TupleStore

set_option autoImplicit false

open TupleStore.Action

/-! ## Stores left intact -/

/-- What an action leaves as it was that comes to nothing. Discarded frames that nobody uses any more may have become
free; reference bits and hand of the clock, and counters other than that of evictions, are not spoken of. -/
structure Store.Intact (s s' : Store) : Prop where
  volume : s'.volume = s.volume
  catalog : s'.catalog = s.catalog
  log : s'.log = s.log
  trace : s'.trace = s.trace
  config : s'.pool.config = s.pool.config
  capacity : s'.pool.capacity = s.pool.capacity
  table : s'.pool.pageTable = s.pool.pageTable
  retained : s'.pool.retained = s.pool.retained
  /-- Some frames have moved from the discarded ones to the free ones, and all others are as they were. -/
  moved : ∃ ready : List FrameId, s'.pool.free = ready ++ s.pool.free ∧
    (ready ++ s'.pool.pendingFree).Perm s.pool.pendingFree ∧ (∀ f ∈ ready, s.pool.isPinned f = false) ∧
    ∀ f, s'.pool.frame f = if f ∈ ready then (s.pool.frame f).reset else s.pool.frame f
  tracked : ∀ f, s'.pool.clock.tracks f = s.pool.clock.tracks f
  fit : s.pool.clock.Fit → s'.pool.clock.Fit
  locks : s'.pool.locks = s.pool.locks
  signals : s'.pool.signals = s.pool.signals
  doomed : s'.pool.doomed = s.pool.doomed
  evictions : s'.pool.counters.evictions = s.pool.counters.evictions

variable {s s' s'' s₁ : Store} {pins : List FrameId} {f : FrameId} {page : PageId}

namespace Store.Intact

theorem pins_eq (h : s.Intact s') (f : FrameId) : (s'.pool.frame f).pins = (s.pool.frame f).pins := by
  obtain ⟨ready, -, -, -, hframe⟩ := h.moved
  rw [hframe]
  split <;> rfl

theorem isPinned (h : s.Intact s') (f : FrameId) : s'.pool.isPinned f = s.pool.isPinned f := by
  rw [Pool.isPinned, h.pins_eq, Pool.isPinned]

theorem refl (s : Store) : s.Intact s where
  volume := rfl
  catalog := rfl
  log := rfl
  trace := rfl
  config := rfl
  capacity := rfl
  table := rfl
  retained := rfl
  moved := ⟨[], rfl, .refl _, nofun, fun _ => (if_neg List.not_mem_nil).symm⟩
  tracked _ := rfl
  fit := id
  locks := rfl
  signals := rfl
  doomed := rfl
  evictions := rfl

theorem trans (h : s.Intact s') (h' : s'.Intact s'') : s.Intact s'' where
  volume := h'.volume.trans h.volume
  catalog := h'.catalog.trans h.catalog
  log := h'.log.trans h.log
  trace := h'.trace.trans h.trace
  config := h'.config.trans h.config
  capacity := h'.capacity.trans h.capacity
  table := h'.table.trans h.table
  retained := h'.retained.trans h.retained
  moved := by
    obtain ⟨ready, hfree, hpending, hidle, hframe⟩ := h.moved
    obtain ⟨ready', hfree', hpending', hidle', hframe'⟩ := h'.moved
    refine ⟨ready' ++ ready, by rw [hfree', hfree, List.append_assoc], ?_, fun f hf => ?_, fun f => ?_⟩
    · calc (ready' ++ ready ++ s''.pool.pendingFree).Perm (ready ++ (ready' ++ s''.pool.pendingFree)) := by
            rw [← List.append_assoc]
            exact List.perm_append_comm.append_right _
        _ |>.Perm (ready ++ s'.pool.pendingFree) := hpending'.append_left _
        _ |>.Perm s.pool.pendingFree := hpending
    · rcases List.mem_append.1 hf with hf | hf
      · exact (h.isPinned f).symm.trans (hidle' f hf)
      · exact hidle f hf
    · rw [hframe', hframe]
      simp only [List.mem_append]
      by_cases hf : f ∈ ready <;> by_cases hf' : f ∈ ready' <;> simp [hf, hf', Frame.reset]
  tracked f := (h'.tracked f).trans (h.tracked f)
  fit hf := h'.fit (h.fit hf)
  locks := h'.locks.trans h.locks
  signals := h'.signals.trans h.signals
  doomed := h'.doomed.trans h.doomed
  evictions := h'.evictions.trans h.evictions

/-- Discarded frames that are no longer in use become free. -/
theorem reclaim (s : Store) : s.Intact (s.modifyPool Pool.reclaim) := by
  obtain ⟨frames, free, pendingFree, hlen, e⟩ := Pool.Accounted.reclaim_eq s.pool
  have hpool : (s.modifyPool Pool.reclaim).pool = { s.pool with frames, free, pendingFree } := e
  refine ⟨rfl, rfl, rfl, rfl, by rw [hpool], ?_, by rw [hpool], by rw [hpool],
    ⟨(s.pool.pendingFree.filter fun f => !s.pool.isPinned f).reverse, rfl, ?_, fun f hf => ?_, fun f => ?_⟩,
    fun f => ?_, ?_, by rw [hpool], by rw [hpool], by rw [hpool], by rw [hpool]⟩
  · rw [hpool]
    exact hlen
  · exact ((List.reverse_perm _).append_right _).trans
      (List.perm_append_comm.trans (List.filter_append_perm s.pool.isPinned s.pool.pendingFree))
  · rw [List.mem_reverse, List.mem_filter, Bool.not_eq_true'] at hf
    exact hf.2
  · simp only [List.mem_reverse]
    exact Pool.Accounted.frame_reclaim s.pool f
  · rw [hpool]
  · rw [hpool]
    exact id

/-! ### Pages -/

section

variable (h : s.Intact s') (ha : s.pool.Accounted pins none)

include h ha

/-- Frames that hold pages are as they were. -/
theorem frame (hf : (s.pool.frame f).page ≠ none) : s'.pool.frame f = s.pool.frame f := by
  obtain ⟨ready, -, hpending, -, hframe⟩ := h.moved
  rw [hframe, if_neg fun hin => hf ?_]
  exact ((ha.spare f).1 (List.mem_append_right _ (hpending.mem_iff.1 (List.mem_append_left _ hin)))).2.1

theorem page_eq (f : FrameId) : (s'.pool.frame f).page = (s.pool.frame f).page := by
  by_cases hf : (s.pool.frame f).page = none
  · obtain ⟨ready, -, -, -, hframe⟩ := h.moved
    rw [hframe]
    split
    · exact hf.symm
    · rfl
  · rw [h.frame ha hf]

theorem copies (q : PageId) : s'.copies q = s.copies q := by
  have hfind : s'.pool.find? q = s.pool.find? q := by
    unfold Pool.find?
    rw [h.table]
  have hfile : s'.onFile q = s.onFile q := by
    unfold Store.onFile
    rw [h.volume, h.catalog]
  unfold Store.copies
  rw [hfind, h.retained, hfile]
  cases hf : s.pool.find? q with
  | none => rfl
  | some f =>
    have hpage : (s.pool.frame f).page ≠ none := (ha.mapped q f).1 hf ▸ Option.some_ne_none q
    rw [Option.map_some, Option.map_some, h.frame ha hpage]

theorem obstacle?_eq (q : PageId) : s'.obstacle? q = s.obstacle? q := by
  have hfault : s'.fault? = s.fault? :=
    Store.fault?_congr (h.volume ▸ .refl _) h.catalog (congrArg Config.pageSize h.config)
  rw [Store.obstacle?_eq, Store.obstacle?_eq, h.copies ha, hfault]

end

end Store.Intact

/-! ## Spare frames -/

namespace Pool

/-- The frame is free, or it was discarded and nobody uses it any more. -/
def Reusable (p : Pool) (f : FrameId) : Prop := f ∈ p.free ∨ f ∈ p.pendingFree ∧ p.isPinned f = false

variable {p : Pool}

theorem mem_free_reclaim : f ∈ p.reclaim.free ↔ p.Reusable f := by
  show f ∈ (p.pendingFree.filter fun f => !p.isPinned f).reverse ++ p.free ↔ _
  rw [List.mem_append, List.mem_reverse, List.mem_filter, Bool.not_eq_true', or_comm, Reusable]

namespace Accounted

theorem isPinned_iff (h : p.Accounted pins none) : p.isPinned f = true ↔ f ∈ pins := by
  rw [isPinned, decide_eq_true_iff, h.pinned, List.count_pos_iff]

theorem of_reusable (h : p.Accounted pins none) (hf : p.Reusable f) : f < p.capacity ∧ p.isPinned f = false := by
  rcases hf with hf | ⟨hf, hp⟩
  · refine ⟨((h.spare f).1 (List.mem_append_left _ hf)).1, ?_⟩
    rw [isPinned, (h.clean f hf).1]
    rfl
  · exact ⟨((h.spare f).1 (List.mem_append_right _ hf)).1, hp⟩

/-- No frame is to be had exactly if all are pinned: none is spare, and none that holds a page can be a victim. -/
theorem full_iff (h : p.Accounted pins none) :
    (∀ f, ¬ p.Reusable f) ∧ (∀ f, p.clock.tracks f = true → p.isPinned f = true) ↔
      ∀ f < p.capacity, p.isPinned f = true := by
  constructor
  · rintro ⟨hnone, htracked⟩ f hlt
    by_cases hpage : (p.frame f).page = none
    · have hf := hnone f
      rw [Reusable, not_or, not_and, Bool.not_eq_false] at hf
      have hin := (h.spare f).2 ⟨hlt, hpage, (Option.some_ne_none f).symm⟩
      exact hf.2 ((List.mem_append.1 hin).resolve_left hf.1)
    · exact htracked f ((h.tracked f).2 ⟨hpage, (Option.some_ne_none f).symm⟩)
  · intro hall
    refine ⟨fun f hf => ?_, fun f ht => hall f ?_⟩
    · obtain ⟨hlt, hidle⟩ := h.of_reusable hf
      rw [hall f hlt] at hidle
      cases hidle
    · obtain ⟨page, hpage⟩ := Option.ne_none_iff_exists'.1 ((h.tracked f).1 ht).1
      exact lt_of_page hpage

end Accounted

end Pool

namespace Store

/-- A spare frame is to be had in a store exactly if it was before. -/
theorem Intact.reusable_iff (h : s.Intact s') : s'.pool.Reusable f ↔ s.pool.Reusable f := by
  obtain ⟨ready, hfree, hpending, hidle, -⟩ := h.moved
  unfold Pool.Reusable
  rw [hfree, List.mem_append, h.isPinned]
  have hin := hpending.mem_iff (a := f)
  rw [List.mem_append] at hin
  have hf := hidle f
  tauto

/-! ## Victims -/

/-- The store with a page taken out of its frame for another one. -/
def vacate (s : Store) (f : FrameId) (page : PageId) : Store :=
  s.modifyPool fun p => (p.unmap f page).count fun c => { c with evictions := c.evictions + 1 }

theorem copies_vacate (hm : s.pool.Maps) (hf : (s.pool.frame f).page = some page) (q : PageId) :
    (s.vacate f page).copies q = if q = page then (s.copies q).leave else s.copies q := by
  obtain ⟨hself, hother⟩ := Store.copies_unmap hm hf
  by_cases e : q = page
  · rw [if_pos e, e, Store.copies_eq hm hf]
    exact hself
  · rw [if_neg e]
    exact hother q e

/-- A page that nobody uses has left its frame. At `s₁` it was still there, and the same there and in its file. -/
structure Evicts (s : Store) (f : FrameId) (page : PageId) (s₁ s' : Store) : Prop where
  held : (s.pool.frame f).page = some page
  idle : s.pool.isPinned f = false
  table : s₁.pool.pageTable = s.pool.pageTable
  maps : s₁.pool.Maps
  flushed : ∀ q, s₁.copies q = if q = page then (s.copies q).flush else s.copies q
  evictions : s₁.pool.counters.evictions = s.pool.counters.evictions
  capacity : s₁.pool.capacity = s.pool.capacity
  left : s' = s₁.vacate f page

/-- What was so in a store left intact was so before. -/
theorem Intact.evicts (h : s.Intact s') (ha : s.pool.Accounted pins none) (h' : s'.Evicts f page s₁ s'') :
    s.Evicts f page s₁ s'' where
  held := (h.page_eq ha f).symm.trans h'.held
  idle := (h.isPinned f).symm.trans h'.idle
  table := h'.table.trans h.table
  maps := h'.maps
  flushed q := by
    rw [h'.flushed, h.copies ha]
  evictions := h'.evictions.trans h.evictions
  capacity := h'.capacity.trans h.capacity
  left := h'.left

/-- No other page is touched. -/
theorem Evicts.copies (h : s.Evicts f page s₁ s') (ha : s.pool.Accounted pins none) (q : PageId) :
    s'.copies q = if q = page then (s.copies q).flush.leave else s.copies q := by
  have hfind : s₁.pool.find? page = some f := by
    rw [Pool.find?, h.table]
    exact (ha.mapped page f).2 h.held
  rw [h.left, copies_vacate h.maps ((h.maps page f).1 hfind), h.flushed]
  by_cases e : q = page
  · rw [if_pos e, if_pos e, if_pos e]
  · rw [if_neg e, if_neg e, if_neg e]

/-- Why no frame is to be had: all are pinned, or a victim cannot be written. -/
inductive Stuck (s : Store) : Error → Prop where
  | full (h : ∀ f < s.pool.capacity, s.pool.isPinned f = true) : Stuck s .noEvictablePage
  | victim {page : PageId} {e : Error} (h : s.obstacle? page = some e) : Stuck s e

theorem Intact.stuck (h : s.Intact s') (ha : s.pool.Accounted pins none) {e : Error} (h' : s'.Stuck e) : s.Stuck e := by
  cases h' with
  | full hall => exact .full fun f hf => (h.isPinned f).symm.trans (hall f (h.capacity.symm ▸ hf))
  | victim hstop => exact .victim ((h.obstacle?_eq ha _).symm.trans hstop)

/-- A frame is emptied, its page being written before if it is dirty. If it cannot be written, nothing is done. -/
theorem Tidy.evict (h : s.Tidy) {out : Option FrameId} (ha : s.pool.Accounted pins out)
    (hf : (s.pool.frame f).page = some page) : (Action.evict f).Ends s
    (fun _ s' => ∃ s₁ : Store, s₁.pool.pageTable = s.pool.pageTable ∧ s₁.pool.Maps ∧
      (∀ q, s₁.copies q = if q = page then (s.copies q).flush else s.copies q) ∧
      s₁.pool.counters.evictions = s.pool.counters.evictions ∧ s₁.pool.capacity = s.pool.capacity ∧
      s' = s₁.vacate f page)
    fun e s' => s' = s ∧ s.obstacle? page = some e := by
  have hb : s.Balanced s.volume pins out := ⟨ha, .refl _⟩
  have hcounters := keeps_writeBack f page
    (fun p => p.counters.evictions = s.pool.counters.evictions ∧ p.capacity = s.pool.capacity)
    (fun p hp => ⟨hp.1, (Pool.length_modifyFrame p f _).trans hp.2⟩) s ⟨hb, rfl, rfl⟩
  unfold Action.evict
  rw [ends_bind, ends_get, hf]
  dsimp only
  rw [ends_bind]
  refine (((Underway.refl h).writeBack h ha.mapped hf).and hcounters).mono (fun _ s₁ h₁ => ?_) fun _ _ h' => h'.1
  obtain ⟨⟨hunder, -, hcopies⟩, -, he⟩ := h₁
  exact ⟨s₁, hunder.table, hunder.maps ha.mapped, hcopies, he.1, he.2, rfl⟩

/-- A victim leaves its frame, if there is one and it can be written. -/
theorem Tidy.takeVictim (h : s.Tidy) (ha : s.pool.Accounted pins none) (hfit : s.pool.clock.Fit)
    (hnone : ∀ f, ¬ s.pool.Reusable f) : Action.takeVictim.Ends s
    (fun f s' => ∃ page s₁, s.Evicts f page s₁ s') fun e s' => s.Intact s' ∧ s.Stuck e := by
  have hall := Clock.evict_eq_none_iff hfit s.pool.isPinned
  have hof := @Clock.of_evict s.pool.clock s.pool.isPinned
  have hfit' := hfit.evict s.pool.isPinned
  -- a clock that accounts for the same frames tracks the same frames
  have hturned : ∀ {clock : Clock}, Pool.Accounted pins none { s.pool with clock } → clock.Fit →
      s.Intact (s.modifyPool fun p => { p with clock }) := fun ha' hc =>
    { Intact.refl s with
      tracked := fun g => Bool.eq_iff_iff.2 ((ha'.tracked g).trans (ha.tracked g).symm)
      fit := fun _ => hc }
  unfold Action.takeVictim
  rw [ends_bind, ends_get]
  cases hv : s.pool.clock.evict s.pool.isPinned with
  | mk victim clock =>
    obtain ⟨hp, hpage⟩ := ha.takeVictim hv
    rw [hv] at hall hof hfit'
    simp only [hv]
    rw [ends_bind, ends_modifyPool]
    cases victim with
    | none => exact ⟨hturned hp hfit', .full (ha.full_iff.1 ⟨hnone, hall.1 rfl⟩)⟩
    | some f =>
      obtain ⟨page, hf⟩ := Option.ne_none_iff_exists'.1 (hpage f rfl)
      have ht : (s.modifyPool fun p => { p with clock }).Tidy := ⟨h.pool.congr rfl rfl rfl, h.tables⟩
      show ((Action.evict f).orElseDo _ >>= _).Ends _ _ _
      rw [ends_bind, ends_orElseDo]
      refine (ht.evict (s := s.modifyPool fun p => { p with clock }) hp hf).mono (fun _ s' h' => ?_) fun e s' h' => ?_
      · obtain ⟨s₁, htable, hmaps, hflushed, he, hcapacity, hleft⟩ := h'
        exact ⟨page, s₁, hf, (hof rfl).2, htable, hmaps, hflushed, he, hcapacity, hleft⟩
      · obtain ⟨rfl, hstop⟩ := h'
        exact ⟨hturned (hp.touch (hpage f rfl) fun g e => (Option.some.inj e).symm) (hfit'.access f), .victim hstop⟩

/-! ## Frames taken -/

/-- A frame comes to the use of a page: a spare one, or that of a victim if none is spare. -/
inductive Takes (s : Store) (f : FrameId) : Store → Prop where
  | spare {t : Store} {rest : List FrameId} (h : s.Intact t) (hf : t.pool.free = f :: rest) :
    Takes s f (t.modifyPool fun p => { p with free := rest })
  | victim {page : PageId} {s₁ s' : Store} (hnone : ∀ g, ¬ s.pool.Reusable g) (h : s.Evicts f page s₁ s') :
    Takes s f s'

theorem Intact.takes (h : s.Intact s') (ha : s.pool.Accounted pins none) (h' : s'.Takes f s'') : s.Takes f s'' := by
  cases h' with
  | spare hi hf => exact .spare (h.trans hi) hf
  | victim hnone he => exact .victim (fun g hg => hnone g (h.reusable_iff.2 hg)) (h.evicts ha he)

/-- A frame that is taken was not in use. -/
theorem Takes.idle (h : s.Takes f s') (ha : s.pool.Accounted pins none) :
    f < s.pool.capacity ∧ s.pool.isPinned f = false := by
  cases h with
  | spare hi hf => exact ha.of_reusable (hi.reusable_iff.1 (.inl (hf ▸ List.mem_cons_self ..)))
  | victim _ he => exact ⟨Pool.lt_of_page he.held, he.idle⟩

theorem Tidy.takeFrame (h : s.Tidy) (ha : s.pool.Accounted pins none) (hfit : s.pool.clock.Fit) :
    Action.takeFrame.Ends s s.Takes fun e s' => s.Intact s' ∧ s.Stuck e := by
  have hi := Intact.reclaim s
  have hconfig := congrArg Config.pageSize hi.config
  unfold Action.takeFrame
  rw [ends_bind, ends_modifyPool, ends_bind, ends_get]
  cases hfree : (s.modifyPool Pool.reclaim).pool.free with
  | cons f rest => exact .spare hi hfree
  | nil =>
    have hnone : ∀ f, ¬ (s.modifyPool Pool.reclaim).pool.Reusable f := fun f hf => by
      have hin := Pool.mem_free_reclaim.2 (hi.reusable_iff.1 hf)
      rw [show s.pool.reclaim.free = [] from hfree] at hin
      exact List.not_mem_nil hin
    have ht : (s.modifyPool Pool.reclaim).Tidy := ⟨hconfig ▸ h.pool.reclaim, h.tables⟩
    refine (ht.takeVictim ha.reclaim (hi.fit hfit) hnone).mono (fun f s' h' => ?_) fun e s' h' => ?_
    · obtain ⟨page, s₁, he⟩ := h'
      exact hi.takes ha (.victim hnone he)
    · exact ⟨hi.trans h'.1, hi.stuck ha h'.2⟩

/-! ## Pages read -/

/-- The store with a page put in an empty frame, where it is pinned. -/
def seat (s : Store) (f : FrameId) (page : PageId) (bytes : Bytes) : Store :=
  { s with pool := ((s.pool.install f page bytes).pin f).touch f, trace := .loaded page :: s.trace }

theorem copies_seat {v : Volume} (hr : Ready v pins page f s) (bytes : Bytes) (q : PageId) :
    (s.seat f page bytes).copies q =
      if q = page then ⟨some ⟨bytes, none, (s.copies page).kept⟩, none, s.onFile page⟩ else s.copies q := by
  obtain ⟨hself, hother⟩ := copies_install hr.balanced.pool.mapped hr.lt hr.empty page bytes
  have hpin : (s.seat f page bytes).copies q = (s.modifyPool fun p => p.install f page bytes).copies q :=
    copies_congr (s := s.modifyPool fun p => p.install f page bytes)
      (fun g => Pool.modifyFrame_keeps (s.pool.install f page bytes) f g
        (c := fun x => { x with pins := x.pins + 1 }) Frame.copy fun _ => rfl) (fun _ => rfl) rfl q
  by_cases e : q = page
  · rw [if_pos e, hpin, e, hself]
  · rw [if_neg e, hpin, hother q e]

/-- What stands against a page that is not cached: its table, its number, or that no frame is to be had for it. -/
inductive Denies (s : Store) (page : PageId) : Error → Prop where
  | fault {e : Error} (h : s.fault? page.table = some e) : Denies s page e
  | beyond (h : ¬ s.volume.HasPage s.catalog s.pool.config.pageSize page) : Denies s page (.pageNotFound page)
  | stuck {e : Error} (h : s.Stuck e) : Denies s page e

theorem fault?_of_hasPage (h : s.volume.HasPage s.catalog s.pool.config.pageSize page) :
    s.fault? page.table = none := by
  obtain ⟨hd, file, ht, hsize, -⟩ := h
  unfold fault? Volume.pageSize?
  rw [ht]
  exact if_pos hsize

/-- A page is read through the handle of its table if it lies in the file. -/
theorem Tidy.readPage (h : s.Tidy) {hd : HandleId} {file : HeapFile}
    (ht : s.volume.table? s.catalog page.table = some (hd, file)) : (Action.readPage hd page).Ends s
    (fun bytes s' => s' = s ∧ bytes = s.onFile page) fun e s' => s' = s ∧ s.Denies page e := by
  have hid := h.tables.id_eq ht
  unfold Action.readPage
  rw [ends_bind, ends_of_ok (file_of_some (s := s) (Volume.table?_eq_some_iff.1 ht).2), ends_bind, ends_get]
  unfold Volume.readPage PageFile.read
  rw [if_pos hid.symm]
  by_cases hn : page.number < file.pages.pageCount
  · rw [if_pos hn]
    refine ⟨rfl, ?_⟩
    unfold onFile Volume.pageBytes
    rw [ht]
  · rw [if_neg hn]
    refine ⟨rfl, .beyond fun hthere => hn ?_⟩
    obtain ⟨hd', file', ht', -, hn'⟩ := hthere
    cases ht.symm.trans ht'
    exact hn'

theorem Intact.count (h : s.Intact s') {g : Counters → Counters} (hg : ∀ c, (g c).evictions = c.evictions) :
    s.Intact (s'.modifyPool fun p => p.count g) :=
  h.trans { Intact.refl s' with evictions := hg _ }

/-- A page comes into a frame, or nothing but the clock and the counters has changed. -/
theorem Tidy.load (h : s.Tidy) (ha : s.pool.Accounted pins none) (hfit : s.pool.clock.Fit)
    (hmiss : s.pool.find? page = none) : (Action.load page).Ends s
    (fun f s' => ∃ s₂, s.Takes f s₂ ∧ Ready s.volume pins page f s₂ ∧ s' = s₂.seat f page (s.onFile page))
    fun e s' => s.Intact s' ∧ s.Denies page e := by
  unfold Action.load
  let s₁ := s.modifyPool fun p => p.count fun c => { c with misses := c.misses + 1 }
  have h₁ : s₁.Tidy := ⟨h.pool.congr rfl rfl rfl, h.tables⟩
  have hi₁ : s.Intact s₁ := (Intact.refl s).count fun _ => rfl
  rw [ends_bind, ends_modifyPool, ends_bind]
  refine (h₁.resolve page.table).mono (fun hd t h' => ?_) fun e t h' => ?_
  · obtain ⟨rfl, -, file, ht, -⟩ := h'
    rw [ends_bind]
    refine (h₁.readPage ht).mono (fun bytes t h' => ?_) fun e t h' => ?_
    · obtain ⟨rfl, rfl⟩ := h'
      let s₂ := s₁.modifyPool fun p => p.count fun c => { c with pagesRead := c.pagesRead + 1 }
      have h₂ : s₂.Tidy := ⟨h₁.pool.congr rfl rfl rfl, h₁.tables⟩
      have hi₂ : s.Intact s₂ := hi₁.count fun _ => rfl
      rw [ends_bind, ends_modifyPool, ends_bind]
      have ha₂ : s₂.pool.Accounted pins none := ha.congr rfl rfl rfl rfl rfl rfl
      have hready : Action.takeFrame.Ends s₂ (Ready s.volume pins page) fun _ s' => s'.Balanced s.volume pins none :=
        ends_takeFrame_balanced ⟨ha₂, .refl _⟩ hmiss
      refine ((h₂.takeFrame ha₂ hfit).and hready).mono (fun f s₃ h' => ?_) fun e s₃ h' => ?_
      · exact ⟨s₃, hi₂.takes ha h'.1, h'.2, rfl⟩
      · exact ⟨hi₂.trans h'.1.1, .stuck (hi₂.stuck ha h'.1.2)⟩
    · obtain ⟨rfl, hdenies⟩ := h'
      refine ⟨hi₁, ?_⟩
      cases hdenies with
      | fault hf => exact .fault hf
      | beyond hn => exact .beyond hn
      | stuck hs => exact .stuck (hi₁.stuck ha hs)
  · obtain ⟨rfl, hfault⟩ := h'
    exact ⟨hi₁, .fault hfault⟩

/-- A page that is cached is found, and so nothing stands against it. -/
theorem Tidy.fetch (h : s.Tidy) (ha : s.pool.Accounted pins none) (hfit : s.pool.clock.Fit) (page : PageId) :
    (Action.fetch page).Ends s
      (fun f s' => s.pool.find? page = none →
        ∃ s₂, s.Takes f s₂ ∧ Ready s.volume pins page f s₂ ∧ s' = s₂.seat f page (s.onFile page))
      fun e s' => s.Intact s' ∧ s.Denies page e := by
  unfold Action.fetch
  rw [ends_bind, ends_get]
  cases hf : s.pool.find? page with
  | some f => exact nofun
  | none => exact (h.load ha hfit hf).mono (fun _ _ h' _ => h') fun _ _ h' => h'

end Store

end TupleStore
