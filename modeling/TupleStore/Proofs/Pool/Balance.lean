import TupleStore.Proofs.Custody
import TupleStore.Proofs.Pool.Accounting
import TupleStore.Proofs.Pool.Completing

/-!
# Frames accounted for

Whatever the cache does, and wherever it fails, its frames stay accounted for: a page that is fetched is one use
more, and nothing else leaves a use behind. Nothing is asked of files, locks, catalog and log.

* `Store.Balanced` : the frames are accounted for, and there are no fewer tables and pages than there were;
* `Action.Keeps` : an action that keeps a property of the store, whether it succeeds or fails;
* `keeps_writeBack`, `ends_takeFrame_balanced`, `ends_fetch_balanced` : pages into frames. A victim that cannot be
  written is tracked again;
* `keeps_complete` : ends of transactions, with whatever guards are held;
* `custody_balanced` : requests and calls.
-/

namespace TupleStore

set_option autoImplicit false

/-! ## Files -/

namespace Volume

variable {v v' : Volume} {h : HandleId} {f : HeapFile}

theorem extends_writePage (hf : v.handles[h]? = some f) {page : PageId} {bytes : Bytes}
    (hw : v.writePage h f page bytes = .ok v') : v.Extends v' := by
  unfold Volume.writePage PageFile.write at hw
  split at hw
  · split at hw
    · cases hw
    · rename_i hp
      split at hp
      · cases hp
        cases hw
        exact Registered.extends_update hf _ rfl (Nat.le_max_left _ _)
      · cases hp
  · cases hw

theorem extends_allocatePage (hf : v.handles[h]? = some f) : v.Extends (v.allocatePage h f).2 :=
  Registered.extends_update hf _ rfl (Nat.le_succ _)

end Volume

/-! ## Balanced stores -/

/-- The frames of a store are accounted for, and its tables are those of a volume, or larger. -/
structure Store.Balanced (v : Volume) (pins : List FrameId) (out : Option FrameId) (s : Store) : Prop where
  pool : s.pool.Accounted pins out
  grown : v.Extends s.volume

variable {α β : Type} {v : Volume} {pins : List FrameId} {out : Option FrameId} {s s' : Store} {f : FrameId}
  {page : PageId} {t : TxnId}

namespace Store.Balanced

theorem withPool (h : s.Balanced v pins out) {pins' : List FrameId} {out' : Option FrameId} {p : Pool}
    (hp : p.Accounted pins' out') : Store.Balanced v pins' out' { s with pool := p } :=
  ⟨hp, h.grown⟩

/-- A change that moves no frame and touches no file. -/
theorem congr (h : s.Balanced v pins out) (hv : s'.volume = s.volume) (hf : s'.pool.frames = s.pool.frames)
    (ht : s'.pool.pageTable = s.pool.pageTable) (hfree : s'.pool.free = s.pool.free)
    (hpending : s'.pool.pendingFree = s.pool.pendingFree) (hclock : s'.pool.clock = s.pool.clock)
    (hretained : s'.pool.retained = s.pool.retained) : s'.Balanced v pins out :=
  ⟨h.pool.congr hf ht hfree hpending hclock hretained, hv ▸ h.grown⟩

/-- Files that have grown. -/
theorem revolume (h : s.Balanced v pins out) {w : Volume} (hw : s.volume.Extends w) :
    Store.Balanced v pins out { s with volume := w } :=
  ⟨h.pool, h.grown.trans hw⟩

theorem modifyFrame (h : s.Balanced v pins out) (hf : f ∉ s.pool.free) {c : Frame → Frame}
    (hpage : ∀ x, (c x).page = x.page) (hpins : ∀ x, (c x).pins = x.pins) :
    (s.modifyPool fun p => p.modifyFrame f c).Balanced v pins out :=
  ⟨h.pool.modifyFrame hf hpage hpins, h.grown⟩

theorem taken_of_page (h : s.Balanced v pins out) (hf : (s.pool.frame f).page = some page) : f ∉ s.pool.free :=
  h.pool.taken_of_page (hf ▸ Option.some_ne_none page)

end Store.Balanced

namespace Action

/-! ## What is kept -/

/-- An action keeps a property of the store, whether it succeeds or fails. -/
def Keeps (P : Store → Prop) (x : Action α) : Prop := ∀ s, P s → x.Ends s (fun _ s' => P s') fun _ s' => P s'

namespace Keeps

variable {P : Store → Prop} {x : Action α}

theorem pure (a : α) : Keeps P (Pure.pure a) := fun _ h => h

theorem throw (e : Error) : Keeps P (MonadExcept.throw e : Action α) := fun _ h => h

theorem bind {y : Action β} {g : β → Action α} (hy : Keeps P y) (hg : ∀ b, Keeps P (g b)) : Keeps P (y >>= g) := by
  intro s h
  rw [ends_bind]
  exact (hy s h).mono (fun b s' h' => hg b s' h') fun _ _ h' => h'

theorem bind_get {g : Store → Action α} (hg : ∀ s, P s → (g s).Ends s (fun _ s' => P s') fun _ s' => P s') :
    Keeps P (MonadState.get >>= g) := by
  intro s h
  rw [ends_bind, ends_get]
  exact hg s h

theorem modifyPool {g : Pool → Pool} (h : ∀ s, P s → P (s.modifyPool g)) : Keeps P (Action.modifyPool g) :=
  fun s hs => h s hs

theorem andAlways {cleanup : Store → Store} (hx : Keeps P x) (hc : ∀ s, P s → P (cleanup s)) :
    Keeps P (x.andAlways cleanup) := by
  intro s h
  rw [ends_andAlways]
  exact (hx s h).mono (fun _ s' h' => hc s' h') fun _ s' h' => hc s' h'

/-- What is kept together with something else that holds in the beginning. -/
theorem within {R : Store → Prop} (hx : Keeps (fun s => P s ∧ R s) x) (h : P s) (hr : R s) :
    x.Ends s (fun _ s' => P s') fun _ s' => P s' :=
  (hx s ⟨h, hr⟩).mono (fun _ _ h' => h'.1) fun _ _ h' => h'.1

theorem forM {γ : Type} {body : γ → Action PUnit} (h : ∀ c, Keeps P (body c)) : ∀ l : List γ, Keeps P (l.forM body)
  | [] => pure _
  | c :: l => bind (h c) fun _ => forM h l

end Keeps

/-! ### Files and log -/

/-- A property that files which grow and a longer trace do not change. -/
structure Lasting (P : Store → Prop) : Prop where
  revolume : ∀ (s : Store) {w : Volume}, s.volume.Extends w → P s → P { s with volume := w }
  relog : ∀ (s : Store) (log : Log) (trace : List Effect), P s → P { s with log, trace }

variable {P : Store → Prop}

theorem Lasting.balanced : Lasting (Store.Balanced v pins out) :=
  ⟨fun _ _ hw h => h.revolume hw, fun _ _ _ h => ⟨h.pool, h.grown⟩⟩

/-- The same with something known of the pool besides. -/
theorem Lasting.and (h : Lasting P) (Q : Pool → Prop) : Lasting fun s => P s ∧ Q s.pool :=
  ⟨fun s _ hw hs => ⟨h.revolume s hw hs.1, hs.2⟩, fun s log trace hs => ⟨h.relog s log trace hs.1, hs.2⟩⟩

theorem keeps_file (h : HandleId) : Keeps P (file h) := fun _ hs =>
  (ends_file h).mono (fun _ _ h' => h'.1 ▸ hs) fun _ _ h' => h' ▸ hs

theorem keeps_resolve (table : TableId) : Keeps P (resolve table) := fun _ hs =>
  (ends_resolve_same table).mono (fun _ _ h' => h' ▸ hs) fun _ _ h' => h' ▸ hs

theorem keeps_readPage (h : HandleId) (page : PageId) : Keeps P (readPage h page) := by
  refine .bind (keeps_file h) fun g => .bind_get fun s hs => ?_
  cases s.volume.readPage g page with
  | ok _ => exact hs
  | error _ => exact hs

section Lasting

variable (hP : Lasting P)

include hP

theorem keeps_note (e : Effect) : Keeps P (note e) := fun s h => hP.relog s s.log (e :: s.trace) h

theorem keeps_append (r : LogRecord) : Keeps P (append r) := fun s h =>
  hP.relog s (s.log.append r) (.logged r :: s.trace) h

theorem keeps_force : Keeps P force := fun s h => hP.relog s s.log.force (.forced :: s.trace) h

theorem keeps_putPage (h : HandleId) (page : PageId) (bytes : Bytes) : Keeps P (putPage h page bytes) := by
  intro s hs
  unfold putPage
  rw [ends_bind]
  refine (ends_file h).mono (fun g s' h' => ?_) fun _ _ h' => h' ▸ hs
  obtain ⟨rfl, hfile⟩ := h'
  rw [ends_bind, ends_get, ends_bind]
  cases hw : s'.volume.writePage h g page bytes with
  | ok w => exact hP.revolume _ (Volume.extends_writePage hfile hw) hs
  | error e => exact hs

theorem keeps_writePage (h : HandleId) (page : PageId) (bytes : Bytes) : Keeps P (writePage h page bytes) :=
  .bind (keeps_putPage hP h page bytes) fun _ => keeps_note hP _

theorem keeps_writeRaw (h : HandleId) (page : PageId) (bytes : Bytes) : Keeps P (writeRaw h page bytes) :=
  .bind (keeps_putPage hP h page bytes) fun _ => keeps_note hP _

theorem keeps_allocatePage (h : HandleId) : Keeps P (allocatePage h) := by
  intro s hs
  unfold allocatePage
  rw [ends_bind]
  refine (ends_file h).mono (fun g s' h' => ?_) fun _ _ h' => h' ▸ hs
  obtain ⟨rfl, hfile⟩ := h'
  exact hP.revolume _ (Volume.extends_allocatePage hfile) hs

end Lasting

/-! ## Pages into frames -/

/-- A frame written to its file keeps its page. -/
theorem keeps_writeBack (f : FrameId) (page : PageId) (Q : Pool → Prop)
    (hQ : ∀ p, Q p → Q ((p.modifyFrame f Frame.written).count fun c => { c with pagesWritten := c.pagesWritten + 1 })) :
    Keeps (fun s => s.Balanced v pins out ∧ Q s.pool) (writeBack f page) := by
  refine .bind_get fun s hs => ?_
  dsimp only
  split
  · rename_i hd
    -- the frame holds the page until it is marked as written
    have hlast : Lasting fun s => (s.Balanced v pins out ∧ Q s.pool) ∧ (s.pool.frame f).page = some page :=
      (Lasting.balanced.and Q).and fun p => (p.frame f).page = some page
    have hwrite : ∀ h, Keeps (fun s => (s.Balanced v pins out ∧ Q s.pool) ∧ (s.pool.frame f).page = some page) (do
        writePage h page (s.pool.frame f).bytes
        modifyPool fun p => (p.modifyFrame f Frame.written).count fun c =>
          { c with pagesWritten := c.pagesWritten + 1 }) := fun h => by
      refine .bind (keeps_writePage hlast h page _) fun _ => .modifyPool fun s' hs' => ?_
      obtain ⟨⟨hb, hq⟩, hf⟩ := hs'
      refine ⟨⟨?_, hQ _ hq⟩, ?_⟩
      · exact (hb.modifyFrame (c := Frame.written) (hb.taken_of_page hf) (fun _ => rfl) fun _ => rfl).congr rfl rfl rfl rfl
          rfl rfl rfl
      · exact (Pool.modifyFrame_keeps s'.pool f f (c := Frame.written) Frame.page fun _ => rfl).trans hf
    refine Keeps.within (R := fun s => (s.pool.frame f).page = some page) ?_ hs hd.1
    refine .bind (keeps_resolve _) fun h => ?_
    split
    · exact hwrite h
    · exact .bind (keeps_append hlast _) fun _ => .bind (keeps_force hlast) fun _ => hwrite h
  · exact hs

/-- A frame that the clock does not track is emptied. If its page cannot be written, it stays. -/
theorem ends_evict_balanced (h : s.Balanced v pins (some f)) (hf : (s.pool.frame f).page ≠ none)
    (hmiss : s.pool.find? page = none) :
    (evict f).Ends s
      (fun _ s' => s'.Balanced v pins (some f) ∧ s'.pool.find? page = none ∧ f < s'.pool.frames.length ∧
        (s'.pool.frame f).page = none)
      fun _ s' => s'.Balanced v pins (some f) ∧ (s'.pool.frame f).page ≠ none := by
  obtain ⟨q, hq⟩ := Option.ne_none_iff_exists'.1 hf
  have hwrite : Keeps (fun s => s.Balanced v pins (some f) ∧ s.pool.find? page = none ∧ (s.pool.frame f).page = some q)
      (writeBack f q) :=
    keeps_writeBack f q (fun p => p.find? page = none ∧ (p.frame f).page = some q) fun p hp =>
      ⟨hp.1, (Pool.modifyFrame_keeps p f f (c := Frame.written) Frame.page fun _ => rfl).trans hp.2⟩
  unfold evict
  rw [ends_bind, ends_get, hq]
  dsimp only
  rw [ends_bind]
  refine (hwrite s ⟨h, hmiss, hq⟩).mono (fun _ s₁ h₁ => ?_) fun _ s₁ h₁ => ?_
  · obtain ⟨hb, hmiss₁, hq₁⟩ := h₁
    obtain ⟨hp, hempty⟩ := hb.pool.unmap hq₁
    have hlt : f < (s₁.pool.unmap f q).frames.length := (Pool.length_modifyFrame ..).symm ▸ Pool.lt_of_page hq₁
    rw [ends_modifyPool]
    refine ⟨(hb.withPool hp).congr rfl rfl rfl rfl rfl rfl rfl, ?_, hlt, hempty⟩
    show (s₁.pool.unmap f q).find? page = none
    rw [Pool.find?_unmap, hmiss₁, ite_self]
  · exact ⟨h₁.1, h₁.2.2 ▸ Option.some_ne_none q⟩

/-- A frame that holds nothing, on its way to another page. -/
structure Ready (v : Volume) (pins : List FrameId) (page : PageId) (f : FrameId) (s : Store) : Prop where
  balanced : s.Balanced v pins (some f)
  miss : s.pool.find? page = none
  lt : f < s.pool.frames.length
  empty : (s.pool.frame f).page = none

theorem ends_takeVictim_balanced (h : s.Balanced v pins none) (hmiss : s.pool.find? page = none) :
    takeVictim.Ends s (Ready v pins page) fun _ s' => s'.Balanced v pins none := by
  unfold takeVictim
  rw [ends_bind, ends_get]
  cases hv : s.pool.clock.evict s.pool.isPinned with
  | mk victim clock =>
    obtain ⟨hp, hpage⟩ := h.pool.takeVictim hv
    simp only [hv]
    rw [ends_bind, ends_modifyPool]
    cases victim with
    | none => exact ⟨hp, h.grown⟩
    | some f =>
      have hb : (s.modifyPool fun p => { p with clock }).Balanced v pins (some f) := ⟨hp, h.grown⟩
      show ((evict f).orElseDo _ >>= _).Ends _ _ _
      rw [ends_bind, ends_orElseDo]
      refine (ends_evict_balanced hb (hpage f rfl) hmiss).mono (fun _ s' h' => ?_) fun _ s' h' => ?_
      · exact ⟨h'.1, h'.2.1, h'.2.2.1, h'.2.2.2⟩
      · exact ⟨h'.1.pool.touch h'.2 fun g e => (Option.some.inj e).symm, h'.1.grown⟩

theorem ends_takeFrame_balanced (h : s.Balanced v pins none) (hmiss : s.pool.find? page = none) :
    takeFrame.Ends s (Ready v pins page) fun _ s' => s'.Balanced v pins none := by
  have h₁ : (s.modifyPool Pool.reclaim).Balanced v pins none := ⟨h.pool.reclaim, h.grown⟩
  have hmiss₁ : (s.modifyPool Pool.reclaim).pool.find? page = none := by
    obtain ⟨frames, free, pendingFree, -, e⟩ := Pool.Accounted.reclaim_eq s.pool
    unfold Store.modifyPool
    rw [e]
    exact hmiss
  unfold takeFrame
  rw [ends_bind, ends_modifyPool, ends_bind, ends_get]
  cases hfree : (s.modifyPool Pool.reclaim).pool.free with
  | cons f rest =>
    obtain ⟨hp, hlt, hempty⟩ := h₁.pool.takeFree hfree
    exact ⟨⟨hp, h.grown⟩, hmiss₁, hlt, hempty⟩
  | nil => exact ends_takeVictim_balanced h₁ hmiss₁

theorem ends_load_balanced (h : s.Balanced v pins none) (hmiss : s.pool.find? page = none) :
    (load page).Ends s (fun f s' => s'.Balanced v (f :: pins) none ∧ (s'.pool.frame f).page = some page)
      fun _ s' => s'.Balanced v pins none := by
  have hcount : ∀ s : Store, s.Balanced v pins none ∧ s.pool.find? page = none → ∀ g : Counters → Counters,
      (s.modifyPool fun p => p.count g).Balanced v pins none ∧ (s.modifyPool fun p => p.count g).pool.find? page = none :=
    fun s hs g => ⟨hs.1.congr rfl rfl rfl rfl rfl rfl rfl, hs.2⟩
  unfold load
  rw [ends_bind, ends_modifyPool, ends_bind]
  refine (keeps_resolve (P := fun s => s.Balanced v pins none ∧ s.pool.find? page = none) page.table _
    (hcount s ⟨h, hmiss⟩ _)).mono (fun hd s₁ h₁ => ?_) fun _ _ h' => h'.1
  rw [ends_bind]
  refine (keeps_readPage (P := fun s => s.Balanced v pins none ∧ s.pool.find? page = none) hd page _ h₁).mono
    (fun bytes s₂ h₂ => ?_) fun _ _ h' => h'.1
  rw [ends_bind, ends_modifyPool, ends_bind]
  obtain ⟨hb, hmiss₂⟩ := hcount s₂ h₂ fun c => { c with pagesRead := c.pagesRead + 1 }
  refine (ends_takeFrame_balanced hb hmiss₂).mono (fun f s₃ h₃ => ?_) fun _ _ h' => h'
  obtain ⟨hp, hf⟩ := h₃.balanced.pool.install h₃.lt h₃.empty h₃.miss bytes
  have hpin := hp.pin hf
  have hf₁ : (((s₃.pool.install f page bytes).pin f).frame f).page = some page :=
    (Pool.modifyFrame_keeps _ f f (c := fun x => { x with pins := x.pins + 1 }) Frame.page fun _ => rfl).trans hf
  rw [ends_bind, ends_modifyPool, ends_bind, ends_note, ends_pure]
  have htouch := hpin.touch (hf₁ ▸ Option.some_ne_none page) fun g e => (Option.some.inj e).symm
  exact ⟨⟨htouch, h₃.balanced.grown⟩, hf₁⟩

/-- A page that is fetched is one use more of its frame. -/
theorem ends_fetch_balanced (h : s.Balanced v pins none) (page : PageId) :
    (fetch page).Ends s (fun f s' => s'.Balanced v (f :: pins) none ∧ (s'.pool.frame f).page = some page)
      fun _ s' => s'.Balanced v pins none := by
  unfold fetch
  rw [ends_bind, ends_get]
  cases hp : s.pool.find? page with
  | none => exact ends_load_balanced h hp
  | some f =>
    have hf := (h.pool.mapped page f).1 hp
    have hpin := h.pool.pin hf
    have hf₁ : ((s.pool.pin f).frame f).page = some page :=
      (Pool.modifyFrame_keeps _ f f (c := fun x => { x with pins := x.pins + 1 }) Frame.page fun _ => rfl).trans hf
    have htouch := hpin.touch (hf₁ ▸ Option.some_ne_none page) fun g e => absurd e.symm (Option.some_ne_none g)
    exact ⟨Store.Balanced.congr (s := s.modifyPool fun p => (p.pin f).touch f) ⟨htouch, h.grown⟩ rfl rfl rfl rfl rfl rfl rfl,
      hf₁⟩

/-! ## Pinned pages -/

/-- Frames pinned, one after the other. -/
theorem balanced_pinAll (pinned : List (PageId × FrameId)) {pins : List FrameId} {s : Store} (h : s.Balanced v pins none)
    (hp : ∀ x ∈ pinned, (s.pool.frame x.2).page = some x.1) :
    (s.modifyPool fun p => pinned.foldl (fun p (_, f) => p.pin f) p).Balanced v (pinned.map Prod.snd ++ pins) none := by
  induction pinned generalizing pins s with
  | nil => exact h
  | cons x rest ih =>
    have h₁ : (s.modifyPool fun p => p.pin x.2).Balanced v (x.2 :: pins) none :=
      ⟨h.pool.pin (hp x (List.mem_cons_self ..)), h.grown⟩
    have h₂ := ih h₁ fun y hy => (Pool.modifyFrame_keeps s.pool x.2 y.2 (c := fun x => { x with pins := x.pins + 1 })
      Frame.page fun _ => rfl).trans (hp y (List.mem_cons_of_mem _ hy))
    exact ⟨h₂.pool.perm List.perm_middle, h₂.grown⟩

theorem balanced_unpinAll (pinned : List (PageId × FrameId)) {s : Store}
    (h : s.Balanced v (pinned.map Prod.snd ++ pins) none) :
    (s.modifyPool fun p => pinned.foldl (fun p (_, f) => p.unpin f) p).Balanced v pins none := by
  induction pinned generalizing s with
  | nil => exact h
  | cons x rest ih => exact ih (s := s.modifyPool fun p => p.unpin x.2) ⟨h.pool.unpin, h.grown⟩

theorem balanced_pinCached (h : s.Balanced v pins none) (pages : List PageId) :
    (s.modifyPool fun p => (cachedOf s.pool pages).foldl (fun p (_, f) => p.pin f) p).Balanced v
      ((cachedOf s.pool pages).map Prod.snd ++ pins) none :=
  balanced_pinAll _ h fun x hx => (h.pool.mapped x.1 x.2).1 (mem_cachedOf.1 hx).2

/-- Work on pages while they are pinned leaves no pin behind. -/
theorem keeps_withPinned (pages : List PageId) {body : List (PageId × FrameId) → Action Unit}
    (hbody : ∀ pins pinned, Keeps (Store.Balanced v pins none) (body pinned)) :
    Keeps (Store.Balanced v pins none) (withPinned pages body) := by
  intro s h
  unfold withPinned
  rw [ends_bind, ends_get, ends_bind, ends_modifyPool, ends_andAlways]
  exact (hbody _ _ _ (balanced_pinCached h pages)).mono (fun _ _ h' => balanced_unpinAll _ h')
    fun _ _ h' => balanced_unpinAll _ h'

/-! ## Ends of transactions -/

theorem keeps_count (g : Counters → Counters) :
    Keeps (Store.Balanced v pins none) (modifyPool fun p => p.count g) :=
  .modifyPool fun _ h => h.congr rfl rfl rfl rfl rfl rfl rfl

theorem keeps_logChange (t : TxnId) (page : PageId) (f : FrameId) :
    Keeps (Store.Balanced v pins none) (logChange t page f) := by
  refine .bind_get fun s hs => ?_
  dsimp only
  split
  · rename_i hf
    split
    · exact hs
    · rw [ends_bind, ends_modifyPool]
      exact keeps_append .balanced _ _ (hs.modifyFrame (hs.taken_of_page hf) (fun _ => rfl) fun _ => rfl)
  · exact hs

theorem keeps_writeBackAll (pinned : List (PageId × FrameId)) :
    Keeps (Store.Balanced v pins none) (writeBackAll pinned) :=
  .forM (fun x s h => (keeps_writeBack x.2 x.1 (fun _ => True) (fun _ _ => trivial) s ⟨h, trivial⟩).mono
    (fun _ _ h' => h'.1) fun _ _ h' => h'.1) pinned

theorem keeps_forget (t : TxnId) : Keeps (Store.Balanced v pins none) (modifyPool fun p => p.forget t) :=
  .modifyPool fun _ h => h.withPool (h.pool.forget t)

theorem keeps_commit (t : TxnId) (pages : List PageId) : Keeps (Store.Balanced v pins none) (commit t pages) := by
  refine .bind (keeps_withPinned pages fun pins pinned => ?_) fun _ => .bind (keeps_forget t) fun _ => keeps_note .balanced _
  refine .bind (.forM (fun x => keeps_logChange t x.1 x.2) pinned) fun _ => ?_
  exact .bind (keeps_append .balanced _) fun _ => .bind (keeps_force .balanced) fun _ => keeps_writeBackAll pinned

theorem keeps_restorePage (t : TxnId) (page : PageId) (f : FrameId) :
    Keeps (Store.Balanced v pins none) (restorePage t page f) := by
  refine .bind_get fun s hs => ?_
  dsimp only
  split
  · rename_i hf
    split
    · exact hs
    · rename_i b _
      rw [ends_bind, ends_modifyPool]
      have h₁ := hs.modifyFrame (c := fun x => x.restore b) (hs.taken_of_page hf) (fun _ => rfl) fun _ => rfl
      split
      · refine Keeps.bind (keeps_resolve _) (fun h => ?_) _ h₁
        exact .bind (keeps_writePage .balanced h page _) fun _ => .bind (keeps_count _) fun _ => keeps_count _
      · exact keeps_count _ _ h₁
  · exact hs

theorem keeps_restoreRetained (page : PageId) (b : BeforeImage) :
    Keeps (Store.Balanced v pins none) (restoreRetained page b) :=
  .bind (keeps_resolve _) fun h => .bind (keeps_writePage .balanced h page _) fun _ => keeps_count _

theorem keeps_rollback (t : TxnId) (pages : List PageId) : Keeps (Store.Balanced v pins none) (rollback t pages) := by
  have hpages : Keeps (Store.Balanced v pins none)
      (withPinned pages fun pinned => pinned.forM fun x => restorePage t x.1 x.2) :=
    keeps_withPinned pages fun pins pinned => .forM (fun x => keeps_restorePage t x.1 x.2) pinned
  have hretained : ∀ l : List (PageId × BeforeImage), Keeps (Store.Balanced v pins none)
      (l.forM fun x => restoreRetained x.1 x.2) := .forM fun x => keeps_restoreRetained x.1 x.2
  have hend : Keeps (Store.Balanced v pins none) (do
      append (.abort t)
      force
      note (.completed t false)) :=
    .bind (keeps_append .balanced _) fun _ => .bind (keeps_force .balanced) fun _ => keeps_note .balanced _
  unfold rollback
  refine .bind (keeps_note .balanced _) fun _ => .bind hpages fun _ => .bind_get fun s hs => ?_
  exact Keeps.bind (keeps_forget t) (fun _ => .bind (hretained _) fun _ => hend) s hs

/-- A transaction ends, whether it has given back its guards or not. -/
theorem keeps_complete (t : TxnId) (wantsCommit : Bool) :
    Keeps (Store.Balanced v pins none) (complete t wantsCommit) := by
  have hunlock : ∀ s : Store, s.Balanced v pins none → (unlock t s).Balanced v pins none := fun s h =>
    h.congr rfl rfl rfl rfl rfl rfl rfl
  intro s hs
  have hpardon : (s.modifyPool fun p => p.pardon t).Balanced v pins none := hs.congr rfl rfl rfl rfl rfl rfl rfl
  unfold complete
  rw [ends_bind, ends_get]
  dsimp only
  rw [ends_bind, ends_modifyPool]
  split
  · exact Keeps.bind (.andAlways (keeps_commit t _) hunlock) (fun _ => keeps_count _) _ hpardon
  · refine Keeps.bind (.andAlways (keeps_rollback t _) hunlock) (fun _ => .bind (keeps_count _) fun _ => ?_) _ hpardon
    cases wantsCommit with
    | true => exact .throw _
    | false => exact .pure _

end Action

/-! ## Requests and calls -/

open TupleStore.Action

theorem Store.Balanced.lock {uses : List Use} {r : Request} (h : s.Balanced v (uses.map Use.frame) none) :
    r.lock.Ends s
      (fun p s' => match p with
        | .finished _ => False
        | .moved r' => (∃ stage, r' = r.goto stage) ∧ s'.Balanced v ((r'.uses ++ uses).map Use.frame) none
        | .blocked r' => (∃ stage, r' = r.goto stage) ∧ s'.Balanced v ((r'.uses ++ uses).map Use.frame) none)
      fun _ s' => s'.Balanced v (uses.map Use.frame) none := by
  unfold Request.lock
  rw [ends_bind, ends_get]
  cases s.pool.locks.acquire r.txn r.page r.mode with
  | mk answer locks =>
    have h₁ : (s.modifyPool fun p => { p with locks }).Balanced v (uses.map Use.frame) none :=
      h.congr rfl rfl rfl rfl rfl rfl rfl
    dsimp only
    rw [ends_bind, ends_modifyPool]
    cases answer with
    | granted =>
      show (Action.fetch r.page >>= _).Ends _ _ _
      rw [ends_bind]
      exact (ends_fetch_balanced h₁ r.page).mono (fun f s' h' => ⟨⟨_, rfl⟩, h'.1⟩) fun _ _ h' => h'
    | waits => exact ⟨⟨_, rfl⟩, h₁⟩
    | refused => exact h₁.congr rfl rfl rfl rfl rfl rfl rfl

theorem Store.Balanced.beginChange {g : Guard} {uses : List Use} (h : s.Balanced v ((g.use :: uses).map Use.frame) none) :
    g.beginChange.Ends s
      (fun g' s' => g' = { g with changed := true } ∧ Grip.any.On s' g'.use ∧
        s'.Balanced v ((g'.use :: uses).map Use.frame) none ∧ g'.bytes s' = g.bytes s) fun _ _ => False := by
  unfold Guard.beginChange
  cases hc : g.changed with
  | true =>
    have hg : { g with changed := true } = g := by rw [← hc]
    simp only [Bool.not_true, Bool.false_eq_true, if_false, ends_pure, hg]
    exact ⟨trivial, trivial, h, trivial⟩
  | false =>
    simp only [Bool.not_false, if_true, ends_bind, ends_modifyPool, ends_note, ends_pure]
    have h₁ := h.modifyFrame (c := fun x => x.capture g.txn) (h.pool.taken_of_pinned (List.mem_cons_self ..))
      (fun x => (x.capture_captured g.txn).page) fun x => (x.capture_captured g.txn).pins
    exact ⟨trivial, trivial, ⟨h₁.pool, h₁.grown⟩,
      Pool.modifyFrame_keeps s.pool g.frame g.frame Frame.bytes fun x => (x.capture_captured g.txn).bytes⟩

theorem Store.Balanced.giveBack {g : Guard} (h : s.Balanced v (g.frame :: pins) none) :
    (s.modifyPool g.giveBack).Balanced v pins none := by
  have htaken : ∀ {pins : List FrameId} {s : Store}, s.Balanced v (g.frame :: pins) none → g.frame ∉ s.pool.free :=
    fun h => h.pool.taken_of_pinned (List.mem_cons_self ..)
  have hleave : ∀ {s : Store}, s.Balanced v (g.frame :: pins) none →
      (s.modifyPool fun p => (p.unpin g.frame).leave g.frame g.mode).Balanced v pins none := fun {s} h => by
    have hfree : g.frame ∉ (s.pool.unpin g.frame).free := htaken h
    exact ⟨h.pool.unpin.modifyFrame hfree (c := fun x => { x with latch := x.latch.leave g.mode }) (fun _ => rfl)
      fun _ => rfl, h.grown⟩
  unfold Guard.giveBack
  cases hc : g.changed with
  | false => exact hleave h
  | true =>
    exact hleave (h.modifyFrame (c := fun x => { x with dirtyBy := some g.txn }) (htaken h) (fun _ => rfl) fun _ => rfl)

/-- Requests and calls keep the frames accounted for, whatever frames they work on. -/
theorem custody_balanced (s₀ : Store) :
    Custody .any s₀ (fun _ _ => True) (fun _ _ _ => True) fun uses s => s.Balanced s₀.volume (uses.map Use.frame) none where
  perm h e := ⟨h.pool.perm (e.map _), h.grown⟩
  grown h := h.grown
  allocatePage hd h := keeps_allocatePage .balanced hd _ h
  lock r _ _ h := (Store.Balanced.lock h).mono (fun p _ h' => by
    cases p with
    | finished g => exact h'
    | moved r' => exact ⟨h'.1, fun _ _ => trivial, h'.2⟩
    | blocked r' => exact ⟨h'.1, fun _ _ => trivial, h'.2⟩) fun _ _ h' => h'
  enter {_ _ u} mode hu h := h.modifyFrame (c := fun x => { x with latch := x.latch.enter mode })
    (h.pool.taken_of_pinned (List.mem_map_of_mem hu)) (fun _ => rfl) fun _ => rfl
  look _ h := ⟨h.pool, h.grown⟩
  beginChange h _ _ := h.beginChange
  setBytes {_ _ _ bytes} h _ _ _ _ := by
    have h₁ := h.modifyFrame (c := fun x => { x with bytes }) (h.pool.taken_of_pinned (List.mem_cons_self ..))
      (fun _ => rfl) fun _ => rfl
    unfold Guard.setBytes
    rw [ends_bind, ends_modifyPool, ends_note]
    exact ⟨trivial, h₁.pool, h₁.grown⟩
  release h _ _ := ⟨h.giveBack, fun _ _ => trivial⟩
  mark _ h := ⟨h.pool.markDirty _ _, h.grown⟩

end TupleStore
