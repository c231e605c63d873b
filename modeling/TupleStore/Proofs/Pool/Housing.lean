import TupleStore.Proofs.Events

/-!
# Pages in frames are pages of their files

Whatever happens to a store, a frame holds only a page that some handle of its table counts (`World.housed_handleAll`).
A page comes into a frame only by being read, and it is read only through a handle that counts it; from then on it can
leave its frame, but no handle counts fewer pages than before.

* `Volume.Counts` : a page that a handle counts;
* `Pool.Drops` : frames keep their pages or lose them, as they do in all that happens but a page read.
-/

namespace TupleStore

set_option autoImplicit false

open TupleStore.Action

/-- The page is counted by a handle of its table. -/
def Volume.Counts (v : Volume) (page : PageId) : Prop := ∃ (h : HandleId) (f : HeapFile), v.handles[h]? = some f ∧
  f.id = page.table ∧ page.number < f.pages.pageCount

theorem Volume.Counts.extends {v v' : Volume} {page : PageId} (h : v.Counts page) (e : v.Extends v') :
    v'.Counts page := by
  obtain ⟨hd, f, hf, hid, hlt⟩ := h
  obtain ⟨f', hf', hshape, hcount⟩ := e.file hf
  exact ⟨hd, f', hf', (congrArg Prod.fst hshape).trans hid, Nat.lt_of_lt_of_le hlt hcount⟩

/-! ## Frames that lose their pages -/

/-- Frames keep their pages or lose them. -/
def Pool.Drops (p p' : Pool) : Prop := ∀ (f : FrameId) (page : PageId), (p'.frame f).page = some page →
  (p.frame f).page = some page

namespace Pool.Drops

variable {p p' p'' : Pool} {f : FrameId} {page : PageId}

theorem refl (p : Pool) : p.Drops p := fun _ _ h => h

theorem of_frames (h : p'.frames = p.frames) : p.Drops p' := fun f _ hf => by rwa [Pool.frame, h] at hf

theorem trans (h : p.Drops p') (h' : p'.Drops p'') : p.Drops p'' := fun f page hf => h f page (h' f page hf)

theorem modifyFrame (p : Pool) (f : FrameId) {c : Frame → Frame} (hc : ∀ x, (c x).page = x.page) :
    p.Drops (p.modifyFrame f c) := fun g _ hg => (modifyFrame_keeps p f g Frame.page hc).symm.trans hg

theorem reset (p : Pool) (f : FrameId) : p.Drops (p.modifyFrame f Frame.reset) := fun g page hg => by
  rw [frame_modifyFrame] at hg
  split at hg
  · cases hg
  · exact hg

theorem foldl {γ : Type} {c : Pool → γ → Pool} (hc : ∀ (p : Pool) x, p.Drops (c p x)) (l : List γ) (p : Pool) :
    p.Drops (l.foldl c p) := by
  induction l generalizing p with
  | nil => exact refl p
  | cons x l ih => exact (hc p x).trans (ih (c p x))

theorem pinAll (pinned : List (PageId × FrameId)) (p : Pool) : p.Drops (pinned.foldl (fun p (_, f) => p.pin f) p) :=
  foldl (c := fun p (x : PageId × FrameId) => p.pin x.2) (fun p x => modifyFrame p x.2 fun _ => rfl) pinned p

theorem unpinAll (pinned : List (PageId × FrameId)) (p : Pool) :
    p.Drops (pinned.foldl (fun p (_, f) => p.unpin f) p) :=
  foldl (c := fun p (x : PageId × FrameId) => p.unpin x.2) (fun p x => modifyFrame p x.2 fun _ => rfl) pinned p

theorem reclaim (p : Pool) : p.Drops p.reclaim :=
  foldl (c := fun p f => p.modifyFrame f Frame.reset) (fun p f => reset p f) (p.pendingFree.filter fun f => !p.isPinned f) p

theorem discard (p : Pool) (page : PageId) : p.Drops (p.discard page) := by
  unfold Pool.discard
  split
  · exact refl p
  · exact reset p _

theorem markDirty (p : Pool) (page : PageId) (t : TxnId) : p.Drops (p.markDirty page t) := by
  unfold Pool.markDirty
  split
  · exact refl p
  · exact modifyFrame p _ fun _ => rfl

theorem giveBack (p : Pool) (g : Guard) : p.Drops (g.giveBack p) := by
  have hleave : ∀ p : Pool, p.Drops ((p.unpin g.frame).leave g.frame g.mode) := fun p =>
    (modifyFrame p g.frame (c := fun x => { x with pins := x.pins - 1 }) fun _ => rfl).trans
      (modifyFrame (p.unpin g.frame) g.frame (c := fun x => { x with latch := x.latch.leave g.mode }) fun _ => rfl)
  unfold Guard.giveBack
  split
  · exact (modifyFrame p g.frame (c := fun x => { x with dirtyBy := some g.txn }) fun _ => rfl).trans (hleave _)
  · exact hleave p

end Pool.Drops

/-! ## Stores -/

/-- Frames hold pages that handles count, and tables are those of a first store, or larger. -/
structure Store.Housed (s₀ s : Store) : Prop where
  pages : ∀ (f : FrameId) (page : PageId), (s.pool.frame f).page = some page → s.volume.Counts page
  grown : s₀.volume.Extends s.volume

variable {s₀ s s' : Store} {w : World} {t : TxnId}

namespace Store.Housed

theorem of_drops (h : s₀.Housed s) (hv : s'.volume = s.volume) (hd : s.pool.Drops s'.pool) : s₀.Housed s' :=
  ⟨fun f page hf => hv ▸ h.pages f page (hd f page hf), hv ▸ h.grown⟩

theorem congr (h : s₀.Housed s) (hv : s'.volume = s.volume) (hf : s'.pool.frames = s.pool.frames) : s₀.Housed s' :=
  h.of_drops hv (.of_frames hf)

theorem modifyPool (h : s₀.Housed s) {g : Pool → Pool} (hg : ∀ p : Pool, p.Drops (g p)) : s₀.Housed (s.modifyPool g) :=
  h.of_drops rfl (hg _)

/-- A page that is counted can come into a frame. -/
theorem install (h : s₀.Housed s) (f : FrameId) {page : PageId} (bytes : Bytes) (hp : s.volume.Counts page) :
    s₀.Housed (s.modifyPool fun p => ((p.install f page bytes).pin f).touch f) := by
  refine ⟨fun g q hg => ?_, h.grown⟩
  have hg : ((s.pool.install f page bytes).frame g).page = some q :=
    (Pool.modifyFrame_keeps (s.pool.install f page bytes) f g (c := fun x => { x with pins := x.pins + 1 }) Frame.page
      fun _ => rfl).symm.trans hg
  have hg : ((s.pool.modifyFrame f fun x => { x with
      bytes, page := some page, dirtyBy := none, before := s.pool.retained[page]? }).frame g).page = some q := hg
  rw [Pool.frame_modifyFrame] at hg
  split at hg
  · cases hg
    exact hp
  · exact h.pages g q hg

end Store.Housed

namespace Action

/-! ## What the cache does -/

theorem Lasting.housed : Lasting s₀.Housed :=
  ⟨fun _ _ hw h => ⟨fun f page hf => (h.pages f page hf).extends hw, h.grown.trans hw⟩, fun _ _ _ h => h.congr rfl rfl⟩

theorem housed_modifyPool {g : Pool → Pool} (hg : ∀ p : Pool, p.Drops (g p)) : Keeps s₀.Housed (modifyPool g) :=
  .modifyPool fun _ h => h.modifyPool hg

theorem housed_count (g : Counters → Counters) : Keeps s₀.Housed (modifyPool fun p => p.count g) :=
  housed_modifyPool fun _ => .of_frames rfl

theorem housed_forget (t : TxnId) : Keeps s₀.Housed (modifyPool fun p => p.forget t) :=
  housed_modifyPool fun _ => .of_frames rfl

theorem housed_writeBack (f : FrameId) (page : PageId) : Keeps s₀.Housed (writeBack f page) := by
  refine .bind_get fun s hs => ?_
  dsimp only
  split
  · refine Keeps.bind (keeps_resolve _) (fun h => ?_) s hs
    have hwrite : Keeps s₀.Housed (do
        writePage h page (s.pool.frame f).bytes
        modifyPool fun p => (p.modifyFrame f Frame.written).count fun c =>
          { c with pagesWritten := c.pagesWritten + 1 }) :=
      .bind (keeps_writePage .housed h page _) fun _ => housed_modifyPool fun p =>
        .modifyFrame p f (c := Frame.written) fun _ => rfl
    split
    · exact hwrite
    · exact .bind (keeps_append .housed _) fun _ => .bind (keeps_force .housed) fun _ => hwrite
  · exact hs

theorem housed_evict (f : FrameId) : Keeps s₀.Housed (evict f) := by
  refine .bind_get fun s hs => ?_
  split
  · exact hs
  · rename_i page _
    refine Keeps.bind (housed_writeBack f page) (fun _ => ?_) s hs
    exact housed_modifyPool (g := fun p => (p.unmap f page).count _) fun p => .reset p f

theorem housed_takeVictim : Keeps s₀.Housed takeVictim := by
  refine .bind_get fun s hs => ?_
  cases hv : s.pool.clock.evict s.pool.isPinned with
  | mk victim clock =>
    simp only [hv]
    have hclock : s₀.Housed (s.modifyPool fun p => { p with clock }) := hs.congr rfl rfl
    rw [ends_bind, ends_modifyPool]
    cases victim with
    | none => exact hclock
    | some f =>
      show ((evict f).orElseDo _ >>= _).Ends _ _ _
      rw [ends_bind, ends_orElseDo]
      exact (housed_evict f _ hclock).mono (fun _ _ h' => h') fun _ _ h' => h'.congr rfl rfl

theorem housed_takeFrame : Keeps s₀.Housed takeFrame := by
  refine .bind (housed_modifyPool .reclaim) fun _ => .bind_get fun s hs => ?_
  split
  · exact hs.congr rfl rfl
  · exact housed_takeVictim s hs

/-- A page that is read through a handle is counted by it. -/
theorem ends_readPage_counts {hd : HandleId} {page : PageId} : (readPage hd page).Ends s
    (fun _ s' => s' = s ∧ s.volume.Counts page) fun _ s' => s' = s := by
  unfold readPage
  rw [ends_bind]
  refine (ends_file hd).mono (fun f s' h' => ?_) fun _ _ h' => h'
  obtain ⟨rfl, hf⟩ := h'
  rw [ends_bind, ends_get]
  unfold Volume.readPage PageFile.read
  split
  · rename_i htable
    split
    · rename_i hlt
      exact ⟨rfl, hd, f, hf, htable.symm, hlt⟩
    · rfl
  · rfl

theorem housed_load (page : PageId) : Keeps s₀.Housed (load page) := by
  refine .bind (housed_count _) fun _ => .bind (keeps_resolve _) fun hd s hs => ?_
  rw [ends_bind]
  refine ends_readPage_counts.mono (fun bytes s' h' => ?_) fun _ _ h' => h' ▸ hs
  obtain ⟨rfl, hcounts⟩ := h'
  -- the page stays counted while a frame is made free for it
  have hframe : Keeps (s'.Housed) takeFrame := housed_takeFrame
  rw [ends_bind, ends_modifyPool, ends_bind]
  have hs₁ : s₀.Housed (s'.modifyPool fun p => p.count fun c => { c with pagesRead := c.pagesRead + 1 }) :=
    hs.congr rfl rfl
  have hs₂ : s'.Housed (s'.modifyPool fun p => p.count fun c => { c with pagesRead := c.pagesRead + 1 }) :=
    ⟨hs.pages, .refl _⟩
  refine ((housed_takeFrame _ hs₁).and (hframe _ hs₂)).mono (fun f s₂ h₂ => ?_) fun _ _ h₂ => h₂.1
  rw [ends_bind, ends_modifyPool, ends_bind, ends_note, ends_pure]
  exact (h₂.1.install f bytes (hcounts.extends h₂.2.grown)).congr rfl rfl

theorem housed_fetch (page : PageId) : Keeps s₀.Housed (fetch page) := by
  refine .bind_get fun s hs => ?_
  split
  · rename_i f _
    exact hs.of_drops rfl (.modifyFrame s.pool f fun _ => rfl)
  · exact housed_load page s hs

/-! ### Ends of transactions -/

theorem housed_withPinned (pages : List PageId) {body : List (PageId × FrameId) → Action Unit}
    (hbody : ∀ pinned, Keeps s₀.Housed (body pinned)) : Keeps s₀.Housed (withPinned pages body) := by
  refine .bind_get fun s hs => ?_
  exact Keeps.bind (housed_modifyPool (.pinAll _))
    (fun _ => .andAlways (hbody _) fun _ h => h.modifyPool (.unpinAll _)) s hs

theorem housed_logChange (t : TxnId) (page : PageId) (f : FrameId) : Keeps s₀.Housed (logChange t page f) := by
  refine .bind_get fun s hs => ?_
  dsimp only
  split
  · split
    · exact hs
    · refine Keeps.bind (housed_modifyPool fun p => ?_) (fun _ => keeps_append .housed _) s hs
      exact .modifyFrame p f fun _ => rfl
  · exact hs

theorem housed_commit (t : TxnId) (pages : List PageId) : Keeps s₀.Housed (commit t pages) := by
  refine .bind (housed_withPinned pages fun pinned => ?_) fun _ =>
    .bind (housed_forget t) fun _ => keeps_note .housed _
  refine .bind (.forM (fun x => housed_logChange t x.1 x.2) pinned) fun _ => ?_
  exact .bind (keeps_append .housed _) fun _ => .bind (keeps_force .housed) fun _ =>
    .forM (fun x => housed_writeBack x.2 x.1) pinned

theorem housed_restorePage (t : TxnId) (page : PageId) (f : FrameId) : Keeps s₀.Housed (restorePage t page f) := by
  refine .bind_get fun s hs => ?_
  dsimp only
  split
  · split
    · exact hs
    · rename_i b _
      refine Keeps.bind (housed_modifyPool fun p => .modifyFrame p f (c := fun x => x.restore b) fun _ => rfl)
        (fun _ => ?_) s hs
      split
      · exact .bind (keeps_resolve _) fun hd => .bind (keeps_writePage .housed hd page _) fun _ =>
          .bind (housed_count _) fun _ => housed_count _
      · exact housed_count _
  · exact hs

theorem housed_restoreRetained (page : PageId) (b : BeforeImage) : Keeps s₀.Housed (restoreRetained page b) :=
  .bind (keeps_resolve _) fun hd => .bind (keeps_writePage .housed hd page _) fun _ => housed_count _

theorem housed_rollback (t : TxnId) (pages : List PageId) : Keeps s₀.Housed (rollback t pages) := by
  have hretained : ∀ l : List (PageId × BeforeImage), Keeps s₀.Housed (l.forM fun x => restoreRetained x.1 x.2) :=
    .forM fun x => housed_restoreRetained x.1 x.2
  refine .bind (keeps_note .housed _) fun _ => .bind (housed_withPinned pages fun pinned =>
    .forM (fun x => housed_restorePage t x.1 x.2) pinned) fun _ => .bind_get fun s hs => ?_
  exact Keeps.bind (housed_forget t) (fun _ => .bind (hretained _) fun _ =>
    .bind (keeps_append .housed _) fun _ => .bind (keeps_force .housed) fun _ => keeps_note .housed _) s hs

theorem housed_complete (t : TxnId) (wantsCommit : Bool) : Keeps s₀.Housed (complete t wantsCommit) := by
  have hunlock : ∀ s, s₀.Housed s → s₀.Housed (unlock t s) := fun _ h => h.congr rfl rfl
  refine .bind_get fun s hs => ?_
  dsimp only
  refine Keeps.bind (housed_modifyPool (g := fun p => p.pardon t) fun _ => .of_frames rfl) (fun _ => ?_) s hs
  split
  · exact .bind (.andAlways (housed_commit t _) hunlock) fun _ => housed_count _
  · refine .bind (.andAlways (housed_rollback t _) hunlock) fun _ => .bind (housed_count _) fun _ => ?_
    cases wantsCommit with
    | true => exact .throw _
    | false => exact .pure _

end Action

/-! ## Runs -/

/-- What a run is made of keeps frames to pages that handles count. -/
theorem stewardship_housed (s₀ : Store) :
    Stewardship .any s₀ (fun _ _ => True) (fun _ _ _ => True) fun _ s => s₀.Housed s where
  perm h _ := h
  grown h := h.grown
  allocatePage hd h := keeps_allocatePage .housed hd _ h
  lock {_ s} r _ _ h := by
    unfold Request.lock
    rw [ends_bind, ends_get]
    cases s.pool.locks.acquire r.txn r.page r.mode with
    | mk answer locks =>
      have h₁ : s₀.Housed (s.modifyPool fun p => { p with locks }) := h.congr rfl rfl
      dsimp only
      rw [ends_bind, ends_modifyPool]
      cases answer with
      | granted =>
        show (Action.fetch r.page >>= _).Ends _ _ _
        rw [ends_bind]
        exact (housed_fetch r.page _ h₁).mono (fun f s' h' => ⟨⟨_, rfl⟩, fun _ _ => trivial, h'⟩) fun _ _ h' => h'
      | waits => exact ⟨⟨_, rfl⟩, fun _ _ => trivial, h₁⟩
      | refused => exact h₁.congr rfl rfl
  enter {_ s u} mode _ h := h.of_drops rfl (.modifyFrame s.pool u.frame fun _ => rfl)
  look _ h := h.congr rfl rfl
  beginChange {_ s g} h _ _ := by
    unfold Guard.beginChange
    cases hc : g.changed with
    | true =>
      have hg : { g with changed := true } = g := by rw [← hc]
      simp only [Bool.not_true, Bool.false_eq_true, if_false, ends_pure, hg]
      exact ⟨trivial, trivial, h, trivial⟩
    | false =>
      simp only [Bool.not_false, if_true, ends_bind, ends_modifyPool, ends_note, ends_pure]
      exact ⟨trivial, trivial, h.of_drops rfl (.modifyFrame s.pool g.frame fun x => (x.capture_captured g.txn).page),
        Pool.modifyFrame_keeps s.pool g.frame g.frame Frame.bytes fun x => (x.capture_captured g.txn).bytes⟩
  setBytes {_ s g bytes} h _ _ _ _ := by
    unfold Guard.setBytes
    rw [ends_bind, ends_modifyPool, ends_note]
    exact ⟨trivial, h.of_drops rfl (.modifyFrame s.pool g.frame fun _ => rfl)⟩
  release {_ _ g} h _ _ := ⟨h.modifyPool fun p => .giveBack p g, fun _ _ => trivial⟩
  mark _ h := h.modifyPool fun p => .markDirty p _ _
  startFlush _ pages h := by
    unfold Flush.start
    rw [ends_bind, ends_get, ends_bind, ends_modifyPool, ends_pure]
    exact ⟨rfl, h.modifyPool (.pinAll _)⟩
  flush {_ s fl} _ _ h hr := by
    have hunpin : ∀ s, s₀.Housed s → s₀.Housed (fl.unpinAll s) := fun _ hs => hs.modifyPool (.unpinAll _)
    unfold Flush.step
    split
    · exact hunpin s h
    · rename_i page f rest hrest
      have hin : ∀ x ∈ rest, x ∈ fl.pinned := fun x hx => hr x (hrest ▸ List.mem_cons_of_mem _ hx)
      rw [ends_bind, ends_get]
      dsimp only
      split
      · exact ⟨hin, h⟩
      · split
        · rw [ends_bind, ends_orElseDo]
          exact (housed_writeBack f page s h).mono (fun _ s' h' => ⟨hin, h'⟩) fun _ s' h' => hunpin s' h'
        · exact ⟨hr, h⟩
  complete wantsCommit _ _ h _ := housed_complete _ wantsCommit _ h

namespace World

/-- An action that keeps frames to pages that handles count. -/
theorem housed_perform (h : w.store.Housed w.store) {α : Type} {x : Action α} (hx : Keeps w.store.Housed x) :
    (w.perform x fun _ w => w).store.Housed (w.perform x fun _ w => w).store :=
  of_perform (P := fun w => w.store.Housed w.store)
    ((hx _ h).mono (fun _ _ hs => ⟨hs.pages, .refl _⟩) fun _ _ hs => ⟨hs.pages, .refl _⟩)

theorem housed_apply (hb : w.Balanced) (h : w.store.Housed w.store) (op : Op) :
    (w.apply op).store.Housed (w.apply op).store := by
  by_cases hop : op.Cached
  · have hkept : World.Kept w.store (fun hd => w.store.file? hd ≠ none) (fun _ s => w.store.Housed s) w :=
      ⟨h, hb.guards, hb.tasks, hb.handles⟩
    have hafter := (Kept.apply (stewardship_housed w.store) hkept hop (op.grips_any w.store w)
      fun hd file hf => hf ▸ Option.some_ne_none file).store
    exact ⟨hafter.pages, .refl _⟩
  · cases op with
    | rewrite hd page bytes => exact housed_perform h (keeps_writeRaw .housed hd page bytes)
    | _ => exact absurd trivial hop

/-- More files, and the pool as it is. -/
theorem housed_addFile (h : w.store.Housed w.store) {r : Except Error (HandleId × Volume)}
    (hr : ∀ hd v, r = .ok (hd, v) → ∀ hd' : HandleId, w.store.volume.handles[hd']? ≠ none →
      v.handles[hd']? = w.store.volume.handles[hd']?) :
    (w.perform (do
      let (h, volume) ← Action.ofExcept r
      modify fun s => { s with volume }
      pure h : Action HandleId) fun _ w => w).store.Housed (w.perform (do
      let (h, volume) ← Action.ofExcept r
      modify fun s => { s with volume }
      pure h : Action HandleId) fun _ w => w).store := by
  refine of_perform (P := fun w => w.store.Housed w.store) ?_
  rw [ends_bind]
  cases r with
  | error e => exact h
  | ok a =>
    refine ⟨fun f page hf => ?_, .refl _⟩
    obtain ⟨hd, file, hfile, hcounts⟩ := h.pages f page hf
    exact ⟨hd, file, (hr a.1 a.2 rfl hd (hfile ▸ Option.some_ne_none file)).trans hfile, hcounts⟩

theorem housed_handle (hb : w.Balanced) (h : w.store.Housed w.store) (e : Event) :
    (w.handle e).store.Housed (w.handle e).store := by
  cases e with
  | op op => exact housed_apply hb h op
  | complete t wantsCommit => exact housed_perform h (housed_complete t wantsCommit)
  | discard page => exact housed_perform h (housed_modifyPool fun p => .discard p page)
  | releaseLock t page =>
    refine housed_perform h (.bind_get fun s hs => ?_)
    cases s.pool.locks.release t page with
    | mk released locks => cases released <;> exact hs.congr rfl rfl
  | create path schema pageSize =>
    exact housed_addFile h (r := w.store.volume.create path schema pageSize) fun _ _ hr _ => Volume.file_create hr
  | openFile path schema pageSize =>
    exact housed_addFile h (r := w.store.volume.openFile path schema pageSize) fun _ _ hr _ => Volume.file_openFile hr
  | register hd name =>
    refine housed_perform h (.bind (keeps_file hd) fun file => ?_)
    exact fun _ hs => hs.congr rfl rfl
  | unregisterAll => exact ⟨h.pages, .refl _⟩

/-- Whatever happens, frames hold pages that handles count. -/
theorem housed_handleAll (events : List Event) (hb : w.Balanced) (h : w.store.Housed w.store) :
    (handleAll events w).store.Housed (handleAll events w).store := by
  induction events generalizing w with
  | nil => exact h
  | cons e events ih => exact ih (hb.handle e) (housed_handle hb h e)

end World

end TupleStore
