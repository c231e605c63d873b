import TupleStore.Proofs.Events
import TupleStore.Proofs.File.Spans

/-!
# Laws of files

Nothing that happens to a store changes its files but pages that are written and appended, and files that come to be and
are opened. So what these keep holds after every run, if it holds at first (`World.obeys_handleAll`), and need not say
anything of the cache.

* `Volume.Law` : what the four keep;
* `stewardship_obeys` : it is kept by all that a run is made of.
-/

namespace TupleStore

set_option autoImplicit false

open TupleStore.Action

/-- A law of files and handles: it is kept when pages are written and appended, and when files come to be and are
opened. -/
structure Volume.Law (P : Volume → Prop) : Prop where
  write : ∀ {v : Volume} {h : HandleId} {f : HeapFile}, P v → v.handles[h]? = some f → ∀ (n : Nat) {bytes : Bytes},
    bytes.length = f.pages.pageSize → P (v.written h f n bytes)
  create : ∀ {v v' : Volume} {h : HandleId} {path : String} {schema : Schema} {pageSize : Nat}, P v →
    v.create path schema pageSize = .ok (h, v') → P v'
  openFile : ∀ {v v' : Volume} {h : HandleId} {path : String} {schema : Schema} {pageSize : Nat}, P v →
    v.openFile path schema pageSize = .ok (h, v') → P v'

/-- The files of a store obey a law, and tables are those of a first store, or larger. -/
structure Store.Obeys (s₀ : Store) (P : Volume → Prop) (s : Store) : Prop where
  grown : s₀.volume.Extends s.volume
  files : P s.volume

variable {P : Volume → Prop} {s₀ s s' : Store} {w : World} {t : TxnId}

namespace Store.Obeys

theorem congr (h : s₀.Obeys P s) (hv : s'.volume = s.volume) : s₀.Obeys P s' := ⟨hv ▸ h.grown, hv ▸ h.files⟩

theorem modifyPool (h : s₀.Obeys P s) (g : Pool → Pool) : s₀.Obeys P (s.modifyPool g) := ⟨h.grown, h.files⟩

end Store.Obeys

namespace Action

/-! ## What the cache does -/

theorem obeys_modifyPool (g : Pool → Pool) : Keeps (s₀.Obeys P) (modifyPool g) :=
  .modifyPool fun _ h => h.modifyPool g

theorem obeys_note (e : Effect) : Keeps (s₀.Obeys P) (note e) := fun _ h => h.congr rfl

theorem obeys_append (r : LogRecord) : Keeps (s₀.Obeys P) (append r) := fun _ h => h.congr rfl

theorem obeys_force : Keeps (s₀.Obeys P) force := fun _ h => h.congr rfl

theorem obeys_withPinned (pages : List PageId) {body : List (PageId × FrameId) → Action Unit}
    (hbody : ∀ pinned, Keeps (s₀.Obeys P) (body pinned)) : Keeps (s₀.Obeys P) (withPinned pages body) := by
  refine .bind_get fun s hs => ?_
  rw [ends_bind, ends_modifyPool]
  exact Keeps.andAlways (hbody _) (fun _ h => h.modifyPool _) _ (hs.modifyPool _)

theorem obeys_logChange (t : TxnId) (page : PageId) (f : FrameId) : Keeps (s₀.Obeys P) (logChange t page f) := by
  refine .bind_get fun s hs => ?_
  dsimp only
  split
  · split
    · exact hs
    · exact Keeps.bind (obeys_modifyPool _) (fun _ => obeys_append _) s hs
  · exact hs

variable (law : Volume.Law P)
include law

theorem obeys_putPage (hd : HandleId) (page : PageId) (bytes : Bytes) : Keeps (s₀.Obeys P) (putPage hd page bytes) := by
  intro s hs
  unfold putPage
  rw [ends_bind]
  refine (ends_file hd).mono (fun f s' h' => ?_) fun _ _ h' => h' ▸ hs
  obtain ⟨rfl, hf⟩ := h'
  rw [ends_bind, ends_get, ends_bind]
  cases hw : s'.volume.writePage hd f page bytes with
  | error e => exact hs
  | ok v =>
    obtain ⟨rfl, hl⟩ := Volume.written_of_writePage hw
    exact ⟨hs.grown.trans (Volume.extends_writePage hf hw), law.write hs.files hf page.number hl⟩

theorem obeys_writePage (hd : HandleId) (page : PageId) (bytes : Bytes) :
    Keeps (s₀.Obeys P) (writePage hd page bytes) :=
  .bind (obeys_putPage law hd page bytes) fun _ => obeys_note _

theorem obeys_writeRaw (hd : HandleId) (page : PageId) (bytes : Bytes) : Keeps (s₀.Obeys P) (writeRaw hd page bytes) :=
  .bind (obeys_putPage law hd page bytes) fun _ => obeys_note _

theorem obeys_allocatePage (hd : HandleId) : Keeps (s₀.Obeys P) (allocatePage hd) := by
  intro s hs
  unfold allocatePage
  rw [ends_bind]
  refine (ends_file hd).mono (fun f s' h' => ?_) fun _ _ h' => h' ▸ hs
  obtain ⟨rfl, hf⟩ := h'
  refine ⟨hs.grown.trans (Volume.extends_allocatePage hf), ?_⟩
  show P (s'.volume.allocatePage hd f).2
  rw [Volume.allocatePage_eq]
  exact law.write hs.files hf f.pages.pageCount (Bytes.length_zeros _)

theorem obeys_writeBack (f : FrameId) (page : PageId) : Keeps (s₀.Obeys P) (writeBack f page) := by
  refine .bind_get fun s hs => ?_
  dsimp only
  split
  · refine Keeps.bind (keeps_resolve _) (fun hd => ?_) s hs
    have hwrite : Keeps (s₀.Obeys P) (do
        writePage hd page (s.pool.frame f).bytes
        modifyPool fun p => (p.modifyFrame f Frame.written).count fun c =>
          { c with pagesWritten := c.pagesWritten + 1 }) :=
      .bind (obeys_writePage law hd page _) fun _ => obeys_modifyPool _
    split
    · exact hwrite
    · exact .bind (obeys_append _) fun _ => .bind obeys_force fun _ => hwrite
  · exact hs

theorem obeys_evict (f : FrameId) : Keeps (s₀.Obeys P) (evict f) := by
  refine .bind_get fun s hs => ?_
  split
  · exact hs
  · rename_i page _
    exact Keeps.bind (obeys_writeBack law f page) (fun _ => obeys_modifyPool _) s hs

theorem obeys_takeVictim : Keeps (s₀.Obeys P) takeVictim := by
  refine .bind_get fun s hs => ?_
  cases hv : s.pool.clock.evict s.pool.isPinned with
  | mk victim clock =>
    simp only [hv]
    rw [ends_bind, ends_modifyPool]
    cases victim with
    | none => exact hs.congr rfl
    | some f =>
      show ((evict f).orElseDo _ >>= _).Ends _ _ _
      rw [ends_bind, ends_orElseDo]
      exact (obeys_evict law f _ (hs.modifyPool _)).mono (fun _ _ h' => h') fun _ _ h' => h'.modifyPool _

theorem obeys_takeFrame : Keeps (s₀.Obeys P) takeFrame := by
  refine .bind (obeys_modifyPool _) fun _ => .bind_get fun s hs => ?_
  split
  · exact hs.congr rfl
  · exact obeys_takeVictim law s hs

theorem obeys_fetch (page : PageId) : Keeps (s₀.Obeys P) (fetch page) := by
  refine .bind_get fun s hs => ?_
  split
  · exact hs.congr rfl
  · refine Keeps.bind (obeys_modifyPool _) (fun _ => .bind (keeps_resolve _) fun hd => ?_) s hs
    refine .bind (keeps_readPage hd page) fun bytes => .bind (obeys_modifyPool _) fun _ => ?_
    exact .bind (obeys_takeFrame law) fun f => .bind (obeys_modifyPool _) fun _ => .bind (obeys_note _) fun _ => .pure _

/-! ### Ends of transactions -/

theorem obeys_commit (t : TxnId) (pages : List PageId) : Keeps (s₀.Obeys P) (commit t pages) := by
  refine .bind (obeys_withPinned pages fun pinned => ?_) fun _ =>
    .bind (obeys_modifyPool _) fun _ => obeys_note _
  refine .bind (.forM (fun x => obeys_logChange t x.1 x.2) pinned) fun _ => ?_
  exact .bind (obeys_append _) fun _ => .bind obeys_force fun _ =>
    .forM (fun x => obeys_writeBack law x.2 x.1) pinned

theorem obeys_restorePage (t : TxnId) (page : PageId) (f : FrameId) : Keeps (s₀.Obeys P) (restorePage t page f) := by
  refine .bind_get fun s hs => ?_
  dsimp only
  split
  · split
    · exact hs
    · rename_i b _
      refine Keeps.bind (obeys_modifyPool _) (fun _ => ?_) s hs
      split
      · exact .bind (keeps_resolve _) fun hd => .bind (obeys_writePage law hd page _) fun _ =>
          .bind (obeys_modifyPool _) fun _ => obeys_modifyPool _
      · exact obeys_modifyPool _
  · exact hs

theorem obeys_restoreRetained (page : PageId) (b : BeforeImage) : Keeps (s₀.Obeys P) (restoreRetained page b) :=
  .bind (keeps_resolve _) fun hd => .bind (obeys_writePage law hd page _) fun _ => obeys_modifyPool _

theorem obeys_rollback (t : TxnId) (pages : List PageId) : Keeps (s₀.Obeys P) (rollback t pages) := by
  have hretained : ∀ l : List (PageId × BeforeImage), Keeps (s₀.Obeys P) (l.forM fun x => restoreRetained x.1 x.2) :=
    .forM fun x => obeys_restoreRetained law x.1 x.2
  refine .bind (obeys_note _) fun _ => .bind (obeys_withPinned pages fun pinned =>
    .forM (fun x => obeys_restorePage law t x.1 x.2) pinned) fun _ => .bind_get fun s hs => ?_
  exact Keeps.bind (obeys_modifyPool _) (fun _ => .bind (hretained _) fun _ => .bind (obeys_append _) fun _ =>
    .bind obeys_force fun _ => obeys_note _) s hs

theorem obeys_complete (t : TxnId) (wantsCommit : Bool) : Keeps (s₀.Obeys P) (complete t wantsCommit) := by
  refine .bind_get fun s hs => ?_
  refine Keeps.bind (obeys_modifyPool _) (fun _ => ?_) s hs
  split
  · exact .bind (.andAlways (obeys_commit law t _) fun _ h => h.congr rfl) fun _ => obeys_modifyPool _
  · refine .bind (.andAlways (obeys_rollback law t _) fun _ h => h.congr rfl) fun _ => .bind (obeys_modifyPool _) fun _ => ?_
    cases wantsCommit with
    | true => exact .throw _
    | false => exact .pure _

end Action

/-! ## Runs -/

variable (law : Volume.Law P)

include law in
/-- What a run is made of keeps the law. -/
theorem stewardship_obeys (s₀ : Store) :
    Stewardship .any s₀ (fun _ _ => True) (fun _ _ _ => True) fun _ s => s₀.Obeys P s where
  perm h _ := h
  grown h := h.grown
  allocatePage hd h := obeys_allocatePage law hd _ h
  lock {_ s} r _ _ h := by
    unfold Request.lock
    rw [ends_bind, ends_get]
    cases s.pool.locks.acquire r.txn r.page r.mode with
    | mk answer locks =>
      dsimp only
      rw [ends_bind, ends_modifyPool]
      cases answer with
      | granted =>
        show (Action.fetch r.page >>= _).Ends _ _ _
        rw [ends_bind]
        exact (obeys_fetch law r.page _ (h.modifyPool _)).mono (fun f s' h' => ⟨⟨_, rfl⟩, fun _ _ => trivial, h'⟩)
          fun _ _ h' => h'
      | waits => exact ⟨⟨_, rfl⟩, fun _ _ => trivial, h.modifyPool _⟩
      | refused => exact (h.modifyPool _).modifyPool _
  enter _ _ h := h.congr rfl
  look _ h := h.congr rfl
  beginChange {_ s g} h _ _ := by
    unfold Guard.beginChange
    cases hc : g.changed with
    | true =>
      have hg : { g with changed := true } = g := by rw [← hc]
      simp only [Bool.not_true, Bool.false_eq_true, if_false, ends_pure, hg]
      exact ⟨trivial, trivial, h, trivial⟩
    | false =>
      simp only [Bool.not_false, if_true, ends_bind, ends_modifyPool, ends_note, ends_pure]
      exact ⟨trivial, trivial, h.congr rfl,
        Pool.modifyFrame_keeps s.pool g.frame g.frame Frame.bytes fun x => (x.capture_captured g.txn).bytes⟩
  setBytes h _ _ _ _ := by
    unfold Guard.setBytes
    rw [ends_bind, ends_modifyPool, ends_note]
    exact ⟨trivial, h.congr rfl⟩
  release h _ _ := ⟨h.congr rfl, fun _ _ => trivial⟩
  mark _ h := h.congr rfl
  startFlush _ pages h := by
    unfold Flush.start
    rw [ends_bind, ends_get, ends_bind, ends_modifyPool, ends_pure]
    exact ⟨rfl, h.congr rfl⟩
  flush {_ s fl} _ _ h hr := by
    unfold Flush.step
    split
    · exact h.congr rfl
    · rename_i page f rest hrest
      have hin : ∀ x ∈ rest, x ∈ fl.pinned := fun x hx => hr x (hrest ▸ List.mem_cons_of_mem _ hx)
      rw [ends_bind, ends_get]
      dsimp only
      split
      · exact ⟨hin, h⟩
      · split
        · rw [ends_bind, ends_orElseDo]
          exact (obeys_writeBack law f page s h).mono (fun _ s' h' => ⟨hin, h'⟩) fun _ s' h' => h'.modifyPool _
        · exact ⟨hr, h⟩
  complete wantsCommit _ _ h _ := obeys_complete law _ wantsCommit _ h

namespace World

/-- An action that keeps the law. -/
theorem obeys_perform (h : P w.store.volume) {α : Type} {x : Action α} (hx : Keeps (w.store.Obeys P) x) :
    P (w.perform x fun _ w => w).store.volume :=
  of_perform (P := fun w => P w.store.volume)
    ((hx _ ⟨.refl _, h⟩).mono (fun _ _ hs => hs.files) fun _ _ hs => hs.files)

/-- More files, and the pool as it is. -/
theorem obeys_addFile (h : P w.store.volume) {r : Except Error (HandleId × Volume)}
    (hr : ∀ hd v, r = .ok (hd, v) → P v) :
    P (w.perform (do
      let (h, volume) ← Action.ofExcept r
      modify fun s => { s with volume }
      pure h : Action HandleId) fun _ w => w).store.volume := by
  refine of_perform (P := fun w => P w.store.volume) ?_
  rw [ends_bind]
  cases r with
  | error e => exact h
  | ok a => exact hr a.1 a.2 rfl

include law

theorem obeys_apply (hb : w.Balanced) (h : P w.store.volume) (op : Op) : P (w.apply op).store.volume := by
  by_cases hop : op.Cached
  · have hkept : World.Kept w.store (fun hd => w.store.file? hd ≠ none) (fun _ s => w.store.Obeys P s) w :=
      ⟨⟨.refl _, h⟩, hb.guards, hb.tasks, hb.handles⟩
    exact (Kept.apply (stewardship_obeys law w.store) hkept hop (op.grips_any w.store w)
      fun hd file hf => hf ▸ Option.some_ne_none file).store.files
  · cases op with
    | rewrite hd page bytes => exact obeys_perform h (obeys_writeRaw law hd page bytes)
    | _ => exact absurd trivial hop

theorem obeys_handle (hb : w.Balanced) (h : P w.store.volume) (e : Event) : P (w.handle e).store.volume := by
  cases e with
  | op op => exact obeys_apply law hb h op
  | complete t wantsCommit => exact obeys_perform h (obeys_complete law t wantsCommit)
  | discard page => exact obeys_perform h (obeys_modifyPool _)
  | releaseLock t page =>
    refine obeys_perform h (.bind_get fun s hs => ?_)
    cases s.pool.locks.release t page with
    | mk released locks => cases released <;> exact hs.congr rfl
  | create path schema pageSize => exact obeys_addFile h fun _ _ hr => law.create h hr
  | openFile path schema pageSize => exact obeys_addFile h fun _ _ hr => law.openFile h hr
  | register hd name =>
    refine obeys_perform h (.bind (keeps_file hd) fun file => ?_)
    exact fun _ hs => hs.congr rfl
  | unregisterAll => exact h

/-- Whatever happens, the law is kept. -/
theorem obeys_handleAll (events : List Event) (hb : w.Balanced) (h : P w.store.volume) :
    P (handleAll events w).store.volume := by
  induction events generalizing w with
  | nil => exact h
  | cons e events ih => exact ih (hb.handle e) (obeys_handle law hb h e)

end World

end TupleStore
