import TupleStore.Proofs.Pool.Balance
import TupleStore.Proofs.Runs

/-!
# Pages of one length

Whatever happens, all that a pool has of pages is as long as its pages are: the bytes in every frame, and every
before-image, in a frame or kept aside. What is read from a table that the cache can use has that length, and a
transaction that changes a page keeps it. So when the cache writes a page, nothing stands against it but its table.

* `Pool.Sized` : the lengths, and `Sized.modifyFrame`, `Sized.install`, `Sized.unmap`, `Sized.discard` and the like;
* `Store.Sized` : the same of a store, whose tables are those of a first one, or larger;
* `sized_fetch`, `sized_complete` : pages into frames, and the ends of transactions;
* `stewardship_sized` : everything that a run is made of.
-/

namespace TupleStore

set_option autoImplicit false

open TupleStore.Action

/-! ## Pools -/

namespace Pool

/-- The bytes in all frames and all before-images are as long as a page. -/
structure Sized (size : Nat) (p : Pool) : Prop where
  config : p.config.pageSize = size
  frames : ∀ (f : FrameId) (x : Frame), p.frames[f]? = some x → x.copy.Fits size
  retained : ∀ (page : PageId) (b : BeforeImage), p.retained[page]? = some b → b.bytes.length = size

namespace Sized

variable {p p' : Pool} {size : Nat} {f : FrameId} {page : PageId}

theorem ofConfig (config : Config) : (Pool.ofConfig config).Sized config.pageSize where
  config := rfl
  frames f x hx := by
    obtain ⟨hlt, rfl⟩ := List.getElem?_eq_some_iff.1 hx
    simp [Pool.ofConfig, Frame.copy, Copy.Fits]
  retained page b hb := nomatch hb.symm.trans (show (∅ : Std.TreeMap PageId BeforeImage)[page]? = none from
    Std.TreeMap.getElem?_emptyc)

theorem before (h : p.Sized size) {b : BeforeImage} (hb : (p.frame f).before = some b) : b.bytes.length = size := by
  unfold Pool.frame at hb
  cases hx : p.frames[f]? with
  | none =>
    rw [hx] at hb
    cases hb
  | some x =>
    rw [hx] at hb
    exact (h.frames f x hx).2 b hb

/-- A frame that holds a page is there, so its bytes are as long as a page. -/
theorem bytes (h : p.Sized size) (hf : (p.frame f).page = some page) : (p.frame f).bytes.length = size := by
  have hx := List.getElem?_eq_getElem (lt_of_page hf)
  rw [Pool.frame, hx]
  exact (h.frames f _ hx).1

/-- A change of the pool that touches neither frames nor before-images. -/
theorem congr (h : p.Sized size) (hconfig : p'.config = p.config) (hframes : p'.frames = p.frames)
    (hretained : p'.retained = p.retained) : p'.Sized size :=
  ⟨hconfig ▸ h.config, hframes ▸ h.frames, hretained ▸ h.retained⟩

theorem modifyFrame (h : p.Sized size) {c : Frame → Frame}
    (hc : ∀ x, p.frames[f]? = some x → x.copy.Fits size → (c x).copy.Fits size) : (p.modifyFrame f c).Sized size where
  config := h.config
  frames g y hy := by
    unfold Pool.modifyFrame at hy
    rw [List.getElem?_modify] at hy
    obtain ⟨x, hx, rfl⟩ := Option.map_eq_some_iff.1 hy
    split
    · rename_i e
      exact hc x (e ▸ hx) (h.frames g x hx)
    · exact h.frames g x hx
  retained := h.retained

theorem pin (h : p.Sized size) (f : FrameId) : (p.pin f).Sized size := h.modifyFrame fun _ _ hx => hx

theorem unpin (h : p.Sized size) (f : FrameId) : (p.unpin f).Sized size := h.modifyFrame fun _ _ hx => hx

theorem foldl {γ : Type} {c : Pool → γ → Pool} (hc : ∀ p x, p.Sized size → (c p x).Sized size) (l : List γ)
    (h : p.Sized size) : (l.foldl c p).Sized size := by
  induction l generalizing p with
  | nil => exact h
  | cons x l ih => exact ih (hc p x h)

theorem pinAll (h : p.Sized size) (pinned : List (PageId × FrameId)) :
    (pinned.foldl (fun p (_, f) => p.pin f) p).Sized size :=
  foldl (c := fun p (x : PageId × FrameId) => p.pin x.2) (fun _ x h => h.pin x.2) pinned h

theorem unpinAll (h : p.Sized size) (pinned : List (PageId × FrameId)) :
    (pinned.foldl (fun p (_, f) => p.unpin f) p).Sized size :=
  foldl (c := fun p (x : PageId × FrameId) => p.unpin x.2) (fun _ x h => h.unpin x.2) pinned h

/-- A frame without its page has bytes as before, and no before-image. -/
theorem reset (h : p.Sized size) : (p.modifyFrame f Frame.reset).Sized size :=
  h.modifyFrame fun _ _ hx => ⟨hx.1, nofun⟩

theorem written (h : p.Sized size) : (p.modifyFrame f Frame.written).Sized size := by
  refine h.modifyFrame fun x _ hx => ⟨hx.1, fun b hb => ?_⟩
  obtain ⟨b', hb', rfl⟩ := Option.map_eq_some_iff.1 hb
  exact hx.2 b' hb'

theorem capture (h : p.Sized size) (t : TxnId) : (p.modifyFrame f fun x => x.capture t).Sized size := by
  refine h.modifyFrame fun x _ hx => ?_
  unfold Frame.capture
  split
  · exact hx
  · refine ⟨hx.1, fun b hb => ?_⟩
    cases hb
    exact hx.1

/-- Bytes replaced by as many. -/
theorem setBytes (h : p.Sized size) {bytes : Bytes} (hl : bytes.length = (p.frame f).bytes.length) :
    (p.modifyFrame f fun x => { x with bytes }).Sized size := by
  refine h.modifyFrame fun x hx hfits => ⟨?_, hfits.2⟩
  rw [Pool.frame, hx] at hl
  exact hl.trans hfits.1

theorem install (h : p.Sized size) (f : FrameId) (page : PageId) {bytes : Bytes} (hl : bytes.length = size) :
    (p.install f page bytes).Sized size := by
  have h' := h.modifyFrame (f := f)
    (c := fun x => { x with bytes, page := some page, dirtyBy := none, before := p.retained[page]? })
    fun _ _ _ => ⟨hl, fun b hb => h.retained page b hb⟩
  refine ⟨h'.config, h'.frames, fun q b hb => ?_⟩
  rw [retained_install] at hb
  split at hb
  · cases hb
  · exact h.retained q b hb

/-- Before-images of one page are kept aside, all others as they were. -/
theorem of_retained (h : p.Sized size) (page : PageId) {x : Option BeforeImage}
    (hx : ∀ b, x = some b → b.bytes.length = size)
    (hframes : ∀ (f : FrameId) (x : Frame), p'.frames[f]? = some x → x.copy.Fits size) (hconfig : p'.config = p.config)
    (hretained : ∀ q : PageId, p'.retained[q]? = if q = page then x.or p.retained[q]? else p.retained[q]?) :
    p'.Sized size := by
  refine ⟨hconfig ▸ h.config, hframes, fun q b hb => ?_⟩
  rw [hretained] at hb
  split at hb
  · rcases Option.or_eq_some_iff.1 hb with hb | ⟨-, hb⟩
    · exact hx b hb
    · exact h.retained q b hb
  · exact h.retained q b hb

theorem unmap (h : p.Sized size) (f : FrameId) (page : PageId) : (p.unmap f page).Sized size :=
  h.of_retained page (fun _ hb => h.before hb) (h.reset (f := f)).frames rfl (retained_unmap p f page)

theorem discard (h : p.Sized size) (page : PageId) : (p.discard page).Sized size := by
  cases hp : p.find? page with
  | none => exact (discard_of_none hp).symm ▸ h
  | some f =>
    have hframes : (p.discard page).frames = (p.modifyFrame f Frame.reset).frames := by
      unfold Pool.discard
      rw [hp]
    have hconfig : (p.discard page).config = p.config := by
      unfold Pool.discard
      simp only [hp]
      rfl
    refine h.of_retained page (fun b hb => ?_) (hframes ▸ (h.reset (f := f)).frames) hconfig
      (retained_discard hp)
    exact h.before (Option.filter_eq_some_iff.1 hb).1

theorem reclaim (h : p.Sized size) : p.reclaim.Sized size :=
  (foldl (c := fun p f => p.modifyFrame f Frame.reset) (fun _ _ h => h.reset) _ h).congr rfl rfl rfl

theorem forget (h : p.Sized size) (t : TxnId) : (p.forget t).Sized size := by
  refine ⟨h.config, h.frames, fun page b hb => ?_⟩
  have hkept : (p.forget t).retained[page]? = p.retained[page]?.filter fun b => b.owner ≠ t :=
    Std.TreeMap.getElem?_filter'
  exact h.retained page b (Option.filter_eq_some_iff.1 (hkept.symm.trans hb)).1

theorem markDirty (h : p.Sized size) (page : PageId) (t : TxnId) : (p.markDirty page t).Sized size := by
  unfold Pool.markDirty
  split
  · exact h
  · exact h.modifyFrame fun _ _ hx => hx

theorem giveBack (h : p.Sized size) (g : Guard) : (g.giveBack p).Sized size := by
  have hleave : ∀ {p : Pool}, p.Sized size → ((p.unpin g.frame).leave g.frame g.mode).Sized size := fun h =>
    (h.unpin g.frame).modifyFrame fun _ _ hx => hx
  unfold Guard.giveBack
  split
  · exact hleave (h.modifyFrame fun _ _ hx => hx)
  · exact hleave h

end Sized

end Pool

/-! ## Stores -/

/-- All that the pool of a store has of pages is as long as those of a first store, whose tables have grown at most. -/
structure Store.Sized (s₀ s : Store) : Prop where
  pool : s.pool.Sized s₀.pool.config.pageSize
  grown : s₀.volume.Extends s.volume
  catalog : s.catalog = s₀.catalog

variable {s₀ s : Store} {f : FrameId} {page : PageId} {t : TxnId}

theorem Store.Sized.withPool (h : s₀.Sized s) {p : Pool} (hp : p.Sized s₀.pool.config.pageSize) :
    s₀.Sized { s with pool := p } :=
  ⟨hp, h.grown, h.catalog⟩

namespace Action

theorem Lasting.sized : Lasting s₀.Sized :=
  ⟨fun _ _ hw h => ⟨h.pool, h.grown.trans hw, h.catalog⟩, fun _ _ _ h => ⟨h.pool, h.grown, h.catalog⟩⟩

theorem sized_modifyPool {g : Pool → Pool} (hg : ∀ {size : Nat} (p : Pool), p.Sized size → (g p).Sized size) :
    Keeps s₀.Sized (modifyPool g) :=
  .modifyPool fun _ h => h.withPool (hg _ h.pool)

theorem sized_count (g : Counters → Counters) : Keeps s₀.Sized (modifyPool fun p => p.count g) :=
  sized_modifyPool fun _ h => h.congr rfl rfl rfl

/-! ### Pages into frames -/

theorem sized_writeBack (f : FrameId) (page : PageId) : Keeps s₀.Sized (writeBack f page) := by
  refine .bind_get fun s hs => ?_
  dsimp only
  split
  · refine Keeps.bind (keeps_resolve _) (fun h => ?_) s hs
    have hwrite : Keeps s₀.Sized (do
        writePage h page (s.pool.frame f).bytes
        modifyPool fun p => (p.modifyFrame f Frame.written).count fun c =>
          { c with pagesWritten := c.pagesWritten + 1 }) :=
      .bind (keeps_writePage .sized h page _) fun _ => sized_modifyPool fun _ hp => hp.written.congr rfl rfl rfl
    split
    · exact hwrite
    · exact .bind (keeps_append .sized _) fun _ => .bind (keeps_force .sized) fun _ => hwrite
  · exact hs

theorem sized_evict (f : FrameId) : Keeps s₀.Sized (evict f) := by
  refine .bind_get fun s hs => ?_
  split
  · exact hs
  · rename_i page _
    rw [ends_bind]
    exact (sized_writeBack f page s hs).mono
      (fun _ _ h' => h'.withPool ((h'.pool.unmap f page).congr rfl rfl rfl)) fun _ _ h' => h'

theorem sized_takeVictim : Keeps s₀.Sized takeVictim := by
  refine .bind_get fun s hs => ?_
  cases hv : s.pool.clock.evict s.pool.isPinned with
  | mk victim clock =>
    have h₁ : s₀.Sized (s.modifyPool fun p => { p with clock }) := hs.withPool (hs.pool.congr rfl rfl rfl)
    simp only [hv]
    rw [ends_bind, ends_modifyPool]
    cases victim with
    | none => exact h₁
    | some f =>
      show ((evict f).orElseDo _ >>= _).Ends _ _ _
      rw [ends_bind, ends_orElseDo]
      exact (sized_evict f _ h₁).mono (fun _ _ h' => h') fun _ _ h' => h'.withPool (h'.pool.congr rfl rfl rfl)

theorem sized_takeFrame : Keeps s₀.Sized takeFrame := by
  refine .bind (sized_modifyPool fun _ hp => hp.reclaim) fun _ => .bind_get fun s hs => ?_
  split
  · exact ⟨hs.pool.congr rfl rfl rfl, hs.grown, hs.catalog⟩
  · exact sized_takeVictim s hs

/-- The pages of a table that the cache can use are as long as its own. -/
theorem ends_resolve_size (table : TableId) : (resolve table).Ends s
    (fun h s' => s' = s ∧ ∃ file, s.file? h = some file ∧ file.pages.pageSize = s.pool.config.pageSize)
    fun _ s' => s' = s := by
  unfold resolve
  rw [ends_bind, ends_get, ends_bind]
  cases s.catalog.handle table with
  | error e => exact rfl
  | ok h =>
    rw [ends_ofExcept_ok, ends_bind]
    refine (ends_file h).mono (fun file s' h' => ?_) fun _ _ h' => h'
    obtain ⟨rfl, hfile⟩ := h'
    split
    · rename_i hsize
      exact ⟨rfl, file, hfile, hsize⟩
    · exact rfl

theorem ends_readPage_size {h : HandleId} {file : HeapFile} (hfile : s.file? h = some file) (page : PageId) :
    (readPage h page).Ends s (fun bytes s' => s' = s ∧ bytes.length = file.pages.pageSize) fun _ s' => s' = s := by
  unfold readPage
  rw [ends_bind, ends_of_ok (file_of_some hfile), ends_bind, ends_get]
  unfold Volume.readPage PageFile.read
  split
  · split
    · exact ⟨rfl, Bytes.length_window ..⟩
    · rfl
  · rfl

theorem sized_load (page : PageId) : Keeps s₀.Sized (load page) := by
  refine .bind (sized_count _) fun _ s hs => ?_
  rw [ends_bind]
  refine (ends_resolve_size page.table).mono (fun h s' h' => ?_) fun _ _ h' => h' ▸ hs
  obtain ⟨rfl, file, hfile, hsize⟩ := h'
  rw [ends_bind]
  refine (ends_readPage_size hfile page).mono (fun bytes s' h' => ?_) fun _ _ h' => h' ▸ hs
  obtain ⟨rfl, hl⟩ := h'
  have hlength : bytes.length = s₀.pool.config.pageSize := hl.trans (hsize.trans hs.pool.config)
  refine Keeps.bind (sized_count _) (fun _ => .bind sized_takeFrame fun f => ?_) s' hs
  refine .bind (.modifyPool fun s h => h.withPool ?_) fun _ => .bind (keeps_note .sized _) fun _ => .pure _
  exact ((h.pool.install f page hlength).pin f).congr rfl rfl rfl

theorem sized_fetch (page : PageId) : Keeps s₀.Sized (fetch page) := by
  refine .bind_get fun s hs => ?_
  split
  · rename_i f _
    exact hs.withPool ((hs.pool.pin f).congr rfl rfl rfl)
  · exact sized_load page s hs

/-! ### Ends of transactions -/

theorem sized_withPinned (pages : List PageId) {body : List (PageId × FrameId) → Action Unit}
    (hbody : ∀ pinned, Keeps s₀.Sized (body pinned)) : Keeps s₀.Sized (withPinned pages body) := by
  refine .bind_get fun s hs => ?_
  exact Keeps.bind (sized_modifyPool fun _ hp => hp.pinAll _)
    (fun _ => .andAlways (hbody _) fun _ h => h.withPool (h.pool.unpinAll _)) s hs

theorem sized_logChange (t : TxnId) (page : PageId) (f : FrameId) : Keeps s₀.Sized (logChange t page f) := by
  refine .bind_get fun s hs => ?_
  dsimp only
  split
  · split
    · exact hs
    · rw [ends_bind, ends_modifyPool]
      have h₁ := hs.withPool (hs.pool.modifyFrame (f := f) (c := fun x => { x with before := none })
        fun _ _ hx => ⟨hx.1, fun _ hb => nomatch hb⟩)
      exact keeps_append .sized _ _ h₁
  · exact hs

theorem sized_writeBackAll (pinned : List (PageId × FrameId)) : Keeps s₀.Sized (writeBackAll pinned) :=
  .forM (fun x => sized_writeBack x.2 x.1) pinned

theorem sized_forget (t : TxnId) : Keeps s₀.Sized (modifyPool fun p => p.forget t) :=
  sized_modifyPool fun _ h => h.forget t

theorem sized_commit (t : TxnId) (pages : List PageId) : Keeps s₀.Sized (commit t pages) := by
  refine .bind (sized_withPinned pages fun pinned => ?_) fun _ =>
    .bind (sized_forget t) fun _ => keeps_note .sized _
  refine .bind (.forM (fun x => sized_logChange t x.1 x.2) pinned) fun _ => ?_
  exact .bind (keeps_append .sized _) fun _ => .bind (keeps_force .sized) fun _ => sized_writeBackAll pinned

theorem sized_restorePage (t : TxnId) (page : PageId) (f : FrameId) : Keeps s₀.Sized (restorePage t page f) := by
  refine .bind_get fun s hs => ?_
  dsimp only
  split
  · split
    · exact hs
    · rename_i b hb
      have hl : b.bytes.length = s₀.pool.config.pageSize := hs.pool.before (beforeOf?_eq_some hb).1
      have h₁ := hs.withPool (hs.pool.modifyFrame (f := f) (c := fun x => x.restore b) fun _ _ _ => ⟨hl, nofun⟩)
      rw [ends_bind, ends_modifyPool]
      split
      · refine Keeps.bind (keeps_resolve _) (fun h => ?_) _ h₁
        exact .bind (keeps_writePage .sized h page _) fun _ => .bind (sized_count _) fun _ => sized_count _
      · exact sized_count _ _ h₁
  · exact hs

theorem sized_restoreRetained (page : PageId) (b : BeforeImage) : Keeps s₀.Sized (restoreRetained page b) :=
  .bind (keeps_resolve _) fun h => .bind (keeps_writePage .sized h page _) fun _ => sized_count _

theorem sized_rollback (t : TxnId) (pages : List PageId) : Keeps s₀.Sized (rollback t pages) := by
  have hend : ∀ l : List (PageId × BeforeImage), Keeps s₀.Sized (do
      l.forM fun x => restoreRetained x.1 x.2
      append (.abort t)
      force
      note (.completed t false)) := fun l =>
    .bind (.forM (fun x => sized_restoreRetained x.1 x.2) l) fun _ => .bind (keeps_append .sized _) fun _ =>
      .bind (keeps_force .sized) fun _ => keeps_note .sized _
  refine .bind (keeps_note .sized _) fun _ => .bind (sized_withPinned pages fun pinned =>
    .forM (fun x => sized_restorePage t x.1 x.2) pinned) fun _ => .bind_get fun s hs => ?_
  exact Keeps.bind (sized_forget t) (fun _ => hend _) s hs

theorem sized_complete (t : TxnId) (wantsCommit : Bool) : Keeps s₀.Sized (complete t wantsCommit) := by
  have hunlock : ∀ s, s₀.Sized s → s₀.Sized (unlock t s) := fun s h =>
    ⟨h.pool.congr rfl rfl rfl, h.grown, h.catalog⟩
  refine .bind_get fun s hs => ?_
  have hpardon : s₀.Sized (s.modifyPool fun p => p.pardon t) := hs.withPool (hs.pool.congr rfl rfl rfl)
  dsimp only
  rw [ends_bind, ends_modifyPool]
  split
  · exact Keeps.bind (.andAlways (sized_commit t _) hunlock) (fun _ => sized_count _) _ hpardon
  · refine Keeps.bind (.andAlways (sized_rollback t _) hunlock) (fun _ => .bind (sized_count _) fun _ => ?_) _ hpardon
    cases wantsCommit with
    | true => exact .throw _
    | false => exact .pure _

end Action

/-! ## Runs -/

theorem Store.Sized.lock {r : Request} (h : s₀.Sized s) :
    r.lock.Ends s
      (fun p s' => match p with
        | .finished _ => False
        | .moved r' => (∃ stage, r' = r.goto stage) ∧ s₀.Sized s'
        | .blocked r' => (∃ stage, r' = r.goto stage) ∧ s₀.Sized s')
      fun _ s' => s₀.Sized s' := by
  unfold Request.lock
  rw [ends_bind, ends_get]
  cases s.pool.locks.acquire r.txn r.page r.mode with
  | mk answer locks =>
    have h₁ : s₀.Sized (s.modifyPool fun p => { p with locks }) := h.withPool (h.pool.congr rfl rfl rfl)
    dsimp only
    rw [ends_bind, ends_modifyPool]
    cases answer with
    | granted =>
      show (Action.fetch r.page >>= _).Ends _ _ _
      rw [ends_bind]
      exact (sized_fetch r.page _ h₁).mono (fun f s' h' => ⟨⟨_, rfl⟩, h'⟩) fun _ _ h' => h'
    | waits => exact ⟨⟨_, rfl⟩, h₁⟩
    | refused => exact h₁.withPool (h₁.pool.congr rfl rfl rfl)

theorem Store.Sized.beginChange {g : Guard} (h : s₀.Sized s) :
    g.beginChange.Ends s
      (fun g' s' => g' = { g with changed := true } ∧ Grip.any.On s' g'.use ∧ s₀.Sized s' ∧ g'.bytes s' = g.bytes s)
      fun _ _ => False := by
  unfold Guard.beginChange
  cases hc : g.changed with
  | true =>
    have hg : { g with changed := true } = g := by rw [← hc]
    simp only [Bool.not_true, Bool.false_eq_true, if_false, ends_pure, hg]
    exact ⟨trivial, trivial, h, trivial⟩
  | false =>
    simp only [Bool.not_false, if_true, ends_bind, ends_modifyPool, ends_note, ends_pure]
    have h₁ := h.withPool (h.pool.capture (f := g.frame) g.txn)
    exact ⟨trivial, trivial, ⟨h₁.pool, h₁.grown, h₁.catalog⟩,
      Pool.modifyFrame_keeps s.pool g.frame g.frame Frame.bytes fun x => (x.capture_captured g.txn).bytes⟩

/-- What a run is made of keeps the lengths of pages. -/
theorem stewardship_sized (s₀ : Store) :
    Stewardship .any s₀ (fun _ _ => True) (fun _ _ _ => True) fun _ s => s₀.Sized s where
  perm h _ := h
  grown h := h.grown
  allocatePage hd h := keeps_allocatePage .sized hd _ h
  lock r _ _ h := h.lock.mono (fun p _ h' => by
    cases p with
    | finished g => exact h'
    | moved r' => exact ⟨h'.1, fun _ _ => trivial, h'.2⟩
    | blocked r' => exact ⟨h'.1, fun _ _ => trivial, h'.2⟩) fun _ _ h' => h'
  enter _ _ h := h.withPool (h.pool.modifyFrame fun _ _ hx => hx)
  look _ h := ⟨h.pool, h.grown, h.catalog⟩
  beginChange h _ _ := h.beginChange
  setBytes {_ _ g bytes} h _ _ _ hl := by
    have h₁ := h.withPool (h.pool.setBytes (f := g.frame) hl)
    unfold Guard.setBytes
    rw [ends_bind, ends_modifyPool, ends_note]
    exact ⟨trivial, h₁.pool, h₁.grown, h₁.catalog⟩
  release {_ _ g} h _ _ := ⟨h.withPool (h.pool.giveBack g), fun _ _ => trivial⟩
  mark h₀ h := h.withPool (h.pool.markDirty _ _)
  startFlush _ pages h := by
    unfold Flush.start
    rw [ends_bind, ends_get, ends_bind, ends_modifyPool, ends_pure]
    exact ⟨rfl, h.withPool (h.pool.pinAll _)⟩
  flush {_ s fl} _ _ h hr := by
    have hunpin : ∀ s, s₀.Sized s → s₀.Sized (fl.unpinAll s) := fun s hs => hs.withPool (hs.pool.unpinAll _)
    unfold Flush.step
    split
    · exact hunpin s h
    · rename_i page f rest hrest
      have hin : ∀ x ∈ rest, x ∈ fl.pinned := fun x hx => hr x (hrest ▸ List.mem_cons_of_mem _ hx)
      rw [ends_bind, ends_get]
      dsimp only
      split
      · exact ⟨hin, h⟩
      · split
        · rw [ends_bind, ends_orElseDo]
          exact (sized_writeBack f page s h).mono (fun _ s' h' => ⟨hin, h'⟩) fun _ s' h' => hunpin s' h'
        · exact ⟨hr, h⟩
  complete wantsCommit _ _ h _ := sized_complete _ wantsCommit _ h

end TupleStore
