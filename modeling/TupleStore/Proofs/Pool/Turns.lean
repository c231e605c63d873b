import TupleStore.Proofs.Cache.Victims
import TupleStore.Proofs.Events

/-!
# The hand of the clock

Whatever happens to a store, the hand of its clock is at one of the frames (`World.turns_handleAll`). Only accesses,
discards and the choice of victims touch the clock, and all of them leave it fit.
-/

namespace TupleStore

set_option autoImplicit false

open TupleStore.Action

/-- The clock of a store is fit, and tables are those of a first store, or larger. -/
structure Store.Turns (s₀ s : Store) : Prop where
  clock : s.pool.clock.Fit
  grown : s₀.volume.Extends s.volume

variable {s₀ s s' : Store} {w : World} {t : TxnId}

namespace Store.Turns

theorem congr (h : s₀.Turns s) (hv : s'.volume = s.volume) (hc : s'.pool.clock = s.pool.clock) : s₀.Turns s' :=
  ⟨hc ▸ h.clock, hv ▸ h.grown⟩

theorem modifyPool (h : s₀.Turns s) {g : Pool → Pool} (hg : ∀ p, (g p).clock = p.clock) :
    s₀.Turns (s.modifyPool g) :=
  h.congr rfl (hg _)

theorem touch (h : s₀.Turns s) (f : FrameId) : s₀.Turns (s.modifyPool fun p => p.touch f) :=
  ⟨h.clock.access f, h.grown⟩

end Store.Turns

namespace Pool

theorem clock_foldl {γ : Type} (step : Pool → γ → Pool) (h : ∀ p x, (step p x).clock = p.clock) (l : List γ)
    (p : Pool) : (l.foldl step p).clock = p.clock := by
  induction l generalizing p with
  | nil => rfl
  | cons x l ih => exact (ih _).trans (h p x)

theorem clock_reclaim (p : Pool) : p.reclaim.clock = p.clock :=
  clock_foldl (fun p f => p.modifyFrame f Frame.reset) (fun _ _ => rfl) _ p

theorem clock_pinAll (pinned : List (PageId × FrameId)) (p : Pool) :
    (pinned.foldl (fun p (_, f) => p.pin f) p).clock = p.clock :=
  clock_foldl (fun p (x : PageId × FrameId) => p.pin x.2) (fun _ _ => rfl) pinned p

theorem clock_unpinAll (pinned : List (PageId × FrameId)) (p : Pool) :
    (pinned.foldl (fun p (_, f) => p.unpin f) p).clock = p.clock :=
  clock_foldl (fun p (x : PageId × FrameId) => p.unpin x.2) (fun _ _ => rfl) pinned p

theorem clock_markDirty (p : Pool) (page : PageId) (t : TxnId) : (p.markDirty page t).clock = p.clock := by
  unfold markDirty
  split <;> rfl

theorem clock_giveBack (p : Pool) (g : Guard) : (g.giveBack p).clock = p.clock := by
  unfold Guard.giveBack
  split <;> rfl

theorem fit_discard {p : Pool} (h : p.clock.Fit) (page : PageId) : (p.discard page).clock.Fit := by
  unfold discard
  split
  · exact h
  · exact h.remove _

end Pool

namespace Action

/-! ## What the cache does -/

theorem Lasting.turns : Lasting s₀.Turns :=
  ⟨fun _ _ hw h => ⟨h.clock, h.grown.trans hw⟩, fun _ _ _ h => ⟨h.clock, h.grown⟩⟩

theorem turns_modifyPool {g : Pool → Pool} (hg : ∀ p, (g p).clock = p.clock) : Keeps s₀.Turns (modifyPool g) :=
  .modifyPool fun _ h => h.modifyPool hg

theorem turns_count (g : Counters → Counters) : Keeps s₀.Turns (modifyPool fun p => p.count g) :=
  turns_modifyPool fun _ => rfl

theorem turns_forget (t : TxnId) : Keeps s₀.Turns (modifyPool fun p => p.forget t) := turns_modifyPool fun _ => rfl

theorem turns_modifyFrame (f : FrameId) (g : Frame → Frame) : Keeps s₀.Turns (modifyPool fun p => p.modifyFrame f g) :=
  turns_modifyPool fun _ => rfl

theorem turns_writeBack (f : FrameId) (page : PageId) : Keeps s₀.Turns (writeBack f page) := by
  refine .bind_get fun s hs => ?_
  dsimp only
  split
  · refine Keeps.bind (keeps_resolve _) (fun h => ?_) s hs
    have hwrite : Keeps s₀.Turns (do
        writePage h page (s.pool.frame f).bytes
        modifyPool fun p => (p.modifyFrame f Frame.written).count fun c =>
          { c with pagesWritten := c.pagesWritten + 1 }) :=
      .bind (keeps_writePage .turns h page _) fun _ => turns_modifyPool fun _ => rfl
    split
    · exact hwrite
    · exact .bind (keeps_append .turns _) fun _ => .bind (keeps_force .turns) fun _ => hwrite
  · exact hs

theorem turns_evict (f : FrameId) : Keeps s₀.Turns (evict f) := by
  refine .bind_get fun s hs => ?_
  split
  · exact hs
  · rw [ends_bind]
    exact (turns_writeBack f _ s hs).mono (fun _ _ h' => h'.congr rfl rfl) fun _ _ h' => h'

/-- A victim leaves the clock fit, and so does one that cannot be written and is tracked again. -/
theorem turns_takeVictim : Keeps s₀.Turns takeVictim := by
  refine .bind_get fun s hs => ?_
  cases hv : s.pool.clock.evict s.pool.isPinned with
  | mk victim clock =>
    have hclock : s₀.Turns (s.modifyPool fun p => { p with clock }) := by
      refine ⟨?_, hs.grown⟩
      have hfit := hs.clock.evict s.pool.isPinned
      rw [hv] at hfit
      exact hfit
    simp only [hv]
    rw [ends_bind, ends_modifyPool]
    cases victim with
    | none => exact hclock
    | some f =>
      show ((evict f).orElseDo _ >>= _).Ends _ _ _
      rw [ends_bind, ends_orElseDo]
      exact (turns_evict f _ hclock).mono (fun _ _ h' => h') fun _ _ h' => h'.touch f

theorem turns_takeFrame : Keeps s₀.Turns takeFrame := by
  refine .bind (turns_modifyPool Pool.clock_reclaim) fun _ => .bind_get fun s hs => ?_
  split
  · exact hs.congr rfl rfl
  · exact turns_takeVictim s hs

theorem turns_fetch (page : PageId) : Keeps s₀.Turns (fetch page) := by
  refine .bind_get fun s hs => ?_
  split
  · exact ⟨hs.clock.access _, hs.grown⟩
  · refine Keeps.bind (turns_count _) (fun _ => .bind (keeps_resolve _) fun hd => ?_) s hs
    refine .bind (keeps_readPage hd page) fun bytes => .bind (turns_count _) fun _ => ?_
    refine .bind turns_takeFrame fun f => .bind (.modifyPool fun s h => ?_) fun _ =>
      .bind (keeps_note .turns _) fun _ => .pure _
    exact ⟨h.clock.access f, h.grown⟩

/-! ### Ends of transactions -/

theorem turns_withPinned (pages : List PageId) {body : List (PageId × FrameId) → Action Unit}
    (hbody : ∀ pinned, Keeps s₀.Turns (body pinned)) : Keeps s₀.Turns (withPinned pages body) := by
  refine .bind_get fun s hs => ?_
  exact Keeps.bind (turns_modifyPool (Pool.clock_pinAll _))
    (fun _ => .andAlways (hbody _) fun _ h => h.modifyPool (Pool.clock_unpinAll _)) s hs

theorem turns_logChange (t : TxnId) (page : PageId) (f : FrameId) : Keeps s₀.Turns (logChange t page f) := by
  refine .bind_get fun s hs => ?_
  dsimp only
  split
  · split
    · exact hs
    · exact Keeps.bind (turns_modifyFrame f _) (fun _ => keeps_append .turns _) s hs
  · exact hs

theorem turns_commit (t : TxnId) (pages : List PageId) : Keeps s₀.Turns (commit t pages) := by
  refine .bind (turns_withPinned pages fun pinned => ?_) fun _ =>
    .bind (turns_forget t) fun _ => keeps_note .turns _
  refine .bind (.forM (fun x => turns_logChange t x.1 x.2) pinned) fun _ => ?_
  exact .bind (keeps_append .turns _) fun _ => .bind (keeps_force .turns) fun _ =>
    .forM (fun x => turns_writeBack x.2 x.1) pinned

theorem turns_restorePage (t : TxnId) (page : PageId) (f : FrameId) : Keeps s₀.Turns (restorePage t page f) := by
  refine .bind_get fun s hs => ?_
  dsimp only
  split
  · split
    · exact hs
    · refine Keeps.bind (turns_modifyFrame f _) (fun _ => ?_) s hs
      split
      · exact .bind (keeps_resolve _) fun hd => .bind (keeps_writePage .turns hd page _) fun _ =>
          .bind (turns_count _) fun _ => turns_count _
      · exact turns_count _
  · exact hs

theorem turns_restoreRetained (page : PageId) (b : BeforeImage) : Keeps s₀.Turns (restoreRetained page b) :=
  .bind (keeps_resolve _) fun hd => .bind (keeps_writePage .turns hd page _) fun _ => turns_count _

theorem turns_rollback (t : TxnId) (pages : List PageId) : Keeps s₀.Turns (rollback t pages) := by
  have hretained : ∀ l : List (PageId × BeforeImage), Keeps s₀.Turns (l.forM fun x => restoreRetained x.1 x.2) :=
    .forM fun x => turns_restoreRetained x.1 x.2
  refine .bind (keeps_note .turns _) fun _ => .bind (turns_withPinned pages fun pinned =>
    .forM (fun x => turns_restorePage t x.1 x.2) pinned) fun _ => .bind_get fun s hs => ?_
  exact Keeps.bind (turns_forget t) (fun _ => .bind (hretained _) fun _ =>
    .bind (keeps_append .turns _) fun _ => .bind (keeps_force .turns) fun _ => keeps_note .turns _) s hs

theorem turns_complete (t : TxnId) (wantsCommit : Bool) : Keeps s₀.Turns (complete t wantsCommit) := by
  have hunlock : ∀ s, s₀.Turns s → s₀.Turns (unlock t s) := fun _ h => h.congr rfl rfl
  refine .bind_get fun s hs => ?_
  have hpardon : s₀.Turns (s.modifyPool fun p => p.pardon t) := hs.congr rfl rfl
  dsimp only
  rw [ends_bind, ends_modifyPool]
  split
  · exact Keeps.bind (.andAlways (turns_commit t _) hunlock) (fun _ => turns_count _) _ hpardon
  · refine Keeps.bind (.andAlways (turns_rollback t _) hunlock) (fun _ => .bind (turns_count _) fun _ => ?_) _ hpardon
    cases wantsCommit with
    | true => exact .throw _
    | false => exact .pure _

end Action

/-! ## Runs -/

/-- What a run is made of leaves the clock fit. -/
theorem stewardship_turns (s₀ : Store) :
    Stewardship .any s₀ (fun _ _ => True) (fun _ _ _ => True) fun _ s => s₀.Turns s where
  perm h _ := h
  grown h := h.grown
  allocatePage hd h := keeps_allocatePage .turns hd _ h
  lock {_ s} r _ _ h := by
    unfold Request.lock
    rw [ends_bind, ends_get]
    cases s.pool.locks.acquire r.txn r.page r.mode with
    | mk answer locks =>
      have h₁ : s₀.Turns (s.modifyPool fun p => { p with locks }) := h.congr rfl rfl
      dsimp only
      rw [ends_bind, ends_modifyPool]
      cases answer with
      | granted =>
        show (Action.fetch r.page >>= _).Ends _ _ _
        rw [ends_bind]
        exact (turns_fetch r.page _ h₁).mono (fun f s' h' => ⟨⟨_, rfl⟩, fun _ _ => trivial, h'⟩) fun _ _ h' => h'
      | waits => exact ⟨⟨_, rfl⟩, fun _ _ => trivial, h₁⟩
      | refused => exact h₁.congr rfl rfl
  enter _ _ h := h.congr rfl rfl
  look _ h := h.congr rfl rfl
  beginChange {_ s g} h _ _ := by
    unfold Guard.beginChange
    cases hc : g.changed with
    | true =>
      have hg : { g with changed := true } = g := by rw [← hc]
      simp only [Bool.not_true, Bool.false_eq_true, if_false, ends_pure, hg]
      exact ⟨trivial, trivial, h, trivial⟩
    | false =>
      simp only [Bool.not_false, if_true, ends_bind, ends_modifyPool, ends_note, ends_pure]
      exact ⟨trivial, trivial, h.congr rfl rfl,
        Pool.modifyFrame_keeps s.pool g.frame g.frame Frame.bytes fun x => (x.capture_captured g.txn).bytes⟩
  setBytes h _ _ _ _ := by
    unfold Guard.setBytes
    rw [ends_bind, ends_modifyPool, ends_note]
    exact ⟨trivial, h.congr rfl rfl⟩
  release {_ _ g} h _ _ := ⟨h.modifyPool fun p => p.clock_giveBack g, fun _ _ => trivial⟩
  mark _ h := h.modifyPool fun p => p.clock_markDirty _ _
  startFlush _ pages h := by
    unfold Flush.start
    rw [ends_bind, ends_get, ends_bind, ends_modifyPool, ends_pure]
    exact ⟨rfl, h.modifyPool (Pool.clock_pinAll _)⟩
  flush {_ s fl} _ _ h hr := by
    have hunpin : ∀ s, s₀.Turns s → s₀.Turns (fl.unpinAll s) := fun _ hs => hs.modifyPool (Pool.clock_unpinAll _)
    unfold Flush.step
    split
    · exact hunpin s h
    · rename_i page f rest hrest
      have hin : ∀ x ∈ rest, x ∈ fl.pinned := fun x hx => hr x (hrest ▸ List.mem_cons_of_mem _ hx)
      rw [ends_bind, ends_get]
      dsimp only
      split
      · exact ⟨hin, h⟩
      · split
        · rw [ends_bind, ends_orElseDo]
          exact (turns_writeBack f page s h).mono (fun _ s' h' => ⟨hin, h'⟩) fun _ s' h' => hunpin s' h'
        · exact ⟨hr, h⟩
  complete wantsCommit _ _ h _ := turns_complete _ wantsCommit _ h

namespace World

/-- An action that leaves the clock fit. -/
theorem turns_perform (h : w.store.pool.clock.Fit) {α : Type} {x : Action α} (hx : Keeps w.store.Turns x) :
    (w.perform x fun _ w => w).store.pool.clock.Fit :=
  of_perform (P := fun w => w.store.pool.clock.Fit)
    ((hx _ ⟨h, .refl _⟩).mono (fun _ _ hs => hs.clock) fun _ _ hs => hs.clock)

theorem turns_apply (hb : w.Balanced) (h : w.store.pool.clock.Fit) (op : Op) : (w.apply op).store.pool.clock.Fit := by
  by_cases hop : op.Cached
  · have hkept : World.Kept w.store (fun hd => w.store.file? hd ≠ none) (fun _ s => w.store.Turns s) w :=
      ⟨⟨h, .refl _⟩, hb.guards, hb.tasks, hb.handles⟩
    exact (Kept.apply (stewardship_turns w.store) hkept hop (op.grips_any w.store w)
      fun hd file hf => hf ▸ Option.some_ne_none file).store.clock
  · cases op with
    | rewrite hd page bytes => exact turns_perform h (keeps_writeRaw .turns hd page bytes)
    | _ => exact absurd trivial hop

/-- Files that come to be leave the pool alone. -/
theorem turns_addFile (h : w.store.pool.clock.Fit) (r : Except Error (HandleId × Volume)) :
    (w.perform (do
      let (h, volume) ← Action.ofExcept r
      modify fun s => { s with volume }
      pure h : Action HandleId) fun _ w => w).store.pool.clock.Fit := by
  refine of_perform (P := fun w => w.store.pool.clock.Fit) ?_
  rw [ends_bind]
  cases r with
  | error e => exact h
  | ok a => exact h

theorem turns_handle (hb : w.Balanced) (h : w.store.pool.clock.Fit) (e : Event) :
    (w.handle e).store.pool.clock.Fit := by
  cases e with
  | op op => exact turns_apply hb h op
  | complete t wantsCommit => exact turns_perform h (turns_complete t wantsCommit)
  | discard page => exact Pool.fit_discard h page
  | releaseLock t page =>
    refine turns_perform h (.bind_get fun s hs => ?_)
    cases s.pool.locks.release t page with
    | mk released locks => cases released <;> exact hs.congr rfl rfl
  | create path schema pageSize => exact turns_addFile h _
  | openFile path schema pageSize => exact turns_addFile h _
  | register hd name =>
    refine turns_perform h (.bind (keeps_file hd) fun file => ?_)
    exact fun _ hs => hs.congr rfl rfl
  | unregisterAll => exact h

/-- Whatever happens, the hand of the clock stays at a frame. -/
theorem turns_handleAll (events : List Event) (hb : w.Balanced) (h : w.store.pool.clock.Fit) :
    (handleAll events w).store.pool.clock.Fit := by
  induction events generalizing w with
  | nil => exact h
  | cons e events ih => exact ih (hb.handle e) (turns_handle hb h e)

end World

end TupleStore
