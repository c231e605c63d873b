import TupleStore.Pool.Fetch
import TupleStore.Proofs.Pool.Standing

/-!
# Pages into frames

The invariant is kept when a frame is written to its file, when a page is evicted and when a page is fetched.

* `ends_resolve`, `resolve_eq` : the handle of a table;
* `ends_writeBack` : a dirty frame written, for any page that may be written;
* `Copies.Imaged.mayWrite` : a frame with a before-image may be written, as its change is logged before;
* `Standing.writeBack`, `Standing.evict`, `Standing.takeFrame`, `Standing.load`, `Standing.fetch` : the invariant
  between steps, beside transactions that end.
-/

namespace TupleStore

set_option autoImplicit false

open TupleStore.Action

variable {s₀ s : Store} {uses : List Use} {ok : PageId → Copies → Account → Prop} {endings : List Ending}
  {f : FrameId} {page : PageId} {t : TxnId}

/-! ## Handles -/

theorem ends_resolve (g : Grounded s₀ s.volume s.catalog s.pool.config) (table : TableId) :
    (resolve table).Ends s
      (fun hd s' => s' = s ∧ ∃ file, s.volume.handles[hd]? = some file ∧ table = file.id ∧
        file.pages.pageSize = s.pool.config.pageSize)
      fun _ s' => s' = s := by
  unfold resolve Action.file
  simp only [ends_bind, ends_get]
  cases hc : s.catalog.handle table with
  | error e => exact rfl
  | ok hd =>
    obtain ⟨file, hfile, hid⟩ := g.files.file table hd hc
    have hget : s.file? hd = some file := hfile
    simp only [ends_ofExcept_ok, hget, ends_pure]
    split
    · rename_i hsize
      exact ⟨rfl, file, hfile, hid.symm, hsize⟩
    · exact rfl

/-- A page that there is lies in a table that there was at the beginning. -/
theorem Grounded.hasTable (g : Grounded s₀ s.volume s.catalog s.pool.config)
    (hp : s.volume.HasPage s.catalog s.pool.config.pageSize page) : s₀.HasTable page.table := by
  obtain ⟨hd, file, ht, hsize, -⟩ := hp
  obtain ⟨hfile, hid, hc⟩ := g.files.of_table? ht
  obtain ⟨file₀, hfile₀, hshape⟩ := g.grown.file_back hfile
  simp only [Volume.shape, Prod.mk.injEq] at hshape
  exact ⟨hd, file₀, g.catalog ▸ hc, hfile₀, hid.symm.trans hshape.1,
    hshape.2.2.2.symm.trans (hsize.trans (congrArg Config.pageSize g.config))⟩

/-- The handle of a table that there was at the beginning. -/
theorem resolve_eq (g : Grounded s₀ s.volume s.catalog s.pool.config) {table : TableId} (ht : s₀.HasTable table) :
    ∃ hd file, resolve table s = .ok hd s ∧ s.volume.handles[hd]? = some file ∧ table = file.id ∧
      file.pages.pageSize = s.pool.config.pageSize := by
  obtain ⟨hd, file₀, hc, hfile₀, hid, hsize⟩ := ht
  obtain ⟨file, hfile, hshape, -⟩ := g.grown.file hfile₀
  simp only [Volume.shape, Prod.mk.injEq] at hshape
  have hsize' : file.pages.pageSize = s.pool.config.pageSize :=
    hshape.2.2.2.trans (hsize.trans (congrArg Config.pageSize g.config.symm))
  refine ⟨hd, file, ?_, hfile, hid.trans hshape.1.symm, hsize'⟩
  have hhandle : ofExcept (s.catalog.handle table) s = .ok hd s := by
    rw [g.catalog, hc]
    rfl
  unfold resolve
  rw [bind_of_ok (run_get s), bind_of_ok hhandle, bind_of_ok (file_of_some (s := s) hfile), if_pos hsize']
  rfl

/-! ## Frames written -/

/-- What is logged before a frame is written, newest event first. -/
def Frame.logs (x : Frame) (page : PageId) : List Effect :=
  match x.before with
  | none => []
  | some b => [.forced, .logged (.update b.owner page b.bytes x.bytes)]

/-- The store after a frame was written to its file. -/
def Wrote (s : Store) (f : FrameId) (page : PageId) (s' : Store) : Prop :=
  ∃ (v : Volume) (l : Log) (c : Counters), s.volume.Extends v ∧ s' =
    { s with
      volume := v
      log := l
      trace := .wrote page (s.pool.frame f).bytes :: ((s.pool.frame f).logs page ++ s.trace)
      pool := (s.pool.modifyFrame f Frame.written).count fun _ => c }

/-- The frame written, with the log in order. -/
theorem ends_writeOut (h : Invariant s₀ uses (Off page ok) s) (hf : (s.pool.frame f).page = some page)
    {hd : HandleId} {file : HeapFile} (hfile : s.volume.handles[hd]? = some file) (htable : page.table = file.id)
    (hsize : file.pages.pageSize = s.pool.config.pageSize)
    (hmay : MayWrite s₀.onFile s.trace page (s.pool.frame f).bytes)
    (hlogged : ∀ t, ¬Unlogged t page s.trace) (g : Counters → Counters) :
    (do writePage hd page (s.pool.frame f).bytes
        modifyPool fun p => (p.modifyFrame f Frame.written).count g : Action Unit).Ends s
      (fun _ s' => Invariant s₀ uses (Off page ok) s' ∧
        (∃ (v : Volume) (c : Counters), s.volume.Extends v ∧ s' =
          { s with
            volume := v
            trace := .wrote page (s.pool.frame f).bytes :: s.trace
            pool := (s.pool.modifyFrame f Frame.written).count fun _ => c }) ∧
        s'.copies page = ⟨some (s.pool.frame f).written.copy, (s.copies page).kept, (s.pool.frame f).bytes⟩ ∧
        ∀ q, q ≠ page → s'.copies q = s.copies q)
      fun _ _ => False := by
  have hfits := ((h.fit page).cached _ (Store.cached_eq h.pool.mapped hf)).2
  obtain ⟨v, hput, hgrown, h₁, hself, hother⟩ := h.putPage (s.pool.frame f).bytes hfile htable
    (hfits.1.trans hsize.symm) (e := .wrote page (s.pool.frame f).bytes) hmay (fun _ _ ht => ht)
    (fun _ _ hu => hu) fun q a hq => if_neg (Ne.symm hq)
  have hfits' : (Frame.written (s.pool.frame f)).copy.Fits s.pool.config.pageSize := by
    refine ⟨hfits.1, fun b hb => ?_⟩
    obtain ⟨b', hb', rfl⟩ := Option.map_eq_some_iff.1 hb
    exact hfits.2 b' hb'
  have h₂ := h₁.modifyFrame hf (c := Frame.written) (fun _ => rfl) (fun _ => rfl) hfits'
    (Or.inl hlogged)
  unfold writePage
  rw [ends_bind, ends_bind, ends_of_ok hput, ends_note, ends_modifyPool]
  refine ⟨h₂.congr rfl rfl rfl rfl rfl rfl rfl rfl, ⟨v, _, hgrown, rfl⟩, ?_, fun q hq => ?_⟩
  · refine (Store.copies_modifyFrame h₁.pool.mapped hf Frame.written).trans ?_
    rw [hself]
  · exact (Store.copies_modifyFrame_of_ne h₁.pool.mapped hf Frame.written hq).trans (hother q hq)

theorem ends_writeBack (h : Invariant s₀ uses (Off page ok) s) (hf : (s.pool.frame f).page = some page)
    (hd : (s.pool.frame f).dirtyBy = some t)
    (hmay : MayWrite s₀.onFile ((s.pool.frame f).logs page ++ s.trace) page (s.pool.frame f).bytes)
    (hlog : ∀ b, (s.pool.frame f).before = some b →
      Effect.Lawful s₀.onFile s.trace (.logged (.update b.owner page b.bytes (s.pool.frame f).bytes))) :
    (writeBack f page).Ends s
      (fun _ s' => Invariant s₀ uses (Off page ok) s' ∧ Wrote s f page s' ∧
        s'.copies page = ⟨some (s.pool.frame f).written.copy, (s.copies page).kept, (s.pool.frame f).bytes⟩ ∧
        ∀ q, q ≠ page → s'.copies q = s.copies q)
      fun _ _ => False := by
  have hthere := ((h.fit page).cached _ (Store.cached_eq h.pool.mapped hf)).1
  obtain ⟨hd', file, hres, hfile, htable, hsize⟩ := resolve_eq h.ground (h.ground.hasTable hthere)
  unfold writeBack
  rw [ends_bind, ends_get]
  simp only [hf, hd, Option.isSome_some, and_self, if_true]
  rw [ends_bind, ends_of_ok hres]
  unfold Wrote
  unfold Frame.logs at hmay ⊢
  cases hb : (s.pool.frame f).before with
  | none =>
    rw [hb] at hmay
    have hlogged : ∀ t, ¬Unlogged t page s.trace := by
      intro t hu
      obtain ⟨c, hc, hbefore, -⟩ := h.unlogged t page hu
      rw [Store.cached_eq h.pool.mapped hf] at hc
      cases hc
      exact hbefore hb
    refine (ends_writeOut h hf hfile htable hsize hmay hlogged _).mono (fun _ s' h' => ?_) fun _ _ h' => h'
    obtain ⟨h', ⟨v, c, hv, hs'⟩, hself, hother⟩ := h'
    exact ⟨h', ⟨v, s.log, c, hv, hs'⟩, hself, hother⟩
  | some b =>
    rw [hb] at hmay
    let upd := LogRecord.update b.owner page b.bytes (s.pool.frame f).bytes
    have hlaw := hlog b hb
    have h₁ := (h.append upd hlaw).force
    -- the change that is logged now is the only one there can be
    have hlogged : ∀ t, ¬Unlogged t page (.forced :: .logged upd :: s.trace) := fun t hu =>
      h.lawful.not_unlogged_of_update hlaw t hu
    show (append upd >>= fun _ => force >>= fun _ => _).Ends s _ _
    rw [ends_bind, ends_append, ends_bind, ends_force]
    refine (ends_writeOut h₁ hf hfile htable hsize hmay hlogged _).mono (fun _ s' h' => ?_) fun _ _ h' => h'
    obtain ⟨h', ⟨v, c, hv, hs'⟩, hself, hother⟩ := h'
    exact ⟨h', ⟨v, _, c, hv, hs'⟩, hself, hother⟩

/-! ## Between steps -/

/-- A frame with a before-image may be written, once its change is logged and the log forced. -/
theorem Copies.Imaged.mayWrite {x : Frame} {b : BeforeImage} {first : PageId → Bytes} {past : List Effect}
    (h : Copies.Imaged x.copy b (account first past page)) (hb : x.before = some b) :
    MayWrite first (x.logs page ++ past) page x.bytes := by
  have hlogs : x.logs page = [.forced, .logged (.update b.owner page b.bytes x.bytes)] := by
    rw [Frame.logs, hb]
  rw [hlogs]
  refine .uncommitted b.owner h.opener h.content ?_
  refine ⟨[.forced], past, ?_, List.mem_singleton_self _, ?_⟩
  · rw [h.image]
    rfl
  · simp

/-- A dirty frame is written. If it has no before-image any more, it must be one that may be written as it is. -/
theorem Standing.writeBack (h : Standing endings s₀ uses s) (hf : (s.pool.frame f).page = some page)
    (hmay : (s.pool.frame f).dirtyBy ≠ none → (s.pool.frame f).before = none →
      MayWrite s₀.onFile s.trace page (s.pool.frame f).bytes) :
    (Action.writeBack f page).Ends s
      (fun _ s' => Standing endings s₀ uses s' ∧ (s'.pool.frame f).dirtyBy = none ∧
        (s' = s ∨ ((s.pool.frame f).dirtyBy ≠ none ∧ Wrote s f page s' ∧ ∀ q, q ≠ page → s'.copies q = s.copies q)))
      fun _ _ => False := by
  cases hd : (s.pool.frame f).dirtyBy with
  | none =>
    unfold Action.writeBack
    rw [ends_bind, ends_get]
    simp only [hd, Option.isSome_none, Bool.false_eq_true, and_false, if_false]
    exact ⟨h, hd, Or.inl rfl⟩
  | some t =>
    have hcached := Store.cached_eq h.pool.mapped hf
    have himaged := fun b (hb : (s.pool.frame f).before = some b) => (h.pages page).imaged h.proper hcached hb
    have hmay' : MayWrite s₀.onFile ((s.pool.frame f).logs page ++ s.trace) page (s.pool.frame f).bytes := by
      cases hb : (s.pool.frame f).before with
      | some b => exact (himaged b hb).mayWrite hb
      | none =>
        rw [Frame.logs, hb]
        exact hmay (hd ▸ Option.some_ne_none t) hb
    refine (ends_writeBack (h.off page) hf hd hmay' fun b hb => ?_).mono (fun _ s' h' => ?_) fun _ _ h' => h'
    · exact ⟨(himaged b hb).opener, (himaged b hb).image, (himaged b hb).content⟩
    · obtain ⟨h', hw, hself, hother⟩ := h'
      refine ⟨?_, ?_, Or.inr ⟨Option.some_ne_none t, hw, hother⟩⟩
      · obtain ⟨v, l, c, -, rfl⟩ := hw
        refine h.same (h'.on ?_) rfl
        have ha : account s₀.onFile (Effect.wrote page (s.pool.frame f).bytes ::
            ((s.pool.frame f).logs page ++ s.trace)) page =
            { account s₀.onFile s.trace page with outside := none } := by
          unfold Frame.logs
          cases (s.pool.frame f).before <;> exact if_pos rfl
        show Parted endings s.mode? uses page _ (account s₀.onFile (_ :: (_ ++ s.trace)) page)
        rw [hself, ha]
        exact (h.pages page).write h.proper hcached hd
      · obtain ⟨v, l, c, -, rfl⟩ := hw
        show ((s.pool.modifyFrame f Frame.written).frame f).dirtyBy = none
        rw [Pool.frame_modifyFrame_self hf]
        rfl

/-- What has happened elsewhere: locks and uncached pages are as they were. -/
structure Elsewhere (s₀ s s' : Store) : Prop where
  locks : s'.pool.locks = s.pool.locks
  config : s'.pool.config = s.pool.config
  catalog : s'.catalog = s.catalog
  grown : s.volume.Extends s'.volume
  uncached : ∀ page, (s.copies page).cached = none → s'.copies page = s.copies page ∧
    account s₀.onFile s'.trace page = account s₀.onFile s.trace page

theorem Elsewhere.refl (s₀ s : Store) : Elsewhere s₀ s s :=
  ⟨rfl, rfl, rfl, Volume.Extends.refl _, fun _ _ => ⟨rfl, rfl⟩⟩

theorem Elsewhere.trans {s' s'' : Store} (e : Elsewhere s₀ s s') (e' : Elsewhere s₀ s' s'') :
    Elsewhere s₀ s s'' := by
  refine ⟨e'.locks.trans e.locks, e'.config.trans e.config, e'.catalog.trans e.catalog,
    e.grown.trans e'.grown, fun page hp => ?_⟩
  obtain ⟨hc, ha⟩ := e.uncached page hp
  obtain ⟨hc', ha'⟩ := e'.uncached page (hc ▸ hp)
  exact ⟨hc'.trans hc, ha'.trans ha⟩

theorem Elsewhere.there {s' : Store} (e : Elsewhere s₀ s s')
    (h : s.volume.HasPage s.catalog s.pool.config.pageSize page) :
    s'.volume.HasPage s'.catalog s'.pool.config.pageSize page := by
  rw [e.config, e.catalog]
  exact h.extends e.grown

theorem Wrote.elsewhere {s' : Store} (h : s.pool.Sound uses) (hf : (s.pool.frame f).page = some page)
    (hw : Wrote s f page s') (hother : ∀ q, q ≠ page → s'.copies q = s.copies q) : Elsewhere s₀ s s' := by
  obtain ⟨v, l, c, hv, rfl⟩ := hw
  refine ⟨rfl, rfl, rfl, hv, fun q hq => ?_⟩
  have hne : q ≠ page := by
    rintro rfl
    rw [Store.cached_eq h.mapped hf] at hq
    cases hq
  refine ⟨hother q hne, ?_⟩
  show (account s₀.onFile ((s.pool.frame f).logs page ++ s.trace) q).record q (.wrote page _) = _
  unfold Frame.logs
  cases (s.pool.frame f).before <;> exact if_neg (Ne.symm hne)

theorem Standing.evict (h : Standing endings s₀ uses s) (hf : (s.pool.frame f).page = some page)
    (hu : s.pool.isPinned f = false) (ht : s.pool.clock.tracks f = false) :
    (Action.evict f).Ends s
      (fun _ s' => Standing endings s₀ uses s' ∧ s'.pool.Spare f ∧ Elsewhere s₀ s s')
      fun _ _ => False := by
  unfold Action.evict
  rw [ends_bind, ends_get]
  simp only [hf]
  rw [ends_bind]
  -- nobody who is on his way out has the frame pinned, so what it has to be written has a before-image
  have himage : (s.pool.frame f).dirtyBy ≠ none → (s.pool.frame f).before ≠ none := fun hd =>
    (h.pages page).before_of_dirty h.proper (Store.cached_eq h.pool.mapped hf) hd (h.not_pinned hf hu)
  refine (h.writeBack hf fun hd hn => absurd hn (himage hd)).mono (fun _ s₁ h₁ => ?_) fun _ _ h' => h'
  obtain ⟨h₁, hclean, hw⟩ := h₁
  rw [ends_modifyPool]
  obtain ⟨hf₁, hu₁, ht₁, he⟩ : (s₁.pool.frame f).page = some page ∧ s₁.pool.isPinned f = false ∧
      s₁.pool.clock.tracks f = false ∧ Elsewhere s₀ s s₁ := by
    rcases hw with rfl | ⟨-, hw, hother⟩
    · exact ⟨hf, hu, ht, Elsewhere.refl _ _⟩
    · have he : Elsewhere s₀ s s₁ := hw.elsewhere h.pool hf hother
      obtain ⟨v, l, c, -, rfl⟩ := hw
      have hframe : (s.pool.modifyFrame f Frame.written).frame f = (s.pool.frame f).written :=
        Pool.frame_modifyFrame_self hf _
      refine ⟨?_, ?_, ht, he⟩
      · show ((s.pool.modifyFrame f Frame.written).frame f).page = some page
        rw [hframe]
        exact hf
      · show decide (0 < ((s.pool.modifyFrame f Frame.written).frame f).pins) = false
        rw [hframe]
        exact hu
  have hcached := Store.cached_eq h₁.pool.mapped hf₁
  obtain ⟨h₂, hself, hother⟩ := (h₁.off page).unmap hf₁ hu₁ ht₁ ((h₁.pages page).apart h₁.proper hcached) hclean
  have hspare := (h₁.pool.unmap hf₁ (h₁.pool.not_used hu₁) ht₁).2
  have hpage := (h₁.pages page).evict h₁.proper hcached hclean (h₁.not_pinned hf₁ hu₁)
  have h₃ : Invariant s₀ _ (Parted endings s₁.mode? uses) _ := h₂.on (by rw [hself]; exact hpage)
  refine ⟨h₁.same (h₃.congr rfl rfl rfl rfl rfl rfl rfl rfl) rfl,
    ⟨hspare.lt, hspare.empty, hspare.taken, hspare.untracked⟩, he.trans ⟨rfl, rfl, rfl, Volume.Extends.refl _,
    fun q hq => ⟨hother q ?_, rfl⟩⟩⟩
  rintro rfl
  rw [hcached] at hq
  cases hq

theorem Standing.takeVictim (h : Standing endings s₀ uses s) :
    Action.takeVictim.Ends s
      (fun f s' => Standing endings s₀ uses s' ∧ s'.pool.Spare f ∧ Elsewhere s₀ s s')
      fun _ s' => Standing endings s₀ uses s' ∧ Elsewhere s₀ s s' := by
  have hchosen := h.toInvariant.takeVictim s.pool.isPinned
  have htracks := Clock.tracks_evict s.pool.clock s.pool.isPinned
  have hof := @Clock.of_evict s.pool.clock s.pool.isPinned
  unfold Action.takeVictim
  rw [ends_bind, ends_get]
  cases hv : s.pool.clock.evict s.pool.isPinned with
  | mk victim clock =>
    rw [hv] at hchosen htracks hof
    let s₁ := s.modifyPool fun p => { p with clock }
    have h₁ : Standing endings s₀ uses s₁ := h.same hchosen rfl
    have he : Elsewhere s₀ s s₁ := ⟨rfl, rfl, rfl, Volume.Extends.refl _, fun _ _ => ⟨rfl, rfl⟩⟩
    simp only [hv]
    rw [ends_bind, ends_modifyPool]
    cases victim with
    | none => exact ⟨h₁, he⟩
    | some f =>
      obtain ⟨ht, hu⟩ := hof rfl
      obtain ⟨page, hf⟩ := Option.ne_none_iff_exists'.1 (h.pool.tracked f ht)
      have hevict := Standing.evict (s := s₁) h₁ hf hu (by
        show clock.tracks f = false
        rw [htracks f]
        simp)
      show ((Action.evict f).orElseDo _ >>= _).Ends s₁ _ _
      rw [ends_bind, ends_orElseDo]
      refine hevict.mono (fun _ s' h' => ?_) fun _ _ h' => h'.elim
      exact ⟨h'.1, h'.2.1, he.trans h'.2.2⟩

theorem Standing.takeFrame (h : Standing endings s₀ uses s) :
    Action.takeFrame.Ends s
      (fun f s' => Standing endings s₀ uses s' ∧ s'.pool.Spare f ∧ Elsewhere s₀ s s')
      fun _ s' => Standing endings s₀ uses s' ∧ Elsewhere s₀ s s' := by
  have hreclaim : (s.modifyPool Pool.reclaim) = s := by
    unfold Store.modifyPool
    rw [h.pool.reclaim_eq]
  unfold Action.takeFrame
  rw [ends_bind, ends_modifyPool, hreclaim, ends_bind, ends_get]
  cases hfree : s.pool.free with
  | cons f rest =>
    obtain ⟨h', hspare⟩ := h.toInvariant.takeFree hfree
    exact ⟨h.same h' rfl, hspare, rfl, rfl, rfl, Volume.Extends.refl _, fun _ _ => ⟨rfl, rfl⟩⟩
  | nil =>
    exact h.takeVictim

/-! ## Pages read -/

theorem ends_readPage (g : Grounded s₀ s.volume s.catalog s.pool.config) {hd : HandleId} {file : HeapFile}
    (hfile : s.volume.handles[hd]? = some file) (htable : page.table = file.id)
    (hsize : file.pages.pageSize = s.pool.config.pageSize) :
    (Action.readPage hd page).Ends s
      (fun bytes s' => s' = s ∧ bytes = s.onFile page ∧
        s.volume.HasPage s.catalog s.pool.config.pageSize page)
      fun _ s' => s' = s := by
  have hget : s.file? hd = some file := hfile
  unfold Action.readPage Action.file
  simp only [ends_bind, ends_get, hget, ends_pure, g.files.readPage hfile, htable, true_and]
  split
  · rename_i hn
    refine ⟨rfl, rfl, hd, file, ?_, hsize, hn⟩
    rw [htable]
    exact g.files.table?_eq hfile
  · exact rfl

/-- Counters apart, the store is as it was. -/
theorem Standing.count (h : Standing endings s₀ uses s) (g : Counters → Counters) :
    Standing endings s₀ uses (s.modifyPool fun p => p.count g) :=
  h.same (h.toInvariant.congr rfl rfl rfl rfl rfl rfl rfl rfl) rfl

theorem Standing.touch (h : Standing endings s₀ uses s) (hf : (s.pool.frame f).page = some page) :
    Standing endings s₀ uses (s.modifyPool fun p => p.touch f) :=
  h.same (h.toInvariant.touch hf) rfl

/-- A page read for somebody who has it locked. -/
theorem Standing.load (h : Standing endings s₀ uses s) (hp : s.pool.find? page = none) {m : LockMode}
    (hc : Covered (s.mode? t page) m) (ht : ∀ e ∈ endings, e.txn ≠ t) :
    (Action.load page).Ends s
      (fun f s' => Standing endings s₀ (⟨f, page, some (t, m), false⟩ :: uses) s' ∧ s'.pool.locks = s.pool.locks)
      fun _ s' => Standing endings s₀ uses s' ∧ s'.pool.locks = s.pool.locks := by
  unfold Action.load
  rw [ends_bind, ends_modifyPool, ends_bind]
  refine (ends_resolve (h.count _).ground page.table).mono (fun hd s₁ h₁ => ?_) fun _ s₁ h₁ => ?_
  · obtain ⟨rfl, file, hfile, htable, hsize⟩ := h₁
    rw [ends_bind]
    refine (ends_readPage (h.count _).ground hfile htable hsize).mono (fun bytes s₂ h₂ => ?_) fun _ s₂ h₂ => ?_
    · obtain ⟨rfl, hbytes, hthere⟩ := h₂
      rw [ends_bind, ends_modifyPool, ends_bind]
      refine ((h.count _).count _).takeFrame.mono (fun f s₄ h₄ => ?_) fun _ s₄ h₄ => ⟨h₄.1, h₄.2.locks⟩
      obtain ⟨h₄, hspare, he⟩ := h₄
      have huncached : (s.copies page).cached = none := by rw [Store.copies, hp]; rfl
      obtain ⟨hcopies, haccount⟩ := he.uncached page huncached
      have hp₄ : s₄.pool.find? page = none := by
        have : (s₄.copies page).cached = none := hcopies ▸ huncached
        exact Option.map_eq_none_iff.1 this
      have hfile₄ : bytes = s₄.onFile page := hbytes.trans (congrArg Copies.file hcopies).symm
      have hthere₄ := he.there hthere
      obtain ⟨h₅, hself⟩ := (h₄.off page).install bytes hspare hp₄
        (hfile₄ ▸ Volume.Registered.length_pageBytes hthere₄) hthere₄
      have hpage := (h₄.pool.install hspare hp₄ bytes).2
      have h₆ : Invariant s₀ _ (Off page (Parted endings s₄.mode? uses)) _ :=
        h₅.note (e := .loaded page) s₄.log trivial (fun _ _ ht => Or.inl ht) fun q hq hne => by
          rw [show ∀ a : Account, a.record q (.loaded page) = a from fun a => if_neg (Ne.symm hne)]
          exact hq hne
      -- who asks for the page has it locked, so it is nobody's who is on his way out
      have hfree₄ : ∀ e ∈ endings, (account s₀.onFile s₄.trace page).opener ≠ some e.txn := by
        rw [haccount]
        exact h.free_of_mode ht hc.ne_none
      have hagree := ((h₄.pages page).others hfree₄).load (by rw [hcopies]; exact huncached) (h₄.idle_of_uncached hp₄)
      have h₇ : Standing endings s₀ uses
          { s₄.modifyPool fun p => p.install f page bytes with trace := .loaded page :: s₄.trace } := by
        refine h₄.same (h₆.on ?_) rfl
        show Parted endings s₄.mode? uses page _ ((account s₀.onFile s₄.trace page).record page _)
        rw [show ∀ a : Account, a.record page (.loaded page) = a.load from fun a => if_pos rfl]
        refine Eq.subst (motive := fun x => Parted endings s₄.mode? uses page x _) hself.symm ?_
        rw [hfile₄]
        exact (h₄.pages page).of_agree hfree₄ (by rwa [Account.opener_load]) hagree
      rw [ends_bind, ends_modifyPool, ends_bind, ends_note, ends_pure]
      have hc₄ : Covered (s₄.mode? t page) m := (congrArg (fun l => Covered (l.mode? t page) m) he.locks).mpr hc
      have h₈ := h₇.pin hpage hc₄ ht
      exact ⟨h₈.touch (h₈.pool.used _ (List.mem_cons_self ..)), he.locks⟩
    · rw [h₂]
      exact ⟨h.count _, rfl⟩
  · rw [h₁]
    exact ⟨h.count _, rfl⟩

theorem Standing.fetch (h : Standing endings s₀ uses s) (page : PageId) {m : LockMode} (hc : Covered (s.mode? t page) m)
    (ht : ∀ e ∈ endings, e.txn ≠ t) :
    (Action.fetch page).Ends s
      (fun f s' => Standing endings s₀ (⟨f, page, some (t, m), false⟩ :: uses) s' ∧ s'.pool.locks = s.pool.locks)
      fun _ s' => Standing endings s₀ uses s' ∧ s'.pool.locks = s.pool.locks := by
  unfold Action.fetch
  rw [ends_bind, ends_get]
  cases hp : s.pool.find? page with
  | none => exact h.load hp hc ht
  | some f =>
    have hf := (h.pool.mapped page f).1 hp
    have h₁ := h.pin hf hc ht
    exact ⟨(h₁.touch (h₁.pool.used _ (List.mem_cons_self ..))).count _, rfl⟩

end TupleStore
