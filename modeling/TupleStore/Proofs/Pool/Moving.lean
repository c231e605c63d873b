import TupleStore.Proofs.Ledger.Drafts
import TupleStore.Proofs.Pool.Balance

/-!
# Pages moved

Pages can be discarded at any moment, so a page in use can have left its frame. Then nothing is left of the order
between changes, log and files that other modules rely on; but the parts of a store still fit together
(`Store.Whole`), and of its own accord the cache does nothing to a page that changes what it is to hold
(`Store.Serves`).

* `Whole.writeBack`, `Whole.evict`, `Whole.takeFrame`, `Whole.fetch` : pages to their files, and into frames;
* `Whole.discard` : a page dropped.
-/

namespace TupleStore

set_option autoImplicit false

open TupleStore.Action

/-! ## Stores -/

/-- The parts of a store fit together, whatever its pages hold. A page in use is in its frame, or has left it. -/
structure Store.Whole (s s₀ : Store) (uses : List Use) (out : Option FrameId) : Prop where
  balanced : s.Balanced s₀.volume (uses.map Use.frame) out
  used : ∀ u ∈ uses, (s.pool.frame u.frame).page = some u.page ∨ (s.pool.frame u.frame).page = none
  locks : s.pool.locks.Sound
  ground : Grounded s₀ s.volume s.catalog s.pool.config
  covered : ∀ u ∈ uses, ∀ t m, u.holder = some (t, m) → Covered (s.mode? t u.page) m
  fit : ∀ page, (s.copies page).Fit s.pool.config.pageSize (s.volume.HasPage s.catalog s.pool.config.pageSize page)

/-- Nobody uses the page where it is. -/
def Store.Idle (s : Store) (uses : List Use) (page : PageId) : Prop :=
  ∀ u ∈ uses, (s.pool.frame u.frame).page ≠ some page

/-- An event that leaves all drafts as they are. -/
def Effect.Quiet (e : Effect) : Prop := ∀ (page : PageId) (d : Draft), d.record page e = d

/-- What the cache does of its own accord: no lock changes hands, and no page in use leaves its frame. -/
structure Store.Serves (uses : List Use) (s s' : Store) : Prop where
  trace : Grown Effect.Quiet s.trace s'.trace
  locks : s'.pool.locks = s.pool.locks
  grown : s.volume.Extends s'.volume
  frames : ∀ u ∈ uses, (s'.pool.frame u.frame).page = (s.pool.frame u.frame).page
  pages : ∀ page, (s.copies page).Shift (s.Idle uses page) (s'.copies page)

namespace Store.Serves

variable {uses : List Use} {s s' s'' : Store}

theorem refl (uses : List Use) (s : Store) : s.Serves uses s :=
  ⟨.refl _, rfl, .refl _, fun _ _ => rfl, fun _ => .stay⟩

theorem idle (h : s.Serves uses s') (page : PageId) : s'.Idle uses page ↔ s.Idle uses page :=
  forall₂_congr fun u hu => by rw [h.frames u hu]

theorem trans (h : s.Serves uses s') (h' : s'.Serves uses s'') : s.Serves uses s'' where
  trace := h.trace.trans h'.trace
  locks := h'.locks.trans h.locks
  grown := h.grown.trans h'.grown
  frames u hu := (h'.frames u hu).trans (h.frames u hu)
  pages page := (h.pages page).trans ((h'.pages page).mono (h.idle page).1)

end Store.Serves

/-- A change that moves no page and shows in none, such as a pin. -/
structure Store.Still (s s' : Store) : Prop where
  trace : s'.trace = s.trace
  volume : s'.volume = s.volume
  locks : s'.pool.locks = s.pool.locks
  frames : ∀ f, (s'.pool.frame f).page = (s.pool.frame f).page
  copies : ∀ page, s'.copies page = s.copies page

namespace Store.Still

variable {s s' s'' : Store}

theorem refl (s : Store) : s.Still s := ⟨rfl, rfl, rfl, fun _ => rfl, fun _ => rfl⟩

theorem trans (h : s.Still s') (h' : s'.Still s'') : s.Still s'' :=
  ⟨h'.trace.trans h.trace, h'.volume.trans h.volume, h'.locks.trans h.locks, fun f => (h'.frames f).trans (h.frames f),
    fun page => (h'.copies page).trans (h.copies page)⟩

theorem serves (h : s.Still s') (uses : List Use) : s.Serves uses s' :=
  ⟨h.trace ▸ .refl _, h.locks, h.volume ▸ .refl _, fun u _ => h.frames u.frame, fun page => h.copies page ▸ .stay⟩

/-- A frame changed in a way that its copy does not show. -/
theorem modifyFrame (s : Store) (f : FrameId) {c : Frame → Frame} (hpage : ∀ x, (c x).page = x.page)
    (hcopy : ∀ x, (c x).copy = x.copy) : s.Still (s.modifyPool fun p => p.modifyFrame f c) :=
  ⟨rfl, rfl, rfl, fun g => Pool.modifyFrame_keeps s.pool f g Frame.page hpage,
    Store.copies_congr (fun g => Pool.modifyFrame_keeps s.pool f g Frame.copy hcopy) (fun _ => rfl) rfl⟩

/-- Frames that become free show in no page. -/
theorem reclaim {pins : List FrameId} {out : Option FrameId} (h : s.pool.Accounted pins out) :
    s.Still (s.modifyPool Pool.reclaim) := by
  obtain ⟨frames, free, pendingFree, -, e⟩ := Pool.Accounted.reclaim_eq s.pool
  refine ⟨rfl, rfl, s.pool.locks_reclaim, h.page_reclaim, fun page => ?_⟩
  have hfind : (s.modifyPool Pool.reclaim).pool.find? page = s.pool.find? page := by
    unfold Store.modifyPool
    rw [e]
    rfl
  have hkept : (s.modifyPool Pool.reclaim).pool.retained = s.pool.retained := by
    show s.pool.reclaim.retained = _
    rw [e]
  unfold Store.copies
  rw [hfind, hkept]
  cases hf : s.pool.find? page with
  | none => rfl
  | some f =>
    have hne : (s.pool.frame f).page ≠ none := (h.mapped page f).1 hf ▸ Option.some_ne_none page
    rw [Option.map_some, Option.map_some, show (s.modifyPool Pool.reclaim).pool.frame f = s.pool.frame f from
      h.frame_reclaim_of_page hne]
    rfl

end Store.Still

/-- A frame that holds no page changed: no page sees it. -/
theorem Store.copies_modifyFrame_of_empty {s : Store} {f : FrameId} (hm : s.pool.Maps)
    (hf : (s.pool.frame f).page = none) (c : Frame → Frame) (page : PageId) :
    (s.modifyPool fun p => p.modifyFrame f c).copies page = s.copies page := by
  unfold copies modifyPool
  have hfind : (s.pool.modifyFrame f c).find? page = s.pool.find? page := rfl
  simp only [hfind]
  cases hg : s.pool.find? page with
  | none => rfl
  | some g =>
    have hne : g ≠ f := by
      rintro rfl
      rw [hm, hf] at hg
      cases hg
    rw [Option.map_some, Option.map_some, Pool.frame_modifyFrame_of_ne hne]
    rfl

theorem Copies.Fit.leave {size : Nat} {there : Prop} {x : Copies} (h : x.Fit size there) : x.leave.Fit size there := by
  obtain ⟨_ | c, kept, file⟩ := x
  · exact h
  refine ⟨nofun, fun b hb => ?_⟩
  have hb : c.before.or kept = some b := hb
  rcases Option.or_eq_some_iff.1 hb with hb | ⟨-, hb⟩
  · exact ⟨(h.cached c rfl).1, (h.cached c rfl).2.2 b hb⟩
  · exact h.kept b hb

/-- A frame has been taken out to be given another page. -/
structure Store.Vacated (s s₀ : Store) (uses : List Use) (f : FrameId) (s' : Store) : Prop where
  whole : s'.Whole s₀ uses (some f)
  serves : s.Serves uses s'
  lt : f < s'.pool.frames.length
  empty : (s'.pool.frame f).page = none
  unused : ∀ u ∈ uses, u.frame ≠ f
  uncached : ∀ page, (s.copies page).cached = none → s'.copies page = s.copies page

namespace Store.Whole

variable {s₀ s s' : Store} {uses uses' : List Use} {out : Option FrameId} {f : FrameId} {page : PageId} {u : Use}

theorem perm (h : s.Whole s₀ uses out) (e : uses.Perm uses') : s.Whole s₀ uses' out :=
  { h with
    balanced := ⟨h.balanced.pool.perm (e.map _), h.balanced.grown⟩
    used := fun u hu => h.used u (e.mem_iff.2 hu)
    covered := fun u hu => h.covered u (e.mem_iff.2 hu) }

/-- A page that is not cached is in no frame in use. -/
theorem idle_of_uncached (h : s.Whole s₀ uses out) (hp : s.pool.find? page = none) : s.Idle uses page := by
  intro u _ hu
  rw [(h.balanced.pool.mapped page u.frame).2 hu] at hp
  cases hp

/-- A change of what the invariant does not speak of. -/
theorem congr (h : s.Whole s₀ uses out) {p : Pool} (hframes : p.frames = s.pool.frames)
    (htable : p.pageTable = s.pool.pageTable) (hfree : p.free = s.pool.free)
    (hpending : p.pendingFree = s.pool.pendingFree) (hclock : p.clock = s.pool.clock)
    (hkept : p.retained = s.pool.retained) (hlocks : p.locks = s.pool.locks) (hconfig : p.config = s.pool.config)
    (log : Log) (trace : List Effect) : Store.Whole { s with pool := p, log, trace } s₀ uses out := by
  have hframe : ∀ f, p.frame f = s.pool.frame f := fun f => by
    unfold Pool.frame
    rw [hframes]
  have hcopies : ∀ page, Store.copies { s with pool := p, log, trace } page = s.copies page := fun page =>
    Store.copies_congr (fun f => by rw [hframe]) (fun q => by unfold Pool.find?; rw [htable]) hkept page
  refine ⟨⟨h.balanced.pool.congr hframes htable hfree hpending hclock hkept, h.balanced.grown⟩, fun u hu => ?_, ?_, ?_,
    ?_, fun page => ?_⟩
  · show (p.frame u.frame).page = _ ∨ (p.frame u.frame).page = _
    rw [hframe]
    exact h.used u hu
  · show p.locks.Sound
    rw [hlocks]
    exact h.locks
  · show Grounded s₀ s.volume s.catalog p.config
    rw [hconfig]
    exact h.ground
  · rw [Store.mode?_congr (s := s) hlocks]
    exact h.covered
  · rw [hcopies]
    show (s.copies page).Fit p.config.pageSize (s.volume.HasPage s.catalog p.config.pageSize page)
    rw [hconfig]
    exact h.fit page

/-- A frame changed in its place. -/
theorem modifyFrame (h : s.Whole s₀ uses out) (hf : f ∉ s.pool.free) {c : Frame → Frame}
    (hpage : ∀ x, (c x).page = x.page) (hpins : ∀ x, (c x).pins = x.pins)
    (hfits : (s.pool.frame f).copy.Fits s.pool.config.pageSize → (c (s.pool.frame f)).copy.Fits s.pool.config.pageSize) :
    (s.modifyPool fun p => p.modifyFrame f c).Whole s₀ uses out := by
  have hm := h.balanced.pool.mapped
  refine { h with
    balanced := h.balanced.modifyFrame hf hpage hpins
    used := fun u hu => ?_
    fit := fun q => ?_ }
  · rw [show ((s.modifyPool fun p => p.modifyFrame f c).pool.frame u.frame).page = _ from
      Pool.modifyFrame_keeps s.pool f u.frame Frame.page hpage]
    exact h.used u hu
  · have hfit := h.fit q
    cases hp : (s.pool.frame f).page with
    | none =>
      rw [Store.copies_modifyFrame_of_empty hm hp]
      exact hfit
    | some page =>
      by_cases e : q = page
      · subst e
        rw [Store.copies_modifyFrame hm hp]
        refine ⟨fun c' hc => ?_, hfit.kept⟩
        cases hc
        obtain ⟨hthere, hsize⟩ := hfit.cached _ (Store.cached_eq hm hp)
        exact ⟨hthere, hfits hsize⟩
      · rw [Store.copies_modifyFrame_of_ne hm hp c e]
        exact hfit

/-- Other files, with the same tables. -/
theorem revolume (h : s.Whole s₀ uses out) {v : Volume} (hreg : v.Registered s.catalog) (hgrown : s.volume.Extends v) :
    Store.Whole { s with volume := v } s₀ uses out :=
  { h with
    balanced := h.balanced.revolume hgrown
    ground := ⟨hreg, h.ground.grown.trans hgrown, h.ground.catalog, h.ground.config⟩
    fit := fun page =>
      have hfit := h.fit page
      ⟨fun c hc => ⟨(hfit.cached c hc).1.extends hgrown, (hfit.cached c hc).2⟩,
        fun b hb => ⟨(hfit.kept b hb).1.extends hgrown, (hfit.kept b hb).2⟩⟩ }

/-! ## Pages written -/

/-- A page written to its file, whatever is in log and trace. -/
theorem putPage_eq (h : s.Whole s₀ uses out) {hd : HandleId} {file : HeapFile} {bytes : Bytes}
    (hfile : s.volume.handles[hd]? = some file) (ht : page.table = file.id) (hl : bytes.length = file.pages.pageSize) :
    ∃ v, (∀ log trace, putPage hd page bytes { s with log, trace } = .ok () { s with volume := v, log, trace }) ∧
      s.volume.Extends v ∧ Store.Whole { s with volume := v } s₀ uses out ∧
      ∀ q, Store.copies { s with volume := v } q = if q = page then { s.copies q with file := bytes } else s.copies q := by
  obtain ⟨v, hv, hreg, hgrown, -, hbytes⟩ := h.ground.files.writePage hfile ht hl
  refine ⟨v, fun log trace => ?_, hgrown, h.revolume hreg hgrown, fun q => ?_⟩
  · unfold putPage
    rw [bind_of_ok (file_of_some (s := { s with log, trace }) hfile), bind_of_ok (run_get _), hv]
    rfl
  · have hfileOf : Store.onFile { s with volume := v } q = if q = page then bytes else s.onFile q := hbytes q
    unfold Store.copies
    rw [hfileOf]
    split <;> rfl

/-- A frame that holds its page is written: this is what a flush of the page does. -/
theorem written (h : s.Whole s₀ uses out) (hf : (s.pool.frame f).page = some page) (hd : (s.pool.frame f).dirtyBy ≠ none)
    {v : Volume} (hgrown : s.volume.Extends v) (hv : Store.Whole { s with volume := v } s₀ uses out)
    (hcopies : ∀ q, Store.copies { s with volume := v } q =
      if q = page then { s.copies q with file := (s.pool.frame f).bytes } else s.copies q)
    {l : Log} {more : List Effect} (hquiet : ∀ e ∈ more, e.Quiet) {g : Counters → Counters}
    (hs : s' = { s with
      volume := v
      log := l
      trace := more ++ s.trace
      pool := (s.pool.modifyFrame f Frame.written).count g }) :
    s'.Whole s₀ uses out ∧ s.Serves uses s' ∧ (∀ g, (s'.pool.frame g).page = (s.pool.frame g).page) ∧
      ∀ q, s'.copies q = if q = page then (s.copies q).flush else s.copies q := by
  have hm := h.balanced.pool.mapped
  have hafter : ∀ q, s'.copies q = if q = page then (s.copies q).flush else s.copies q := by
    intro q
    rw [hs]
    by_cases e : q = page
    · subst e
      refine (Store.copies_modifyFrame (s := { s with volume := v }) hm hf Frame.written).trans ?_
      rw [hcopies, if_pos rfl, if_pos rfl]
      unfold Copies.flush
      rw [Store.cached_eq hm hf]
      exact (if_neg hd).symm
    · refine (Store.copies_modifyFrame_of_ne (s := { s with volume := v }) hm hf Frame.written e).trans ?_
      rw [hcopies, if_neg e, if_neg e]
  have hpage : ∀ g, (s'.pool.frame g).page = (s.pool.frame g).page := fun g => by
    rw [hs]
    exact Pool.modifyFrame_keeps s.pool f g (c := Frame.written) Frame.page fun _ => rfl
  have h₁ := hv.modifyFrame (hv.balanced.taken_of_page hf) (c := Frame.written) (fun _ => rfl) (fun _ => rfl)
    fun hfits => ⟨hfits.1, fun b hb => by
      obtain ⟨b', hb', rfl⟩ := Option.map_eq_some_iff.1 hb
      exact hfits.2 b' hb'⟩
  have h₂ := h₁.congr (p := (s.pool.modifyFrame f Frame.written).count g) rfl rfl rfl rfl rfl rfl rfl rfl l (more ++ s.trace)
  refine ⟨hs ▸ h₂, ⟨hs ▸ ⟨more, rfl, hquiet⟩, hs ▸ rfl, hs ▸ hgrown, fun u _ => hpage u.frame, fun q => ?_⟩, hpage, hafter⟩
  rw [hafter]
  split
  · exact .flush .stay
  · exact .stay

theorem writeBack (h : s.Whole s₀ uses out) (f : FrameId) (page : PageId) :
    (Action.writeBack f page).Ends s
      (fun _ s' => s'.Whole s₀ uses out ∧ s.Serves uses s' ∧ (∀ g, (s'.pool.frame g).page = (s.pool.frame g).page) ∧
        ∀ q, s'.copies q = if q = page ∧ (s.pool.frame f).page = some page then (s.copies q).flush else s.copies q)
      fun _ _ => False := by
  have hm := h.balanced.pool.mapped
  unfold Action.writeBack
  rw [ends_bind, ends_get]
  dsimp only
  split
  · rename_i hd
    obtain ⟨hf, hdirty⟩ := hd
    have hdirty : (s.pool.frame f).dirtyBy ≠ none := Option.isSome_iff_ne_none.1 hdirty
    obtain ⟨hthere, hfits⟩ := (h.fit page).cached _ (Store.cached_eq hm hf)
    obtain ⟨hd, file, hres, hfile, htable, hsize⟩ := resolve_eq h.ground (h.ground.hasTable hthere)
    have hlength : (s.pool.frame f).bytes.length = file.pages.pageSize := hfits.1.trans hsize.symm
    obtain ⟨v, hput, hgrown, hv, hcopies⟩ := h.putPage_eq hfile htable hlength
    -- the write, whatever has been logged before it
    have hwrite : ∀ (l : Log) (more : List Effect) (g : Counters → Counters), (∀ e ∈ more, e.Quiet) →
        (do writePage hd page (s.pool.frame f).bytes
            Action.modifyPool fun p => (p.modifyFrame f Frame.written).count g : Action Unit).Ends
          { s with log := l, trace := more ++ s.trace }
          (fun _ s' => s'.Whole s₀ uses out ∧ s.Serves uses s' ∧
            (∀ g, (s'.pool.frame g).page = (s.pool.frame g).page) ∧
            ∀ q, s'.copies q = if q = page then (s.copies q).flush else s.copies q)
          fun _ _ => False := by
      intro l more g hquiet
      unfold writePage
      rw [ends_bind, ends_bind, ends_of_ok (hput l (more ++ s.trace)), ends_note, ends_modifyPool]
      have hquiet' : ∀ e ∈ Effect.wrote page (s.pool.frame f).bytes :: more, e.Quiet := fun e he => by
        rcases List.mem_cons.1 he with rfl | he
        · exact fun _ _ => rfl
        · exact hquiet e he
      exact h.written hf hdirty hgrown hv hcopies hquiet' rfl
    simp only [hf, and_true]
    rw [ends_bind, ends_of_ok hres]
    split
    · exact hwrite s.log [] _ fun _ he => (List.not_mem_nil he).elim
    · rw [ends_bind, ends_append, ends_bind, ends_force]
      refine hwrite _ [.forced, .logged _] _ fun e he => ?_
      rcases List.mem_cons.1 he with rfl | he
      · exact fun _ _ => rfl
      · rw [List.mem_singleton.1 he]
        exact fun _ _ => rfl
  · rename_i hd
    refine ⟨h, .refl _ _, fun _ => rfl, fun q => ?_⟩
    split
    · rename_i hq
      obtain ⟨rfl, hf⟩ := hq
      have hclean : (s.pool.frame f).dirtyBy = none :=
        Option.not_isSome_iff_eq_none.1 fun hsome => hd ⟨hf, hsome⟩
      unfold Copies.flush
      rw [Store.cached_eq hm hf]
      exact (if_pos hclean).symm
    · rfl

/-! ## Pages into frames -/

/-- A frame that nobody uses is emptied, and its page with it written. -/
theorem evict (h : s.Whole s₀ uses (some f)) (hf : (s.pool.frame f).page = some page) (hu : ∀ u ∈ uses, u.frame ≠ f) :
    (Action.evict f).Ends s
      (fun _ s' => s.Vacated s₀ uses f s') fun _ _ => False := by
  unfold Action.evict
  rw [ends_bind, ends_get]
  simp only [hf]
  rw [ends_bind]
  refine (h.writeBack f page).mono (fun _ s₁ h₁ => ?_) fun _ _ h' => h'
  obtain ⟨h₁, hserves, hpages, hcopies⟩ := h₁
  have hf₁ : (s₁.pool.frame f).page = some page := (hpages f).trans hf
  have hm := h₁.balanced.pool.mapped
  obtain ⟨hp, hempty⟩ := h₁.balanced.pool.unmap hf₁
  have hne : ∀ g, g ≠ f → (s₁.pool.unmap f page).frame g = s₁.pool.frame g := fun g hg =>
    Pool.frame_modifyFrame_of_ne hg _
  have hframes : ∀ u ∈ uses, ((s₁.pool.unmap f page).frame u.frame).page = (s₁.pool.frame u.frame).page := fun u hin => by
    rw [hne _ (hu u hin)]
  rw [ends_modifyPool]
  let s₂ := s₁.modifyPool fun p => (p.unmap f page).count fun c => { c with evictions := c.evictions + 1 }
  have hafter : ∀ q, s₂.copies q = if q = page then (s₁.copies q).leave else s₁.copies q := by
    obtain ⟨hself, hother⟩ := Store.copies_unmap hm hf₁
    intro q
    by_cases e : q = page
    · subst e
      rw [if_pos rfl, Store.copies_eq hm hf₁]
      exact hself
    · rw [if_neg e]
      exact hother q e
  have hidle : s.Idle uses page := fun u hin hu' =>
    hu u hin (h.balanced.pool.frame_inj hu' hf)
  refine ⟨{ h₁ with
      balanced := ⟨hp.congr rfl rfl rfl rfl rfl rfl, h₁.balanced.grown⟩
      used := fun u hin => ?_
      fit := fun q => ?_ }, hserves.trans ⟨.refl _, rfl, .refl _, hframes, fun q => ?_⟩,
    (Pool.length_modifyFrame ..).symm ▸ Pool.lt_of_page hf₁, hempty, hu, fun q hq => ?_⟩
  · show ((s₁.pool.unmap f page).frame u.frame).page = _ ∨ ((s₁.pool.unmap f page).frame u.frame).page = _
    rw [hframes u hin]
    exact h₁.used u hin
  · have hfit := h₁.fit q
    show (s₂.copies q).Fit _ _
    rw [hafter]
    split
    · exact hfit.leave
    · exact hfit
  · show (s₁.copies q).Shift _ (s₂.copies q)
    rw [hafter]
    split
    · rename_i e
      subst e
      refine .leave .stay ?_ ((hserves.idle q).2 hidle)
      rw [hcopies, if_pos ⟨rfl, hf⟩]
      exact Copies.Drafted.clean_flush _
    · exact .stay
  · have e : q ≠ page := by
      rintro rfl
      rw [Store.cached_eq h.balanced.pool.mapped hf] at hq
      cases hq
    refine (hafter q).trans ((if_neg e).trans ?_)
    rw [hcopies, if_neg fun hh => e hh.1]

theorem takeVictim (h : s.Whole s₀ uses none) :
    Action.takeVictim.Ends s (s.Vacated s₀ uses) fun _ s' => s'.Whole s₀ uses none ∧ s.Serves uses s' := by
  have hof := @Clock.of_evict s.pool.clock s.pool.isPinned
  unfold Action.takeVictim
  rw [ends_bind, ends_get]
  cases hv : s.pool.clock.evict s.pool.isPinned with
  | mk victim clock =>
    obtain ⟨hp, hpage⟩ := h.balanced.pool.takeVictim hv
    rw [hv] at hof
    have hserves : s.Serves uses (s.modifyPool fun p => { p with clock }) :=
      ⟨.refl _, rfl, .refl _, fun _ _ => rfl, fun _ => .stay⟩
    have h₁ : (s.modifyPool fun p => { p with clock }).Whole s₀ uses victim :=
      { h with balanced := ⟨hp, h.balanced.grown⟩ }
    simp only [hv]
    rw [ends_bind, ends_modifyPool]
    cases victim with
    | none => exact ⟨h₁, hserves⟩
    | some f =>
      obtain ⟨page, hf⟩ := Option.ne_none_iff_exists'.1 (hpage f rfl)
      have hu : ∀ u ∈ uses, u.frame ≠ f := by
        rintro u hin rfl
        have hpins := h.balanced.pool.pinned u.frame
        have hpos := List.count_pos_iff.2 (List.mem_map_of_mem (f := Use.frame) hin)
        exact of_decide_eq_false (hof rfl).2 (hpins ▸ hpos)
      show ((Action.evict f).orElseDo _ >>= _).Ends _ _ _
      rw [ends_bind, ends_orElseDo]
      refine (h₁.evict hf hu).mono (fun _ s' h' => ?_) fun _ _ h' => h'.elim
      exact ⟨h'.whole, hserves.trans h'.serves, h'.lt, h'.empty, h'.unused, h'.uncached⟩

/-- Frames that become free show in no page. -/
theorem reclaim (h : s.Whole s₀ uses none) :
    (s.modifyPool Pool.reclaim).Whole s₀ uses none ∧ s.Serves uses (s.modifyPool Pool.reclaim) ∧
      ∀ page, (s.modifyPool Pool.reclaim).copies page = s.copies page := by
  have hstill := Still.reclaim h.balanced.pool
  have hconfig : (s.modifyPool Pool.reclaim).pool.config = s.pool.config := by
    obtain ⟨frames, free, pendingFree, -, e⟩ := Pool.Accounted.reclaim_eq s.pool
    show s.pool.reclaim.config = _
    rw [e]
  refine ⟨⟨⟨h.balanced.pool.reclaim, h.balanced.grown⟩, fun u hu => hstill.frames u.frame ▸ h.used u hu,
    hstill.locks ▸ h.locks, hconfig ▸ h.ground, ?_, fun page => ?_⟩, hstill.serves uses, hstill.copies⟩
  · rw [Store.mode?_congr hstill.locks]
    exact h.covered
  · rw [hstill.copies, hconfig]
    exact h.fit page

theorem takeFrame (h : s.Whole s₀ uses none) :
    Action.takeFrame.Ends s (s.Vacated s₀ uses) fun _ s' => s'.Whole s₀ uses none ∧ s.Serves uses s' := by
  obtain ⟨h₁, hserves, hcopies⟩ := h.reclaim
  unfold Action.takeFrame
  rw [ends_bind, ends_modifyPool, ends_bind, ends_get]
  cases hfree : (s.modifyPool Pool.reclaim).pool.free with
  | cons f rest =>
    obtain ⟨hp, hlt, hempty⟩ := h₁.balanced.pool.takeFree hfree
    refine ⟨{ h₁ with balanced := ⟨hp, h₁.balanced.grown⟩ }, hserves.trans ⟨.refl _, rfl, .refl _, fun _ _ => rfl,
      fun _ => .stay⟩, hlt, hempty, fun u hin e => ?_, fun page _ => hcopies page⟩
    refine h₁.balanced.pool.taken_of_pinned (List.mem_map_of_mem (f := Use.frame) hin) ?_
    rw [e, hfree]
    exact List.mem_cons_self ..
  | nil =>
    refine h₁.takeVictim.mono (fun f s' h' => ?_) fun _ s' h' => ⟨h'.1, hserves.trans h'.2⟩
    refine ⟨h'.whole, hserves.trans h'.serves, h'.lt, h'.empty, h'.unused, fun page hc => ?_⟩
    rw [h'.uncached page (hcopies page ▸ hc), hcopies]

theorem pin (h : s.Whole s₀ uses out) (hf : (s.pool.frame f).page = some page) (holder : Option (TxnId × LockMode))
    (hc : ∀ t m, holder = some (t, m) → Covered (s.mode? t page) m) :
    (s.modifyPool fun p => p.pin f).Whole s₀ (⟨f, page, holder, false⟩ :: uses) out ∧
      s.Still (s.modifyPool fun p => p.pin f) := by
  have hstill : s.Still (s.modifyPool fun p => p.pin f) :=
    .modifyFrame s f (c := fun x => { x with pins := x.pins + 1 }) (fun _ => rfl) fun _ => rfl
  refine ⟨{ h with
    balanced := ⟨h.balanced.pool.pin hf, h.balanced.grown⟩
    used := fun u hu => ?_
    covered := fun u hu => ?_
    fit := fun q => hstill.copies q ▸ h.fit q }, hstill⟩
  · rw [hstill.frames]
    rcases List.mem_cons.1 hu with rfl | hu
    · exact .inl hf
    · exact h.used u hu
  · rcases List.mem_cons.1 hu with rfl | hu
    · exact hc
    · exact h.covered u hu

theorem unpin (h : s.Whole s₀ (u :: uses) none) :
    (s.modifyPool fun p => p.unpin u.frame).Whole s₀ uses none ∧ s.Still (s.modifyPool fun p => p.unpin u.frame) := by
  have hstill : s.Still (s.modifyPool fun p => p.unpin u.frame) :=
    .modifyFrame s u.frame (c := fun x => { x with pins := x.pins - 1 }) (fun _ => rfl) fun _ => rfl
  refine ⟨{ h with
    balanced := ⟨h.balanced.pool.unpin, h.balanced.grown⟩
    used := fun v hv => ?_
    covered := fun v hv => h.covered v (List.mem_cons_of_mem _ hv)
    fit := fun q => hstill.copies q ▸ h.fit q }, hstill⟩
  rw [hstill.frames]
  exact h.used v (List.mem_cons_of_mem _ hv)

theorem pinAll (pinned : List (PageId × FrameId)) {s : Store} {uses : List Use} (h : s.Whole s₀ uses none)
    (hp : ∀ x ∈ pinned, (s.pool.frame x.2).page = some x.1) :
    (s.modifyPool fun p => pinned.foldl (fun p (_, f) => p.pin f) p).Whole s₀ (pinsOf pinned ++ uses) none ∧
      s.Still (s.modifyPool fun p => pinned.foldl (fun p (_, f) => p.pin f) p) := by
  induction pinned generalizing s uses with
  | nil => exact ⟨h, .refl s⟩
  | cons x rest ih =>
    obtain ⟨h₁, hstill⟩ := h.pin (hp x (List.mem_cons_self ..)) none nofun
    obtain ⟨h₂, hstill'⟩ := ih h₁ fun y hy => (hstill.frames y.2).trans (hp y (List.mem_cons_of_mem _ hy))
    exact ⟨h₂.perm List.perm_middle, hstill.trans hstill'⟩

theorem unpinAll (pinned : List (PageId × FrameId)) {s : Store} (h : s.Whole s₀ (pinsOf pinned ++ uses) none) :
    (s.modifyPool fun p => pinned.foldl (fun p (_, f) => p.unpin f) p).Whole s₀ uses none ∧
      s.Still (s.modifyPool fun p => pinned.foldl (fun p (_, f) => p.unpin f) p) := by
  induction pinned generalizing s with
  | nil => exact ⟨h, .refl s⟩
  | cons x rest ih =>
    obtain ⟨h₁, hstill⟩ := h.unpin
    obtain ⟨h₂, hstill'⟩ := ih h₁
    exact ⟨h₂, hstill.trans hstill'⟩

/-- A use of the same page in the same frame, in place of another. -/
theorem replace (h : s.Whole s₀ (u :: uses) none) {u' : Use} (hf : u'.frame = u.frame) (hp : u'.page = u.page)
    (hh : u'.holder = u.holder) : s.Whole s₀ (u' :: uses) none := by
  refine { h with
    balanced := ⟨?_, h.balanced.grown⟩
    used := fun v hv => ?_
    covered := fun v hv => ?_ }
  · rw [List.map_cons, hf]
    exact h.balanced.pool
  · rcases List.mem_cons.1 hv with rfl | hv
    · rw [hf, hp]
      exact h.used u (List.mem_cons_self ..)
    · exact h.used v (List.mem_cons_of_mem _ hv)
  · rcases List.mem_cons.1 hv with rfl | hv
    · rw [hh, hp]
      exact h.covered u (List.mem_cons_self ..)
    · exact h.covered v (List.mem_cons_of_mem _ hv)

theorem touch (h : s.Whole s₀ uses out) (hf : (s.pool.frame f).page ≠ none) (hout : ∀ g, out = some g → g = f) :
    (s.modifyPool fun p => p.touch f).Whole s₀ uses none :=
  { h with balanced := ⟨h.balanced.pool.touch hf hout, h.balanced.grown⟩ }

end Store.Whole

/-- The page comes into the frame that was taken out for it. -/
theorem Store.Vacated.install {s₀ s s' : Store} {uses : List Use} {f : FrameId} {page : PageId}
    (h₀ : s.Whole s₀ uses none) (h : s.Vacated s₀ uses f s') (hp : (s.copies page).cached = none)
    (hthere : s.volume.HasPage s.catalog s.pool.config.pageSize page) :
    (s'.modifyPool fun p => p.install f page (s.onFile page)).Whole s₀ uses (some f) ∧
      ((s'.pool.install f page (s.onFile page)).frame f).page = some page ∧
      s.Serves uses (s'.modifyPool fun p => p.install f page (s.onFile page)) := by
  obtain ⟨h₁, hserves, hlt, hempty, hunused, huncached⟩ := h
  have hsame := huncached page hp
  have hp₁ : (s'.copies page).cached = none := hsame ▸ hp
  have hmiss : s'.pool.find? page = none := Option.map_eq_none_iff.1 hp₁
  obtain ⟨hself, hother⟩ := Store.copies_install h₁.balanced.pool.mapped hlt hempty page (s.onFile page)
  obtain ⟨hpool, hf⟩ := h₁.balanced.pool.install hlt hempty hmiss (s.onFile page)
  have hframes : ∀ u ∈ uses, ((s'.pool.install f page (s.onFile page)).frame u.frame).page =
      (s'.pool.frame u.frame).page := fun u hin => by
    rw [show (s'.pool.install f page (s.onFile page)).frame u.frame = s'.pool.frame u.frame from
      Pool.frame_modifyFrame_of_ne (hunused u hin) _]
  have hfile : s.onFile page = s'.onFile page := (congrArg Copies.file hsame).symm
  have hload : (s'.modifyPool fun p => p.install f page (s.onFile page)).copies page = (s'.copies page).load := by
    rw [hself]
    unfold Copies.load
    rw [hp₁, hfile]
    rfl
  have hthere₁ : s'.volume.HasPage s'.catalog s'.pool.config.pageSize page := by
    rw [h₁.ground.catalog, h₁.ground.config, ← h₀.ground.catalog, ← h₀.ground.config]
    exact hthere.extends hserves.grown
  refine ⟨{ h₁ with
    balanced := ⟨hpool, h₁.balanced.grown⟩
    used := fun u hin => hframes u hin ▸ h₁.used u hin
    fit := fun q => ?_ }, hf, hserves.trans ⟨.refl _, rfl, .refl _, hframes, fun q => ?_⟩⟩
  · by_cases e : q = page
    · subst e
      rw [hself]
      refine ⟨fun c hc => ?_, nofun⟩
      cases hc
      exact ⟨hthere₁, hfile ▸ Volume.Registered.length_pageBytes hthere₁, fun b hb => ((h₁.fit q).kept b hb).2⟩
    · rw [hother q e]
      exact h₁.fit q
  · by_cases e : q = page
    · subst e
      rw [hload]
      exact .load .stay (h₁.idle_of_uncached hmiss)
    · rw [hother q e]
      exact .stay

namespace Store.Whole

variable {s₀ s s' : Store} {uses uses' : List Use} {f : FrameId} {page : PageId}

/-- A page that is fetched is one use more. Pages that nobody uses may leave the cache for it. -/
theorem load (h : s.Whole s₀ uses none) (hp : s.pool.find? page = none) {holder : Option (TxnId × LockMode)}
    (hc : ∀ t m, holder = some (t, m) → Covered (s.mode? t page) m) :
    (Action.load page).Ends s
      (fun f s' => s'.Whole s₀ (⟨f, page, holder, false⟩ :: uses) none ∧ s.Serves uses s' ∧
        (s'.pool.frame f).page = some page)
      fun _ s' => s'.Whole s₀ uses none ∧ s.Serves uses s' := by
  -- counters apart, the store is as it was until a frame is taken
  have hcount : ∀ {s : Store} (g : Counters → Counters), s.Whole s₀ uses none →
      (s.modifyPool fun p => p.count g).Whole s₀ uses none := fun {s} g h =>
    h.congr (p := s.pool.count g) rfl rfl rfl rfl rfl rfl rfl rfl _ _
  have hserves : ∀ (s : Store) (g : Counters → Counters), s.Serves uses (s.modifyPool fun p => p.count g) := fun s g =>
    ⟨.refl _, rfl, .refl _, fun _ _ => rfl, fun _ => .stay⟩
  unfold Action.load
  rw [ends_bind, ends_modifyPool, ends_bind]
  refine (ends_resolve (hcount _ h).ground page.table).mono (fun hd s₁ h₁ => ?_) fun _ s₁ h₁ => ?_
  · obtain ⟨rfl, file, hfile, htable, hsize⟩ := h₁
    rw [ends_bind]
    refine (ends_readPage (hcount _ h).ground hfile htable hsize).mono (fun bytes s₂ h₂ => ?_) fun _ s₂ h₂ => ?_
    · obtain ⟨rfl, rfl, hthere⟩ := h₂
      rw [ends_bind, ends_modifyPool, ends_bind]
      have h₃ := hcount (fun c => { c with pagesRead := c.pagesRead + 1 })
        (hcount (fun c => { c with misses := c.misses + 1 }) h)
      have hserves₃ := (hserves s fun c => { c with misses := c.misses + 1 }).trans
        (hserves _ fun c => { c with pagesRead := c.pagesRead + 1 })
      refine h₃.takeFrame.mono (fun f s₄ h₄ => ?_) fun _ s₄ h₄ => ⟨h₄.1, hserves₃.trans h₄.2⟩
      have huncached : (s.copies page).cached = none := by
        unfold Store.copies
        rw [hp]
        rfl
      obtain ⟨h₅, hf, hserves₅⟩ := h₄.install h₃ huncached hthere
      have hlocks : s₄.pool.locks = s.pool.locks := h₄.serves.locks
      obtain ⟨h₆, hstill⟩ := h₅.pin hf holder fun t m e => by
        show Covered (s₄.pool.locks.mode? t page) m
        rw [hlocks]
        exact hc t m e
      have hf₆ : (((s₄.pool.install f page (s.onFile page)).pin f).frame f).page = some page := (hstill.frames f).trans hf
      have h₇ := h₆.touch (hf₆ ▸ Option.some_ne_none page) fun g e => (Option.some.inj e).symm
      rw [ends_bind, ends_modifyPool, ends_bind, ends_note, ends_pure]
      refine ⟨h₇.congr (p := ((s₄.pool.install f page (s.onFile page)).pin f).touch f) rfl rfl rfl rfl rfl rfl rfl rfl _ _,
        (hserves₃.trans hserves₅).trans
          ⟨⟨[.loaded page], rfl, fun e he => ?_⟩, rfl, .refl _, fun u _ => hstill.frames u.frame,
            fun q => ?_⟩, hf₆⟩
      · rw [List.mem_singleton.1 he]
        exact fun _ _ => rfl
      · exact hstill.copies q ▸ .stay
    · rw [h₂]
      exact ⟨hcount _ h, hserves s _⟩
  · rw [h₁]
    exact ⟨hcount _ h, hserves s _⟩

theorem fetch (h : s.Whole s₀ uses none) (page : PageId) (holder : Option (TxnId × LockMode))
    (hc : ∀ t m, holder = some (t, m) → Covered (s.mode? t page) m) :
    (Action.fetch page).Ends s
      (fun f s' => s'.Whole s₀ (⟨f, page, holder, false⟩ :: uses) none ∧ s.Serves uses s' ∧
        (s'.pool.frame f).page = some page)
      fun _ s' => s'.Whole s₀ uses none ∧ s.Serves uses s' := by
  unfold Action.fetch
  rw [ends_bind, ends_get]
  cases hp : s.pool.find? page with
  | none => exact h.load hp hc
  | some f =>
    have hf := (h.balanced.pool.mapped page f).1 hp
    obtain ⟨h₁, hstill⟩ := h.pin hf holder hc
    have h₂ := h₁.touch ((hstill.frames f).trans hf ▸ Option.some_ne_none page) nofun
    exact ⟨h₂.congr (p := ((s.pool.pin f).touch f).count _) rfl rfl rfl rfl rfl rfl rfl rfl _ _,
      ⟨.refl _, rfl, .refl _, fun u _ => hstill.frames u.frame, fun q => hstill.copies q ▸ .stay⟩, (hstill.frames f).trans hf⟩

end Store.Whole

/-! ## Pages dropped -/

namespace Pool

/-- The frame of the page has no page any more. -/
theorem page_discard {p : Pool} (hm : p.Maps) (page : PageId) (g : FrameId) :
    ((p.discard page).frame g).page = if (p.frame g).page = some page then none else (p.frame g).page := by
  cases hp : p.find? page with
  | none =>
    rw [discard_of_none hp, if_neg fun hg => ?_]
    rw [(hm page g).2 hg] at hp
    cases hp
  | some f =>
    have hf := (hm page f).1 hp
    rw [frame_discard hp hf]
    by_cases e : g = f
    · rw [if_pos e, e, if_pos hf]
      rfl
    · rw [if_neg e, if_neg fun hg => e (Option.some.inj (((hm page g).2 hg).symm.trans hp))]

end Pool

theorem Store.copies_discard {s : Store} (hm : s.pool.Maps) (page q : PageId) :
    (s.modifyPool fun p => p.discard page).copies q = if q = page then (s.copies q).discard else s.copies q := by
  cases hp : s.pool.find? page with
  | none =>
    rw [show (s.modifyPool fun p => p.discard page) = s from congrArg (fun pool => { s with pool })
      (Pool.discard_of_none hp)]
    split
    · rename_i e
      unfold Store.copies Copies.discard
      rw [e, hp]
      rfl
    · rfl
  | some f =>
    have hf := (hm page f).1 hp
    unfold Store.copies Store.modifyPool
    simp only [Pool.find?_discard hp, Pool.retained_discard hp]
    by_cases e : q = page
    · rw [if_pos e, if_pos e, if_pos e, e, hp]
      rfl
    · rw [if_neg e, if_neg e, if_neg e]
      cases hg : s.pool.find? q with
      | none => rfl
      | some g =>
        have hne : g ≠ f := by
          rintro rfl
          rw [hm, hf] at hg
          exact e (Option.some.inj hg).symm
        rw [Option.map_some, Option.map_some, Pool.frame_discard hp hf, if_neg hne]
        rfl

theorem Copies.Fit.discard {size : Nat} {there : Prop} {x : Copies} (h : x.Fit size there) :
    x.discard.Fit size there := by
  obtain ⟨_ | c, kept, file⟩ := x
  · exact h
  refine ⟨nofun, fun b hb => ?_⟩
  have hb : (c.before.filter BeforeImage.onDisk).or kept = some b := hb
  rcases Option.or_eq_some_iff.1 hb with hb | ⟨-, hb⟩
  · exact ⟨(h.cached c rfl).1, (h.cached c rfl).2.2 b (Option.filter_eq_some_iff.1 hb).1⟩
  · exact h.kept b hb

/-- A page is dropped from its frame, whoever uses it there. -/
theorem Store.Whole.discard {s₀ s : Store} {uses : List Use} (h : s.Whole s₀ uses none) (page : PageId) :
    (s.modifyPool fun p => p.discard page).Whole s₀ uses none := by
  have hm := h.balanced.pool.mapped
  have hlocks : (s.pool.discard page).locks = s.pool.locks := by
    unfold Pool.discard
    split <;> rfl
  have hconfig : (s.pool.discard page).config = s.pool.config := by
    unfold Pool.discard
    split <;> rfl
  refine ⟨⟨h.balanced.pool.discard page, h.balanced.grown⟩, fun u hu => ?_, hlocks ▸ h.locks, hconfig ▸ h.ground, ?_,
    fun q => ?_⟩
  · show ((s.pool.discard page).frame u.frame).page = _ ∨ ((s.pool.discard page).frame u.frame).page = _
    rw [Pool.page_discard hm]
    split
    · exact .inr rfl
    · exact h.used u hu
  · rw [Store.mode?_congr (s := s) hlocks]
    exact h.covered
  · rw [Store.copies_discard hm]
    show Copies.Fit (s.pool.discard page).config.pageSize
      (s.volume.HasPage s.catalog (s.pool.discard page).config.pageSize q) _
    rw [hconfig]
    split
    · exact (h.fit q).discard
    · exact h.fit q

end TupleStore
