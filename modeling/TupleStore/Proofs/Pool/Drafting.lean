import TupleStore.Proofs.Pool.Moving

/-!
# Drafts kept

A store keeps to a draft of every page while its pages can be discarded: `Store.Honors`. Work through a guard whose
page is in its frame goes into the drafts. A guard that has lost its page works on a frame that no page sees, and the
drafts stay as they are.

* `Honors.serve`, `Honors.still` : the cache at work;
* `Honors.capture`, `Honors.overwrite`, `Honors.release` : work through a guard, and `Honors.orphan` : what is left of it
  where the page is lost;
* `Honors.markDirty` : marks. Who has changed a page may mark it (`Copies.Bears`), and who has gone astray does;
* `Keeping`, `custody_keeping` : requests and calls. What has happened since tells the drafts.
-/

namespace TupleStore

set_option autoImplicit false

open TupleStore.Action

/-! ## Work on pages -/

/-- A transaction is at work on a page, in the frame where the page is. -/
def Store.WorksOn (s : Store) (uses : List Use) (page : PageId) (t : TxnId) : Prop :=
  ∃ u ∈ uses, (s.pool.frame u.frame).page = some page ∧ u.changed = true ∧ u.holder = some (t, .write)

/-- A store that keeps to drafts of its pages. -/
structure Store.Honors (s s₀ : Store) (stray : PageId → TxnId → Prop) (d : PageId → Draft) (uses : List Use) : Prop where
  whole : s.Whole s₀ uses none
  pages : ∀ page, (s.copies page).Drafted (s.mode? · page) (s.WorksOn uses page) (stray page) (d page)

/-- A transaction may mark a page: a cached page has its before-image. -/
def Copies.Bears (x : Copies) (t : TxnId) : Prop := ∀ c, x.cached = some c → ∃ b, c.before = some b ∧ b.owner = t

variable {s₀ s s' : Store} {stray : PageId → TxnId → Prop} {d d' first : PageId → Draft} {uses uses' : List Use} {u : Use}
  {g : Guard} {page : PageId} {t : TxnId}

theorem page_markDirty (p : Pool) (page : PageId) (t : TxnId) (f : FrameId) :
    ((p.markDirty page t).frame f).page = (p.frame f).page := by
  unfold Pool.markDirty
  split
  · rfl
  · exact Pool.modifyFrame_keeps p _ f Frame.page fun _ => rfl

namespace Store

theorem worksOn_cons :
    s.WorksOn (u :: uses) page t ↔ ((s.pool.frame u.frame).page = some page ∧ u.changed = true ∧
      u.holder = some (t, .write)) ∨ s.WorksOn uses page t := by
  unfold WorksOn
  simp only [List.mem_cons, exists_eq_or_imp]

/-- A use that was not opened for change does not count as work. -/
theorem worksOn_cons_of_unchanged (hu : u.changed = false) (s : Store) (uses : List Use) (page : PageId) (t : TxnId) :
    s.WorksOn (u :: uses) page t ↔ s.WorksOn uses page t := by
  rw [worksOn_cons, hu]
  simp

/-- Nor does one whose page has left its frame. -/
theorem worksOn_cons_of_lost (hu : (s.pool.frame u.frame).page = none) (uses : List Use) (page : PageId) (t : TxnId) :
    s.WorksOn (u :: uses) page t ↔ s.WorksOn uses page t := by
  rw [worksOn_cons, hu]
  simp

theorem worksOn_pinsOf (pinned : List (PageId × FrameId)) (s : Store) (uses : List Use) (page : PageId) (t : TxnId) :
    s.WorksOn (pinsOf pinned ++ uses) page t ↔ s.WorksOn uses page t := by
  induction pinned with
  | nil => exact Iff.rfl
  | cons e rest ih => exact (worksOn_cons_of_unchanged (u := ⟨e.2, e.1, none, false⟩) rfl s _ page t).trans ih

theorem worksOn_perm (e : uses.Perm uses') (s : Store) (page : PageId) (t : TxnId) :
    s.WorksOn uses page t ↔ s.WorksOn uses' page t := by
  unfold WorksOn
  simp only [e.mem_iff]

theorem worksOn_congr (h : ∀ u ∈ uses, (s'.pool.frame u.frame).page = (s.pool.frame u.frame).page) (page : PageId)
    (t : TxnId) : s'.WorksOn uses page t ↔ s.WorksOn uses page t := by
  unfold WorksOn
  exact exists_congr fun u => and_congr_right fun hu => by rw [h u hu]

theorem Idle.not_worksOn (h : s.Idle uses page) (t : TxnId) : ¬ s.WorksOn uses page t := fun ⟨u, hu, hp, _⟩ => h u hu hp

/-- Who works on a page has it locked to write. -/
theorem Whole.write_of_worksOn (h : s.Whole s₀ uses none) (hw : s.WorksOn uses page t) : s.mode? t page = some .write := by
  obtain ⟨u, hu, hp, -, hh⟩ := hw
  have hpage : u.page = page := by
    rcases h.used u hu with hp' | hp'
    · exact Option.some.inj (hp'.symm.trans hp)
    · rw [hp'] at hp
      cases hp
  exact hpage ▸ (h.covered u hu t .write hh).write

end Store

namespace Store.Honors

theorem perm (h : s.Honors s₀ stray d uses) (e : uses.Perm uses') : s.Honors s₀ stray d uses' :=
  ⟨h.whole.perm e, fun page => (h.pages page).rebusy fun t => (worksOn_perm e s page t).symm⟩

/-- What the cache does of its own accord, where other uses come to the same work. -/
theorem serve (h : s.Honors s₀ stray d uses) (hs : s.Serves uses s') (hw : s'.Whole s₀ uses' none)
    (he : ∀ page t, s'.WorksOn uses' page t ↔ s'.WorksOn uses page t) : s'.Honors s₀ stray d uses' := by
  refine ⟨hw, fun page => ?_⟩
  rw [mode?_congr hs.locks]
  have hshift := (h.pages page).shift (hs.pages page) fun hi t => hi.not_worksOn t
  exact hshift.rebusy fun t => (he page t).trans (worksOn_congr hs.frames page t)

theorem still (h : s.Honors s₀ stray d uses) (hs : s.Still s') (hw : s'.Whole s₀ uses' none)
    (he : ∀ page t, s.WorksOn uses' page t ↔ s.WorksOn uses page t) : s'.Honors s₀ stray d uses' := by
  refine h.serve (hs.serves uses) hw fun page t => ?_
  rw [worksOn_congr (s := s) (fun u _ => hs.frames u.frame), worksOn_congr (s := s) fun u _ => hs.frames u.frame]
  exact he page t

/-- One page changed. -/
theorem change (h : s.Honors s₀ stray d uses) (hw : s'.Whole s₀ uses' none) (hlocks : s'.pool.locks = s.pool.locks)
    (page : PageId) (hother : ∀ q, q ≠ page → s'.copies q = s.copies q ∧ d' q = d q ∧
      ∀ t, s'.WorksOn uses' q t ↔ s.WorksOn uses q t)
    (hself : (s'.copies page).Drafted (s.mode? · page) (s'.WorksOn uses' page) (stray page) (d' page)) :
    s'.Honors s₀ stray d' uses' := by
  refine ⟨hw, fun q => ?_⟩
  rw [mode?_congr hlocks]
  by_cases e : q = page
  · subst e
    exact hself
  · obtain ⟨hcopies, hd, hworks⟩ := hother q e
    rw [hcopies, hd]
    exact (h.pages q).rebusy hworks

/-- Another trace and another log. -/
theorem renote (h : s.Honors s₀ stray d uses) (log : Log) (trace : List Effect) :
    Store.Honors { s with log, trace } s₀ stray d uses :=
  ⟨h.whole.congr (p := s.pool) rfl rfl rfl rfl rfl rfl rfl rfl log trace, h.pages⟩

/-! ## Locks -/

theorem relock (h : s.Honors s₀ stray d uses) {p : Pool} {locks : LockTable} (hp : p = { s.pool with locks })
    (hsound : locks.Sound) (hcov : ∀ t page m, Covered (s.mode? t page) m → Covered (locks.mode? t page) m) :
    Store.Honors { s with pool := p } s₀ stray d uses := by
  subst hp
  have hw := h.whole
  refine ⟨{ hw with
    balanced := hw.balanced.congr rfl rfl rfl rfl rfl rfl rfl
    locks := hsound
    covered := fun u hu t m e => hcov _ _ _ (hw.covered u hu t m e) }, fun page => (h.pages page).relock fun t ht => ?_⟩
  exact (hcov _ _ _ (covered_of_write ((h.pages page).locked t ht) .write)).write

theorem acquire (h : s.Honors s₀ stray d uses) (t : TxnId) (page : PageId) (mode : LockMode) :
    (s.modifyPool fun p => { p with locks := (s.pool.locks.acquire t page mode).2 }).Honors s₀ stray d uses :=
  h.relock rfl (h.whole.locks.acquire t page mode) fun _ _ _ hc => LockTable.covered_acquire hc

/-! ## Work through guards -/

/-- Whoever writes a page has it alone. -/
theorem alone (h : s.Honors s₀ stray d uses) (hc : s.mode? t page = some .write) (v : TxnId)
    (hv : s.mode? v page = some .write) : v = t :=
  (h.whole.locks.eq_of_write hv fun hn => Option.some_ne_none _ (hc.symm.trans hn)).symm

/-- A page is opened for change in its frame. -/
theorem capture (h : s.Honors s₀ stray d (g.use :: uses)) (hf : (s.pool.frame g.frame).page = some g.page)
    (hm : g.mode = .write) (hc : g.changed = false) (hd' : ∀ page, d' page = (d page).record page (.opened g.txn g.page)) :
    (s.modifyPool fun p => p.modifyFrame g.frame fun f => f.capture g.txn).Honors s₀ stray d'
      (Guard.use { g with changed := true } :: uses) := by
  have hu : g.use ∈ g.use :: uses := List.mem_cons_self ..
  have hmaps := h.whole.balanced.pool.mapped
  have hcov : s.mode? g.txn g.page = some .write := (h.whole.covered _ hu g.txn .write (by rw [← hm]; rfl)).write
  have hpage : ∀ f, ((s.pool.modifyFrame g.frame fun f => f.capture g.txn).frame f).page = (s.pool.frame f).page :=
    fun f => Pool.modifyFrame_keeps s.pool g.frame f Frame.page fun x => (x.capture_captured g.txn).page
  -- from now on the transaction works on the page
  have hworks : ∀ q t, (s.modifyPool fun p => p.modifyFrame g.frame fun f => f.capture g.txn).WorksOn
      (Guard.use { g with changed := true } :: uses) q t ↔
        (q = g.page ∧ t = g.txn) ∨ s.WorksOn (g.use :: uses) q t := fun q t => by
    rw [worksOn_cons, worksOn_congr (s := s) (fun u _ => hpage u.frame), worksOn_cons_of_unchanged (u := g.use) hc]
    refine or_congr ⟨fun ⟨hp, _, he⟩ => ?_, fun ⟨hp, ht⟩ => ⟨?_, rfl, ?_⟩⟩ Iff.rfl
    · exact ⟨Option.some.inj (((hpage g.frame).symm.trans hp).symm.trans hf),
        (congrArg Prod.fst (Option.some.inj he)).symm⟩
    · rw [hp]
      exact (hpage g.frame).trans hf
    · rw [ht, ← hm]
      rfl
  have hw : (s.modifyPool fun p => p.modifyFrame g.frame fun f => f.capture g.txn).Whole s₀ (g.use :: uses) none :=
    h.whole.modifyFrame (h.whole.balanced.taken_of_page hf) (fun x => (x.capture_captured g.txn).page)
      (fun x => (x.capture_captured g.txn).pins) fun hfits => hfits.capture
  refine h.change (hw.replace rfl rfl rfl) rfl g.page (fun q hq => ⟨?_, ?_, fun t => ?_⟩) ?_
  · exact Store.copies_modifyFrame_of_ne hmaps hf _ hq
  · rw [hd']
    exact if_neg (Ne.symm hq)
  · rw [hworks]
    exact or_iff_right fun hh => hq hh.1
  · rw [hd', Store.copies_modifyFrame hmaps hf]
    rw [show ∀ d : Draft, d.record g.page (.opened g.txn g.page) = { d with owner := some g.txn } from fun d => if_pos rfl]
    refine (h.pages g.page).openFor (Store.cached_eq hmaps hf) hcov (fun v hv => h.alone hcov v hv) (fun v hv => ?_) ?_
    · exact ((hworks _ _).1 hv).imp_left And.right
    · exact (hworks _ _).2 (.inl ⟨rfl, rfl⟩)

/-- New bytes in the frame of a page. -/
theorem overwrite (h : s.Honors s₀ stray d (g.use :: uses)) (hf : (s.pool.frame g.frame).page = some g.page)
    (hm : g.mode = .write) (hc : g.changed = true) {bytes : Bytes} (hl : bytes.length = (g.bytes s).length)
    (hd' : ∀ page, d' page = (d page).record page (.changed g.txn g.page bytes)) :
    (s.modifyPool fun p => p.modifyFrame g.frame fun f => { f with bytes }).Honors s₀ stray d' (g.use :: uses) := by
  have hmaps := h.whole.balanced.pool.mapped
  have hpage : ∀ f, ((s.pool.modifyFrame g.frame fun f => { f with bytes }).frame f).page = (s.pool.frame f).page :=
    fun f => Pool.modifyFrame_keeps s.pool g.frame f Frame.page fun _ => rfl
  have hworks : s.WorksOn (g.use :: uses) g.page g.txn := ⟨g.use, List.mem_cons_self .., hf, hc, by rw [← hm]; rfl⟩
  have hsame : ∀ q t, (s.modifyPool fun p => p.modifyFrame g.frame fun f => { f with bytes }).WorksOn (g.use :: uses) q t ↔
      s.WorksOn (g.use :: uses) q t := worksOn_congr fun u _ => hpage u.frame
  refine h.change (h.whole.modifyFrame (h.whole.balanced.taken_of_page hf) (fun _ => rfl) (fun _ => rfl)
    fun hfits => ⟨hl.trans hfits.1, hfits.2⟩) rfl g.page (fun q hq => ⟨?_, ?_, hsame q⟩) ?_
  · exact Store.copies_modifyFrame_of_ne hmaps hf _ hq
  · rw [hd']
    exact if_neg (Ne.symm hq)
  · rw [hd', Store.copies_modifyFrame hmaps hf]
    rw [show ∀ d : Draft, d.record g.page (.changed g.txn g.page bytes) =
      ⟨d.committed, bytes, some g.txn, bytes :: d.given⟩ from fun d => if_pos rfl]
    exact ((h.pages g.page).setBytes (Store.cached_eq hmaps hf) hworks bytes).rebusy (hsame g.page)

/-- Who works on a page has its before-image. -/
theorem bears (h : s.Honors s₀ stray d uses) (hw : s.WorksOn uses page t) : (s.copies page).Bears t := fun c hc => by
  obtain ⟨b, hb, ho⟩ := (h.pages page).working t hw
  refine ⟨b, ?_, ho⟩
  rw [← hb, Copies.before, hc]

/-- A mark on a frame that its page is in. The work on the page can end with it. -/
theorem mark {f : FrameId} (h : s.Honors s₀ stray d uses) (hf : (s.pool.frame f).page = some page)
    (hm : stray page t ∨ (s.copies page).Bears t) (hw : s.Whole s₀ uses' none)
    (hother : ∀ q, q ≠ page → ∀ v, s.WorksOn uses' q v ↔ s.WorksOn uses q v)
    (hself : ∀ v, s.WorksOn uses' page v → s.WorksOn uses page v) :
    (s.modifyPool fun p => p.modifyFrame f fun x => { x with dirtyBy := some t }).Honors s₀ stray d uses' := by
  have hmaps := h.whole.balanced.pool.mapped
  have hsame : ∀ q v, (s.modifyPool fun p => p.modifyFrame f fun x => { x with dirtyBy := some t }).WorksOn uses' q v ↔
      s.WorksOn uses' q v := worksOn_congr fun u _ => Pool.modifyFrame_keeps s.pool f u.frame Frame.page fun _ => rfl
  refine h.change (hw.modifyFrame (hw.balanced.taken_of_page hf) (fun _ => rfl) (fun _ => rfl) id) rfl page
    (fun q hq => ⟨?_, rfl, fun v => (hsame q v).trans (hother q hq v)⟩) ?_
  · exact Store.copies_modifyFrame_of_ne hmaps hf _ hq
  · rw [Store.copies_modifyFrame hmaps hf]
    have hcached := Store.cached_eq hmaps hf
    exact (h.pages page).markDirty hcached (hm.imp_right fun hbears => hbears _ hcached) fun v hv =>
      hself v ((hsame page v).1 hv)

theorem markDirty (h : s.Honors s₀ stray d uses) (hm : stray page t ∨ (s.copies page).Bears t) :
    (s.modifyPool fun p => p.markDirty page t).Honors s₀ stray d uses := by
  cases hp : s.pool.find? page with
  | none =>
    have hsame : (s.modifyPool fun p => p.markDirty page t) = s := by
      unfold Store.modifyPool Pool.markDirty
      simp only [hp]
    rw [hsame]
    exact h
  | some f =>
    have hmark : (s.modifyPool fun p => p.markDirty page t) =
        s.modifyPool fun p => p.modifyFrame f fun x => { x with dirtyBy := some t } := by
      unfold Store.modifyPool Pool.markDirty
      simp only [hp]
    rw [hmark]
    exact h.mark ((h.whole.balanced.pool.mapped page f).1 hp) hm h.whole (fun _ _ _ => Iff.rfl) fun _ => id

/-- What is done to a frame that has no page. -/
theorem orphan {f : FrameId} (h : s.Honors s₀ stray d uses) (hf : (s.pool.frame f).page = none) (hfree : f ∉ s.pool.free)
    {c : Frame → Frame} (hpage : ∀ x, (c x).page = x.page) (hpins : ∀ x, (c x).pins = x.pins)
    (hfits : (s.pool.frame f).copy.Fits s.pool.config.pageSize → (c (s.pool.frame f)).copy.Fits s.pool.config.pageSize) :
    (s.modifyPool fun p => p.modifyFrame f c).Honors s₀ stray d uses :=
  h.still ⟨rfl, rfl, rfl, fun g => Pool.modifyFrame_keeps s.pool f g Frame.page hpage,
    Store.copies_modifyFrame_of_empty h.whole.balanced.pool.mapped hf c⟩ (h.whole.modifyFrame hfree hpage hpins hfits)
    fun _ _ => Iff.rfl

/-- A use that is no work ends. -/
theorem leave (h : s.Honors s₀ stray d (u :: uses)) (he : ∀ page t, s.WorksOn (u :: uses) page t ↔ s.WorksOn uses page t)
    (mode : LockMode) :
    (s.modifyPool fun p => (p.unpin u.frame).leave u.frame mode).Honors s₀ stray d uses ∧
      s.Still (s.modifyPool fun p => (p.unpin u.frame).leave u.frame mode) := by
  obtain ⟨hw, hstill⟩ := h.whole.unpin
  have hfree : u.frame ∉ (s.pool.unpin u.frame).free :=
    h.whole.balanced.pool.taken_of_pinned (List.mem_cons_self ..)
  have hlatch : (s.modifyPool fun p => p.unpin u.frame).Still
      (s.modifyPool fun p => (p.unpin u.frame).leave u.frame mode) :=
    .modifyFrame (s.modifyPool fun p => p.unpin u.frame) u.frame (c := fun x => { x with latch := x.latch.leave mode })
      (fun _ => rfl) fun _ => rfl
  have hall := hstill.trans hlatch
  exact ⟨h.still hall (hw.modifyFrame hfree (fun _ => rfl) (fun _ => rfl) id) fun page t => (he page t).symm, hall⟩

/-- A guard is given back. Whoever changed the page may mark it from then on. If the page has left its frame, nobody
sees the mark. -/
theorem release (h : s.Honors s₀ stray d (g.use :: uses)) (hm : g.changed = true → g.mode = .write) :
    (s.modifyPool g.giveBack).Honors s₀ stray d uses ∧ (g.changed = true → (s.pool.frame g.frame).page = some g.page →
      ((s.modifyPool g.giveBack).copies g.page).Bears g.txn) := by
  cases hc : g.changed with
  | false =>
    have hgive : g.giveBack = fun p => (p.unpin g.frame).leave g.frame g.mode := by
      unfold Guard.giveBack
      simp [hc]
    rw [hgive]
    exact ⟨(leave (u := g.use) h (worksOn_cons_of_unchanged hc s uses) g.mode).1, nofun⟩
  | true =>
    have hgive : g.giveBack = fun p =>
        ((p.modifyFrame g.frame fun x => { x with dirtyBy := some g.txn }).unpin g.frame).leave g.frame g.mode := by
      unfold Guard.giveBack
      simp [hc]
    let s₁ := s.modifyPool fun p => p.modifyFrame g.frame fun x => { x with dirtyBy := some g.txn }
    have hpage : (s₁.pool.frame g.frame).page = (s.pool.frame g.frame).page :=
      Pool.modifyFrame_keeps s.pool g.frame g.frame Frame.page fun _ => rfl
    rw [hgive]
    rcases h.whole.used g.use (List.mem_cons_self ..) with hf | hf
    · -- the work ends with the mark
      have hmaps := h.whole.balanced.pool.mapped
      have hunused : ∀ q v, s.WorksOn (Guard.use { g with changed := false } :: uses) q v ↔ s.WorksOn uses q v :=
        fun q v => worksOn_cons_of_unchanged rfl s uses q v
      have hbears : (s.copies g.page).Bears g.txn :=
        h.bears ⟨g.use, List.mem_cons_self .., hf, hc, by rw [← hm hc]; rfl⟩
      have h₁ : s₁.Honors s₀ stray d (Guard.use { g with changed := false } :: uses) := by
        refine h.mark hf (.inr hbears) (h.whole.replace rfl rfl rfl) (fun q hq v => ?_) fun v hv => ?_
        · rw [hunused, worksOn_cons]
          exact (or_iff_right fun hh => hq (Option.some.inj (hh.1.symm.trans hf))).symm
        · exact worksOn_cons.2 (.inr ((hunused g.page v).1 hv))
      obtain ⟨h₂, hstill⟩ := leave h₁ (worksOn_cons_of_unchanged rfl s₁ uses) g.mode
      refine ⟨h₂, fun _ _ c hc' => ?_⟩
      have hcopies := (hstill.copies g.page).trans
        (Store.copies_modifyFrame hmaps hf fun x => { x with dirtyBy := some g.txn })
      cases (congrArg Copies.cached hcopies).symm.trans hc'
      exact hbears (s.pool.frame g.frame).copy (Store.cached_eq hmaps hf)
    · have h₁ : s₁.Honors s₀ stray d (g.use :: uses) :=
        h.orphan hf (h.whole.balanced.pool.taken_of_pinned (List.mem_cons_self ..)) (fun _ => rfl) (fun _ => rfl) id
      exact ⟨(leave h₁ (worksOn_cons_of_lost (hpage.trans hf) uses) g.mode).1, fun _ hp => nomatch hf.symm.trans hp⟩

end Store.Honors

/-! ## Requests and calls -/

/-- The drafts after what has happened, if it was done through guards of a kind. What is done through a guard that has
lost its page does not count. -/
def Grip.drafts (k : Grip) (first : PageId → Draft) (more : List Effect) : PageId → Draft :=
  match k with
  | .lost => first
  | _ => TupleStore.drafts first more

/-- A store has gone on from a trace, and keeps to its drafts. Frames that have lost their pages while they were in use
stay empty. -/
structure Keeping (k : Grip) (stray : PageId → TxnId → Prop) (first : PageId → Draft) (s₀ : Store) (past : List Effect)
    (gone : List FrameId) (uses : List Use) (s : Store) : Prop where
  honors : ∃ more, s.trace = more ++ past ∧ s.Honors s₀ stray (k.drafts first more) uses
  empty : ∀ f ∈ gone, (s.pool.frame f).page = none
  /-- A frame in use is given no page. Where work goes on through a frame that has lost its page, no page comes. -/
  held : k ≠ .lost → ∀ f ∈ gone, f ∈ uses.map Use.frame

variable {k : Grip} {past : List Effect} {gone : List FrameId}

/-- What happens to no page leaves the drafts as they are. -/
theorem Grip.drafts_of_quiet (k : Grip) (first : PageId → Draft) {more more' : List Effect} (h : ∀ e ∈ more', e.Quiet) :
    k.drafts first (more' ++ more) = k.drafts first more := by
  have hdrafts : TupleStore.drafts first (more' ++ more) = TupleStore.drafts first more := by
    induction more' with
    | nil => rfl
    | cons e more' ih =>
      funext page
      show (TupleStore.drafts first (more' ++ more) page).record page e = _
      rw [h e (List.mem_cons_self ..), ih fun e' he' => h e' (List.mem_cons_of_mem _ he')]
  cases k with
  | lost => rfl
  | any => exact hdrafts
  | firm => exact hdrafts

namespace Keeping

theorem start (h : s.Honors s₀ stray first uses) (k : Grip) (hgone : ∀ f ∈ gone, (s.pool.frame f).page = none)
    (hheld : k ≠ .lost → ∀ f ∈ gone, f ∈ uses.map Use.frame) : Keeping k stray first s₀ s.trace gone uses s := by
  refine ⟨⟨[], rfl, ?_⟩, hgone, hheld⟩
  cases k <;> exact h

theorem whole (h : Keeping k stray first s₀ past gone uses s) : s.Whole s₀ uses none := h.honors.choose_spec.2.whole

/-- A change that leaves no trace, and moves no page. -/
theorem mono (h : Keeping k stray first s₀ past gone uses s) (htrace : s'.trace = s.trace)
    (hframes : ∀ f, (s'.pool.frame f).page = (s.pool.frame f).page)
    (hheld : k ≠ .lost → ∀ f ∈ gone, f ∈ uses.map Use.frame → f ∈ uses'.map Use.frame)
    (hs : ∀ d, s.Honors s₀ stray d uses → s'.Honors s₀ stray d uses') : Keeping k stray first s₀ past gone uses' s' := by
  obtain ⟨⟨more, hmore, hh⟩, hempty, hused⟩ := h
  exact ⟨⟨more, htrace.trans hmore, hs _ hh⟩, fun f hf => (hframes f).trans (hempty f hf),
    fun hk f hf => hheld hk f hf (hused hk f hf)⟩

/-- The cache at work, and more uses for the same work. -/
theorem serve (h : Keeping k stray first s₀ past gone uses s) (hs : s.Serves uses s') (hw : s'.Whole s₀ uses' none)
    (he : ∀ page t, s'.WorksOn uses' page t ↔ s'.WorksOn uses page t)
    (hframes : ∀ f ∈ gone, (s'.pool.frame f).page = (s.pool.frame f).page)
    (hheld : k ≠ .lost → ∀ f ∈ gone, f ∈ uses.map Use.frame → f ∈ uses'.map Use.frame) :
    Keeping k stray first s₀ past gone uses' s' := by
  obtain ⟨⟨more, hmore, hh⟩, hempty, hused⟩ := h
  obtain ⟨more', htrace, hquiet⟩ := hs.trace
  refine ⟨⟨more' ++ more, by rw [htrace, hmore, List.append_assoc], ?_⟩,
    fun f hf => (hframes f hf).trans (hempty f hf), fun hk f hf => hheld hk f hf (hused hk f hf)⟩
  rw [k.drafts_of_quiet first hquiet]
  exact hh.serve hs hw he

theorem allocatePage (h : Keeping k stray first s₀ past gone uses s) (hd : HandleId) :
    (Action.allocatePage hd).Ends s (fun _ s' => Keeping k stray first s₀ past gone uses s')
      fun _ s' => Keeping k stray first s₀ past gone uses s' := by
  unfold Action.allocatePage
  rw [ends_bind]
  refine (ends_file_extends h.whole.ground.grown hd).mono (fun file s' h' => ?_) fun _ s' h' => h'.1 ▸ h
  obtain ⟨rfl, hfile, -⟩ := h'
  rw [ends_bind, ends_get]
  obtain ⟨hreg, hgrown, hbytes⟩ := h.whole.ground.files.allocatePage hfile
  refine h.serve ⟨.refl _, rfl, hgrown, fun _ _ => rfl, fun page => ?_⟩ (h.whole.revolume hreg hgrown)
    (fun _ _ => Iff.rfl) (fun _ _ => rfl) fun _ _ _ => id
  have hsame : Store.copies { s' with volume := (s'.volume.allocatePage hd file).2 } page = s'.copies page :=
    congrArg (Copies.mk _ _) (hbytes page)
  exact hsame ▸ .stay

theorem lock {r : Request} (h : Keeping .firm stray first s₀ past gone uses s) :
    r.lock.Ends s
      (fun p s' => match p with
        | .finished _ => False
        | .moved r' => (∃ stage, r' = r.goto stage) ∧ (∀ u ∈ r'.uses, Grip.firm.On s' u) ∧
          Keeping .firm stray first s₀ past gone (r'.uses ++ uses) s'
        | .blocked r' => (∃ stage, r' = r.goto stage) ∧ (∀ u ∈ r'.uses, Grip.firm.On s' u) ∧
          Keeping .firm stray first s₀ past gone (r'.uses ++ uses) s')
      fun _ s' => Keeping .firm stray first s₀ past gone uses s' := by
  have hlocks := h.whole.locks
  have h₁ : Keeping .firm stray first s₀ past gone uses
      (s.modifyPool fun p => { p with locks := (s.pool.locks.acquire r.txn r.page r.mode).2 }) :=
    h.mono rfl (fun _ => rfl) (fun _ _ _ => id) fun _ hh => hh.acquire r.txn r.page r.mode
  have hgranted : (s.pool.locks.acquire r.txn r.page r.mode).1 = .granted → _ := LockTable.covered_of_granted
  unfold Request.lock
  rw [ends_bind, ends_get]
  cases ha : s.pool.locks.acquire r.txn r.page r.mode with
  | mk answer locks =>
    rw [ha] at h₁ hgranted
    dsimp only
    rw [ends_bind, ends_modifyPool]
    cases answer with
    | granted =>
      have hfetch := h₁.whole.fetch r.page (some (r.txn, r.mode)) fun t m e => by
        cases e
        exact hgranted rfl
      show (Action.fetch r.page >>= _).Ends _ _ _
      rw [ends_bind]
      -- a frame that has lost its page is in use still
      have hgone : ∀ {s'}, Store.Serves uses (s.modifyPool fun p => { p with locks }) s' → ∀ f ∈ gone,
          (s'.pool.frame f).page = (s.pool.frame f).page := fun hs f hf => by
          obtain ⟨u, hu, rfl⟩ := List.mem_map.1 (h.held nofun f hf)
          exact hs.frames u hu
      refine hfetch.mono (fun f s' h' => ⟨⟨_, rfl⟩, fun u hu => ?_, ?_⟩) fun _ s' h' =>
        h₁.serve h'.2 h'.1 (fun _ _ => Iff.rfl) (hgone h'.2) fun _ _ _ => id
      · rw [List.mem_singleton.1 hu]
        exact h'.2.2
      · exact h₁.serve h'.2.1 h'.1
          (Store.worksOn_cons_of_unchanged (u := ⟨f, r.page, some (r.txn, r.mode), false⟩) rfl s' uses)
          (hgone h'.2.1) fun _ _ _ => List.mem_cons_of_mem _
    | waits => exact ⟨⟨_, rfl⟩, fun _ hu => (List.not_mem_nil hu).elim, h₁⟩
    | refused =>
      let p : Pool := { s.pool with locks }
      exact h₁.mono rfl (fun _ => rfl) (fun _ _ _ => id) fun d hh =>
        ⟨hh.whole.congr (p := (p.doom r.txn).signal) rfl rfl rfl rfl rfl rfl rfl rfl _ _, hh.pages⟩

theorem beginChange (hk : k ≠ .any) (h : Keeping k stray first s₀ past gone (g.use :: uses) s) (hon : k.On s g.use)
    (hm : g.mode = .write) :
    g.beginChange.Ends s
      (fun g' s' => g' = { g with changed := true } ∧ k.On s' g'.use ∧
        Keeping k stray first s₀ past gone (g'.use :: uses) s' ∧
        g'.bytes s' = g.bytes s)
      fun _ _ => False := by
  unfold Guard.beginChange
  cases hc : g.changed with
  | true =>
    have hg : { g with changed := true } = g := by rw [← hc]
    simp only [Bool.not_true, Bool.false_eq_true, if_false, ends_pure, hg]
    exact ⟨trivial, hon, h, trivial⟩
  | false =>
    have hpage : ∀ f, ((s.pool.modifyFrame g.frame fun f => f.capture g.txn).frame f).page = (s.pool.frame f).page :=
      fun f => Pool.modifyFrame_keeps s.pool g.frame f Frame.page fun x => (x.capture_captured g.txn).page
    have hbytes : ((s.pool.modifyFrame g.frame fun f => f.capture g.txn).frame g.frame).bytes =
        (s.pool.frame g.frame).bytes :=
      Pool.modifyFrame_keeps s.pool g.frame g.frame Frame.bytes fun x => (x.capture_captured g.txn).bytes
    obtain ⟨⟨more, hmore, hh⟩, hempty, hheld⟩ := h
    simp only [Bool.not_false, if_true, ends_bind, ends_modifyPool, ends_note, ends_pure]
    refine ⟨trivial, hon.congr (hpage g.frame), ⟨⟨.opened g.txn g.page :: more, congrArg _ hmore, ?_⟩,
      fun f hf => (hpage f).trans (hempty f hf), hheld⟩, hbytes⟩
    cases k with
    | any => exact absurd rfl hk
    | firm => exact (hh.capture hon hm hc fun _ => rfl).renote s.log _
    | lost =>
      have h₁ := hh.orphan (c := fun f => f.capture g.txn) hon
        (hh.whole.balanced.pool.taken_of_pinned (List.mem_cons_self ..)) (fun x => (x.capture_captured g.txn).page)
        (fun x => (x.capture_captured g.txn).pins) fun hfits => hfits.capture
      have hlost : ∀ u : Use, u.frame = g.frame → ∀ q v,
          (s.modifyPool fun p => p.modifyFrame g.frame fun f => f.capture g.txn).WorksOn (u :: uses) q v ↔
            (s.modifyPool fun p => p.modifyFrame g.frame fun f => f.capture g.txn).WorksOn uses q v := fun u hu q v =>
        Store.worksOn_cons_of_lost (by rw [hu]; exact (hpage g.frame).trans hon) uses q v
      have hw : Store.Whole (s.modifyPool fun p => p.modifyFrame g.frame fun f => f.capture g.txn) s₀
          (Guard.use { g with changed := true } :: uses) none := h₁.whole.replace rfl rfl rfl
      have h₂ := h₁.still (.refl _) hw fun q v => (hlost _ rfl q v).trans (hlost g.use rfl q v).symm
      exact h₂.renote s.log _

theorem setBytes (hk : k ≠ .any) (h : Keeping k stray first s₀ past gone (g.use :: uses) s) (hon : k.On s g.use)
    (hm : g.mode = .write) (hc : g.changed = true) {bytes : Bytes} (hl : bytes.length = (g.bytes s).length) :
    (g.setBytes bytes).Ends s (fun _ s' => k.On s' g.use ∧ Keeping k stray first s₀ past gone (g.use :: uses) s')
      fun _ _ => False := by
  have hpage : ∀ f, ((s.pool.modifyFrame g.frame fun f => { f with bytes }).frame f).page = (s.pool.frame f).page :=
    fun f => Pool.modifyFrame_keeps s.pool g.frame f Frame.page fun _ => rfl
  obtain ⟨⟨more, hmore, hh⟩, hempty, hheld⟩ := h
  unfold Guard.setBytes
  rw [ends_bind, ends_modifyPool, ends_note]
  refine ⟨hon.congr (hpage g.frame), ⟨.changed g.txn g.page bytes :: more, congrArg _ hmore, ?_⟩,
    fun f hf => (hpage f).trans (hempty f hf), hheld⟩
  cases k with
  | any => exact absurd rfl hk
  | firm => exact (hh.overwrite hon hm hc hl fun _ => rfl).renote s.log _
  | lost =>
    have h₁ := hh.orphan (c := fun f => { f with bytes }) hon
      (hh.whole.balanced.pool.taken_of_pinned (List.mem_cons_self ..)) (fun _ => rfl) (fun _ => rfl)
      fun hfits => ⟨hl.trans hfits.1, hfits.2⟩
    exact h₁.renote s.log _

/-- A guard is given back. Whoever changed the page may mark it from then on, if the page was not lost. -/
theorem release (h : Keeping k stray first s₀ past gone (g.use :: uses) s) (hk : k ≠ .any) (hon : k.On s g.use)
    (hm : g.changed = true → g.mode = .write) :
    Keeping k stray first s₀ past gone uses (s.modifyPool g.giveBack) ∧
      (g.changed = true → (k = .lost → stray g.page g.txn) →
        stray g.page g.txn ∨ ((s.modifyPool g.giveBack).copies g.page).Bears g.txn) := by
  have hpage : ∀ f, ((g.giveBack s.pool).frame f).page = (s.pool.frame f).page := fun f => by
    have hleave : ∀ p : Pool, (((p.unpin g.frame).leave g.frame g.mode).frame f).page = (p.frame f).page := fun p =>
      (Pool.modifyFrame_keeps (p.unpin g.frame) g.frame f (c := fun x => { x with latch := x.latch.leave g.mode })
        Frame.page fun _ => rfl).trans
        (Pool.modifyFrame_keeps p g.frame f (c := fun x => { x with pins := x.pins - 1 }) Frame.page fun _ => rfl)
    unfold Guard.giveBack
    refine (hleave _).trans ?_
    split
    · exact Pool.modifyFrame_keeps s.pool g.frame f Frame.page fun _ => rfl
    · rfl
  refine ⟨h.mono rfl hpage (fun hne f hf hin => ?_) fun _ hh => (hh.release hm).1, fun hc hmay => ?_⟩
  · cases k with
    | any => exact absurd rfl hk
    | lost => exact absurd rfl hne
    | firm =>
      refine (List.mem_cons.1 hin).resolve_left fun e => ?_
      have hpage : (s.pool.frame g.use.frame).page = some g.page := hon
      rw [← e, h.empty f hf] at hpage
      cases hpage
  · cases k with
    | any => exact absurd rfl hk
    | lost => exact .inl (hmay rfl)
    | firm =>
      obtain ⟨more, -, hh⟩ := h.honors
      exact .inr ((hh.release hm).2 hc hon)

end Keeping

/-- What requests and calls are built of keeps to the drafts, where no page is lost while it happens. -/
theorem custody_keeping {k : Grip} (hk : k ≠ .any) (stray : PageId → TxnId → Prop) (first : PageId → Draft) (s₀ : Store)
    (past : List Effect) (gone : List FrameId) :
    Custody k s₀ (fun t page => k = .lost → stray page t) (fun t page s => stray page t ∨ (s.copies page).Bears t)
      (Keeping k stray first s₀ past gone) where
  perm h e := h.mono rfl (fun _ => rfl) (fun _ _ _ hf => (e.map _).mem_iff.1 hf) fun _ hh => hh.perm e
  grown h := h.whole.ground.grown
  allocatePage hd h := h.allocatePage hd
  lock r _ hne h := by
    cases k with
    | any => exact absurd rfl hk
    | firm => exact h.lock
    | lost => exact absurd rfl hne
  enter {_ s u} mode hu h := h.mono rfl (fun f => Pool.modifyFrame_keeps s.pool u.frame f Frame.page fun _ => rfl)
    (fun _ _ _ => id) fun _ hh =>
    hh.still (.modifyFrame s u.frame (c := fun x => { x with latch := x.latch.enter mode }) (fun _ => rfl) fun _ => rfl)
      (hh.whole.modifyFrame (hh.whole.balanced.pool.taken_of_pinned (List.mem_map_of_mem hu)) (fun _ => rfl) (fun _ => rfl) id)
      fun _ _ => Iff.rfl
  look {_ s g} _ h := by
    obtain ⟨⟨more, hmore, hh⟩, hempty, hheld⟩ := h
    refine ⟨⟨.saw g.txn g.page (g.bytes s) :: more, congrArg _ hmore, ?_⟩, hempty, hheld⟩
    rw [show Effect.saw g.txn g.page (g.bytes s) :: more = [.saw g.txn g.page (g.bytes s)] ++ more from rfl,
      k.drafts_of_quiet first fun e he => by rw [List.mem_singleton.1 he]; exact fun _ _ => rfl]
    exact hh.renote s.log _
  beginChange h hon hm := h.beginChange hk hon hm
  setBytes h hon hm hc hl := h.setBytes hk hon hm hc hl
  release h hon hm := h.release hk hon hm
  mark {_ s t page} hm h := h.mono rfl (fun f => page_markDirty s.pool page t f) (fun _ _ _ => id)
    fun _ hh => hh.markDirty hm

end TupleStore
