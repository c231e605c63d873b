import TupleStore.Proofs.Page.SlotMap
import TupleStore.Proofs.Pool.Extending
import TupleStore.Proofs.Pool.Turns

/-!
# Steps of insertions and deletions

An insertion looks for a page with room, page by page, and a deletion looks for its tuple. What they look at they leave as
it is: they change a page in their last step only, and by then nothing can go wrong any more.

* `Store.Regular` : a store on its way from another one, with what is known of it from then on;
* `Store.Visits` : a page that was asked for and has been shown;
* `Insertion.Turns` : what one step of an insertion comes to (`Regular.insertion`). A step that fails has only read;
* `Regular.deletion` : the same for deletions.
-/

namespace TupleStore

set_option autoImplicit false

open TupleStore.Action

/-! ## Pages -/

namespace HeapPage

variable {p : HeapPage}

theorem freeCount_pos_iff : 0 < p.freeCount ↔ p.firstFree? ≠ none := by
  rw [freeCount, firstFree?, List.countP_pos_iff, ne_eq, List.findIdx?_eq_none_iff]
  simp

/-- A page of zeros has its first slot free, if it has slots. -/
theorem firstFree?_zeros {page : PageId} {schema : Schema} {n : Nat} (hs : 0 < (Layout.ofSchema schema n).slots) :
    (HeapPage.mk page schema (Bytes.zeros n)).firstFree? = some 0 := by
  have hlayout : (HeapPage.mk page schema (Bytes.zeros n)).layout = Layout.ofSchema schema n := by
    rw [layout, Bytes.length_zeros]
  refine firstFree?_eq_some.2 ⟨hlayout ▸ hs, image?_eq_none.2 ?_, fun k hk => absurd hk (Nat.not_lt_zero k)⟩
  rw [isUsed_eq, Bytes.zeros, List.getElem?_replicate]
  split <;> simp

end HeapPage

/-! ## Stores on their way -/

/-- A store on its way from another one, with some frames in use. -/
structure Store.Regular (s₀ : Store) (pins : List FrameId) (s : Store) : Prop where
  origin : s₀.Tidy
  balanced : s.Balanced s₀.volume pins none
  sized : s₀.Sized s
  turns : s₀.Turns s
  spanned : s₀.Obeys Volume.Spanned s
  roomy : s₀.Obeys Volume.Roomy s
  housed : s₀.Housed s

variable {s₀ s s' s'' : Store} {pins : List FrameId} {uses : List Use} {r : Request} {g : Guard} {f : HeapFile}
  {bytes : Bytes} {page q : PageId} {frame : FrameId}

namespace Store

theorem Settled.regular (h : s.Settled pins) : s.Regular pins s :=
  ⟨h.tidy, ⟨h.accounted, .refl _⟩, h.tidy.sized, ⟨h.fit, .refl _⟩, ⟨.refl _, h.spanned⟩, ⟨.refl _, h.roomy⟩,
    ⟨h.housed, .refl _⟩⟩

theorem Regular.settled (h : s₀.Regular pins s) : s.Settled pins :=
  ⟨h.origin.of_sized h.sized, h.balanced.pool, h.turns.clock, h.housed.pages, h.spanned.files, h.roomy.files⟩

/-- A step of a call leaves a regular store. -/
theorem Regular.call {c : Call} (h : s₀.Regular ((c.uses s₀ ++ uses).map Use.frame) s) (hc : c.Proper) :
    c.step.Ends s (c.Leaves s₀ (fun uses s => s₀.Regular (uses.map Use.frame) s) uses)
      fun _ s' => s₀.Regular (uses.map Use.frame) s' := by
  have hstep : ∀ {marks : TxnId → PageId → Store → Prop} {I : List Use → Store → Prop},
      Custody .any s₀ (fun _ _ => True) marks I → I (c.uses s₀ ++ uses) s →
        c.step.Ends s (c.Leaves s₀ I uses) fun _ s' => I uses s' := fun k hi =>
    k.call (.of_any ..) (c.may_any s₀) hi hc
  have hbalanced := hstep (custody_balanced s₀) h.balanced
  have hsized := hstep (stewardship_sized s₀).toCustody h.sized
  have hturns := hstep (stewardship_turns s₀).toCustody h.turns
  have hspanned := hstep (stewardship_obeys Volume.Spanned.law s₀).toCustody h.spanned
  have hroomy := hstep (stewardship_obeys Volume.Roomy.law s₀).toCustody h.roomy
  have hhoused := hstep (stewardship_housed s₀).toCustody h.housed
  refine (hbalanced.and (hsized.and (hturns.and (hspanned.and (hroomy.and hhoused))))).mono (fun p s' h' => ?_)
    fun _ s' h' => ⟨h.origin, h'.1, h'.2.1, h'.2.2.1, h'.2.2.2.1, h'.2.2.2.2.1, h'.2.2.2.2.2⟩
  obtain ⟨h₁, h₂, h₃, h₄, h₅, h₆⟩ := h'
  cases p with
  | finished reply => exact ⟨h.origin, h₁, h₂, h₃, h₄, h₅, h₆⟩
  | moved c' => exact ⟨h₁.1, h₁.2.1, h.origin, h₁.2.2, h₂.2.2, h₃.2.2, h₄.2.2, h₅.2.2, h₆.2.2⟩
  | blocked c' => exact ⟨h₁.1, h₁.2.1, h.origin, h₁.2.2, h₂.2.2, h₃.2.2, h₄.2.2, h₅.2.2, h₆.2.2⟩

/-! ## Pages shown -/

/-- A page that was asked for has been shown to its transaction. Unless it had been pinned before, it is what the cache or
its file had. -/
structure Visits (s : Store) (pins : List FrameId) (r : Request) (bytes : Bytes) (s' : Store) : Prop where
  reads : s.Reads pins s'
  saw : ∃ past, s.trace <:+ past ∧ (.saw r.txn r.page bytes :: past) <:+ s'.trace
  fresh : r.stage.isPinned = false → bytes = (s.copies r.page).shown ∧ Covered (s'.mode? r.txn r.page) r.mode ∧
    (s.pool.find? r.page = none → s.fault? r.page.table = none)

theorem Visits.idles (h : s.Visits pins r bytes s') (hi : s'.Idles s'') : s.Visits pins r bytes s'' where
  reads := h.reads.trans (hi.reads pins)
  saw := by
    obtain ⟨past, hpast, hsaw⟩ := h.saw
    exact ⟨past, hpast, hsaw.trans hi.trace⟩
  fresh hr := by
    obtain ⟨hbytes, hcovered, hfault⟩ := h.fresh hr
    exact ⟨hbytes, hi.mode?_eq _ _ ▸ hcovered, hfault⟩

theorem shown_of_find? (h : s.pool.find? page = some frame) : (s.copies page).shown = (s.pool.frame frame).bytes := by
  unfold copies Copies.shown
  rw [h]
  rfl

theorem Gives.visits (h : s.Gives r g s') (hr : s.Reads pins s') : s.Visits pins r (g.bytes s') s' where
  reads := hr
  saw := by
    obtain ⟨past, htrace, hpast⟩ := h.saw
    exact ⟨past, hpast, htrace ▸ List.suffix_rfl⟩
  fresh hp := by
    have hseated := h.seated hp
    refine ⟨?_, hseated.covered, hseated.faultless⟩
    have hshown := Copies.shown_load (s.copies r.page)
    rw [← hseated.loaded, shown_of_find? hseated.found] at hshown
    exact hshown

/-- A guard through which nothing was changed leaves nothing behind. -/
theorem idles_release (s : Store) (hc : g.changed = false) : s.Idles (s.modifyPool g.giveBack) := by
  have hgive : s.modifyPool g.giveBack = (s.modifyPool fun p => p.unpin g.frame).modifyPool fun p =>
      p.leave g.frame g.mode := by
    unfold Store.modifyPool Guard.giveBack
    rw [hc]
    rfl
  rw [hgive]
  exact (Idles.modifyFrame s g.frame (c := fun x => { x with pins := x.pins - 1 }) fun _ => rfl).trans
    (Idles.modifyFrame _ g.frame (c := fun x => { x with latch := x.latch.leave g.mode }) fun _ => rfl)

/-- A request, and what is done with its guard. -/
theorem Regular.andThen {σ α : Type} (h : s₀.Regular ((r.uses ++ uses).map Use.frame) s) (hone : s.volume.Single)
    {waiting : RequestStage → σ} {body : Guard → Action (Progress σ α)} {good : Progress σ α → Store → Prop}
    {bad : Error → Store → Prop}
    (hbody : ∀ g s', g.Answers r → s.Visits (uses.map Use.frame) r (g.bytes s') s' →
      (r.stage.isPinned = false → s'.pool.Maps ∧ s'.pool.find? r.page = some g.frame) → (body g).Ends s' good bad)
    (hwait : ∀ stage s', stage ≠ .fresh → s.Reads (uses.map Use.frame) s' → good (.blocked (waiting stage)) s')
    (herr : ∀ e s', s.Reads (uses.map Use.frame) s' → bad e s') : (r.andThen waiting body).Ends s good bad := by
  have hothers : ∀ f ∈ uses.map Use.frame, f ∈ (r.uses ++ uses).map Use.frame := fun f hf => by
    rw [List.map_append]
    exact List.mem_append_right _ hf
  unfold Request.andThen
  rw [ends_bind]
  refine ((h.settled.request hone r).and ((custody_balanced s₀).requestRun (.of_any ..) h.balanced)).mono
    (fun a s' h' => ?_) fun e s' h' => herr e s' (h'.1.of_subset hothers)
  obtain ⟨⟨hreads, h'⟩, hbalanced⟩ := h'
  have hreads := hreads.of_subset hothers
  cases a with
  | done g =>
    refine hbody g s' h'.answers (h'.visits hreads) fun hr => ⟨?_, (h'.seated hr).found⟩
    exact hbalanced.2.2.pool.mapped
  | waiting r' =>
    obtain ⟨stage, hne, rfl⟩ := h'
    exact hwait stage s' hne hreads

/-! ## Pages changed -/

/-- One frame has been changed in its place. -/
structure Modifies (s : Store) (frame : FrameId) (s' : Store) : Prop where
  volume : s'.volume = s.volume
  catalog : s'.catalog = s.catalog
  locks : s'.pool.locks = s.pool.locks
  table : s'.pool.pageTable = s.pool.pageTable
  retained : s'.pool.retained = s.pool.retained
  others : ∀ f, f ≠ frame → (s'.pool.frame f).copy = (s.pool.frame f).copy

theorem Modifies.trans (h : s.Modifies frame s') (h' : s'.Modifies frame s'') : s.Modifies frame s'' where
  volume := h'.volume.trans h.volume
  catalog := h'.catalog.trans h.catalog
  locks := h'.locks.trans h.locks
  table := h'.table.trans h.table
  retained := h'.retained.trans h.retained
  others f hf := (h'.others f hf).trans (h.others f hf)

theorem Modifies.modifyFrame (s : Store) (frame : FrameId) (c : Frame → Frame) :
    s.Modifies frame (s.modifyPool fun p => p.modifyFrame frame c) where
  volume := rfl
  catalog := rfl
  locks := rfl
  table := rfl
  retained := rfl
  others _ hf := congrArg Frame.copy (Pool.frame_modifyFrame_of_ne hf c)

theorem Modifies.of_trace (s : Store) (frame : FrameId) (trace : List Effect) : s.Modifies frame { s with trace } :=
  ⟨rfl, rfl, rfl, rfl, rfl, fun _ _ => rfl⟩

/-- The page has been given other bytes in its frame, and nothing else has changed that shows. -/
def Puts (s : Store) (page : PageId) (bytes : Bytes) (s' : Store) : Prop :=
  ∃ frame, s.pool.Maps ∧ s.pool.find? page = some frame ∧ s.Modifies frame s' ∧ (s'.pool.frame frame).bytes = bytes

namespace Puts

theorem volume (h : s.Puts page bytes s') : s'.volume = s.volume := by
  obtain ⟨frame, -, -, ha, -⟩ := h
  exact ha.volume

theorem mode?_eq (h : s.Puts page bytes s') (t : TxnId) (q : PageId) : s'.mode? t q = s.mode? t q := by
  obtain ⟨frame, -, -, ha, -⟩ := h
  rw [mode?, ha.locks, mode?]

theorem shown (h : s.Puts page bytes s') : (s'.copies page).shown = bytes := by
  obtain ⟨frame, -, hf, ha, hbytes⟩ := h
  refine (shown_of_find? ?_).trans hbytes
  rw [Pool.find?, ha.table]
  exact hf

theorem others (h : s.Puts page bytes s') (hq : q ≠ page) : s'.copies q = s.copies q := by
  obtain ⟨frame, hm, hf, ha, -⟩ := h
  have hfind : s'.pool.find? q = s.pool.find? q := by rw [Pool.find?, ha.table, Pool.find?]
  have hfile : s'.onFile q = s.onFile q := by
    unfold onFile
    rw [ha.volume, ha.catalog]
  unfold copies
  rw [hfind, ha.retained, hfile]
  cases hg : s.pool.find? q with
  | none => rfl
  | some g =>
    have hne : g ≠ frame := fun e => by
      have hpage := ((hm q g).1 hg).symm.trans (e ▸ (hm page frame).1 hf)
      exact hq (Option.some.inj hpage)
    rw [Option.map_some, Option.map_some, ha.others g hne]

/-- The page can be marked as changed once more. -/
theorem mark (h : s.Puts page bytes s') (t : TxnId) :
    s.Puts page bytes (s'.modifyPool fun p => p.markDirty page t) := by
  obtain ⟨frame, hm, hf, ha, hbytes⟩ := h
  have hfind : s'.pool.find? page = some frame := by
    rw [Pool.find?, ha.table]
    exact hf
  have hmark : (s'.modifyPool fun p => p.markDirty page t) =
      s'.modifyPool fun p => p.modifyFrame frame fun x => { x with dirtyBy := some t } := by
    unfold Store.modifyPool Pool.markDirty
    dsimp only
    rw [hfind]
  rw [hmark]
  refine ⟨frame, hm, hf, ha.trans (.modifyFrame ..), ?_⟩
  exact (Pool.modifyFrame_keeps s'.pool frame frame (c := fun x => { x with dirtyBy := some t }) Frame.bytes
    fun _ => rfl).trans hbytes

/-- A page is opened for change, given its bytes, and given back. -/
theorem of_guard (page : PageId) (hc : g.changed = false) (bytes : Bytes) :
    (do
      let g ← g.beginChange
      g.setBytes bytes
      g.release : Action Unit).Ends s
        (fun _ s' => s.pool.Maps → s.pool.find? page = some g.frame → s.Puts page bytes s') fun _ _ => False := by
  unfold Guard.beginChange
  simp only [hc, Bool.not_false, if_true, ends_bind, ends_modifyPool, ends_note, ends_pure]
  intro hm hf
  have hpage := (hm page g.frame).1 hf
  let s₁ : Store := { s.modifyPool fun p => p.modifyFrame g.frame fun f => f.capture g.txn with
    trace := .opened g.txn g.page :: s.trace }
  have h₁ : s.Modifies g.frame s₁ := (Modifies.modifyFrame ..).trans (.of_trace ..)
  have hpage₁ : (s₁.pool.frame g.frame).page = some page :=
    (Pool.modifyFrame_keeps s.pool g.frame g.frame Frame.page fun x => (x.capture_captured g.txn).page).trans hpage
  let s₂ : Store := { s₁.modifyPool fun p => p.modifyFrame g.frame fun f => { f with bytes } with
    trace := .changed g.txn g.page bytes :: s₁.trace }
  have h₂ : s₁.Modifies g.frame s₂ := (Modifies.modifyFrame ..).trans (.of_trace ..)
  have hbytes₂ : (s₂.pool.frame g.frame).bytes = bytes := by
    show ((s₁.pool.modifyFrame g.frame fun f => { f with bytes }).frame g.frame).bytes = bytes
    rw [Pool.frame_modifyFrame_self hpage₁]
  show s.Puts page bytes (s₂.modifyPool (Guard.giveBack { g with changed := true }))
  -- the guard is given back: the page is dirty from now on
  let p₁ := s₂.pool.modifyFrame g.frame fun f => { f with dirtyBy := some g.txn }
  have h₃ : s₂.Modifies g.frame { s₂ with pool := p₁ } := .modifyFrame ..
  have h₄ : Modifies { s₂ with pool := p₁ } g.frame { s₂ with pool := p₁.unpin g.frame } := .modifyFrame ..
  have h₅ : Modifies { s₂ with pool := p₁.unpin g.frame } g.frame
      { s₂ with pool := (p₁.unpin g.frame).leave g.frame g.mode } := .modifyFrame ..
  have hkeep : ∀ (p : Pool) (c : Frame → Frame), (∀ x, (c x).bytes = x.bytes) →
      ((p.modifyFrame g.frame c).frame g.frame).bytes = (p.frame g.frame).bytes := fun p c hc =>
    Pool.modifyFrame_keeps p g.frame g.frame Frame.bytes hc
  have hdirty := hkeep s₂.pool (fun f => { f with dirtyBy := some g.txn }) fun _ => rfl
  have hunpin := hkeep p₁ (fun x => { x with pins := x.pins - 1 }) fun _ => rfl
  have hleave := hkeep (p₁.unpin g.frame) (fun x => { x with latch := x.latch.leave g.mode }) fun _ => rfl
  exact ⟨g.frame, hm, hf, h₁.trans (h₂.trans (h₃.trans (h₄.trans h₅))),
    hleave.trans (hunpin.trans (hdirty.trans hbytes₂))⟩

end Puts

end Store

/-! ## Insertions -/

/-- What one step of an insertion comes to. -/
inductive Insertion.Turns (i : Insertion) (f : HeapFile) (s : Store) (pins : List FrameId) :
    Progress Insertion (PageId × Tuple) → Store → Prop where
  | waits {s' : Store} {asking : RequestStage} (hne : asking ≠ .fresh) (h : s.Reads pins s') :
    Turns i f s pins (.blocked { i with asking }) s'
  /-- A page that is full is passed over. -/
  | passes {s' : Store} {n : Nat} {mode : LockMode} {bytes : Bytes}
    (hat : i.stage = .inspect n ∧ n < i.limit ∨ i.stage = .place n)
    (h : s.Visits pins ⟨i.txn, ⟨f.id, n⟩, mode, i.asking⟩ bytes s')
    (hfull : (HeapPage.mk ⟨f.id, n⟩ f.schema bytes).firstFree? = none) :
    Turns i f s pins (.moved (i.goto (.inspect (n + 1)))) s'
  | chooses {s' : Store} {n : Nat} {bytes : Bytes} (hat : i.stage = .inspect n) (hn : n < i.limit)
    (h : s.Visits pins ⟨i.txn, ⟨f.id, n⟩, .read, i.asking⟩ bytes s')
    (hroom : (HeapPage.mk ⟨f.id, n⟩ f.schema bytes).firstFree? ≠ none) :
    Turns i f s pins (.moved (i.goto (.place n))) s'
  | appends {n : Nat} (hat : i.stage = .inspect n) (hn : i.limit ≤ n) :
    Turns i f s pins (.moved (i.goto (.place f.pages.pageCount))) (s.appended i.handle f)
  | stores {s₁ s' : Store} {n slot : Nat} {bytes : Bytes} (hat : i.stage = .place n)
    (h : s.Visits pins ⟨i.txn, ⟨f.id, n⟩, .write, i.asking⟩ bytes s₁)
    (hfree : (HeapPage.mk ⟨f.id, n⟩ f.schema bytes).firstFree? = some slot)
    (hput : i.asking.isPinned = false →
      s₁.Puts ⟨f.id, n⟩ ((HeapPage.mk ⟨f.id, n⟩ f.schema bytes).fill slot i.tuple).bytes s') :
    Turns i f s pins (.finished (⟨f.id, n⟩, i.tuple.place (some ⟨⟨f.id, n⟩, slot⟩))) s'

namespace Store

variable {i : Insertion}

theorem Regular.inspect {n : Nat}
    (h : s₀.Regular ((Request.uses ⟨i.txn, ⟨f.id, n⟩, .read, i.asking⟩ ++ uses).map Use.frame) s)
    (hone : s.volume.Single) (hat : i.stage = .inspect n) (hn : n < i.limit) :
    (i.inspect f n).Ends s (i.Turns f s (uses.map Use.frame)) fun _ s' => s.Reads (uses.map Use.frame) s' := by
  refine h.andThen hone (fun g s' hg hv _ => ?_) (fun asking s' hne hr => .waits hne hr) fun _ _ hr => hr
  have hvisits := hv.idles (idles_release s' hg.unchanged)
  have hpage : g.page = ⟨f.id, n⟩ := hg.page
  rw [ends_bind, ends_get, ends_bind, hpage]
  show i.Turns f s (uses.map Use.frame) (.moved (i.goto _)) (s'.modifyPool g.giveBack)
  split
  · rename_i hroom
    exact .chooses hat hn hvisits (HeapPage.freeCount_pos_iff.1 hroom)
  · rename_i hfull
    exact .passes (.inl ⟨hat, hn⟩) hvisits (Decidable.not_not.1 fun hne => hfull (HeapPage.freeCount_pos_iff.2 hne))

theorem Regular.place {n : Nat}
    (h : s₀.Regular ((Request.uses ⟨i.txn, ⟨f.id, n⟩, .write, i.asking⟩ ++ uses).map Use.frame) s)
    (hone : s.volume.Single) (hat : i.stage = .place n) (hagrees : i.tuple.schema.Agrees f.schema) :
    (i.place f n).Ends s (i.Turns f s (uses.map Use.frame)) fun _ s' => s.Reads (uses.map Use.frame) s' := by
  refine h.andThen hone (fun g s' hg hv hm => ?_) (fun asking s' hne hr => .waits hne hr) fun _ _ hr => hr
  have hpage : g.page = ⟨f.id, n⟩ := hg.page
  rw [ends_bind, ends_get, hpage]
  dsimp only
  cases hfree : (HeapPage.mk ⟨f.id, n⟩ f.schema (g.bytes s')).firstFree? with
  | none =>
    dsimp only
    rw [ends_bind]
    exact .passes (.inr hat) (hv.idles (idles_release s' hg.unchanged)) hfree
  | some slot =>
    have hins : (HeapPage.mk ⟨f.id, n⟩ f.schema (g.bytes s')).insert i.tuple =
        .ok ((HeapPage.mk ⟨f.id, n⟩ f.schema (g.bytes s')).fill slot i.tuple,
          i.tuple.place (some ⟨⟨f.id, n⟩, slot⟩)) := by
      rw [HeapPage.insert, if_pos hagrees, hfree]
    have hput := Puts.of_guard (s := s') ⟨f.id, n⟩ hg.unchanged
      ((HeapPage.mk ⟨f.id, n⟩ f.schema (g.bytes s')).fill slot i.tuple).bytes
    rw [ends_bind] at hput
    dsimp only
    rw [hins, ends_bind]
    refine (hput.and (ends_beginChange hg.unchanged)).mono (fun g' s₁ h₁ => ?_) fun _ _ h' => h'.1.elim
    obtain ⟨h₁, rfl, -⟩ := h₁
    rw [ends_bind] at h₁ ⊢
    refine h₁.mono (fun _ s₂ h₂ => ?_) fun _ _ h' => h'.elim
    rw [ends_bind]
    refine h₂.mono (fun _ s₃ h₃ => ?_) fun _ _ h' => h'.elim
    rw [ends_pure, hpage]
    exact .stores hat hv hfree fun hr => h₃ (hm hr).1 (hm hr).2

/-- One step of an insertion. If it fails, it has only read. -/
theorem Regular.insertion (h : s₀.Regular ((usesAt i.txn (i.target? s₀) i.asking ++ uses).map Use.frame) s)
    (hone : s.volume.Single) (hf : s.file? i.handle = some f) (hagrees : i.tuple.schema.Agrees f.schema) :
    i.step.Ends s (i.Turns f s (uses.map Use.frame)) fun _ s' => s.Reads (uses.map Use.frame) s' := by
  obtain ⟨f₀, hf₀, hshape⟩ := h.balanced.grown.file_back hf
  have hid : f.id = f₀.id := congrArg Prod.fst hshape
  unfold Insertion.step
  rw [ends_bind, ends_of_ok (file_of_some hf)]
  rw [Insertion.target?, show s₀.file? i.handle = some f₀ from hf₀, Option.bind_some, ← hid] at h
  cases hat : i.stage with
  | inspect n =>
    rw [hat] at h
    dsimp only at h ⊢
    by_cases hn : n < i.limit
    · rw [if_pos hn] at h ⊢
      exact h.inspect hone hat hn
    · rw [if_neg hn, ends_bind, ends_of_ok (allocatePage_eq hf)]
      exact .appends hat (Nat.le_of_not_lt hn)
  | place n =>
    rw [hat] at h
    exact h.place hone hat hagrees

/-- The step of a call that inserts, which marks its page once more in the end. -/
theorem Regular.insert {marks : Bool} (h : s₀.Regular (((Call.insert i marks).uses s₀ ++ uses).map Use.frame) s)
    (hone : s.volume.Single) (hf : s.file? i.handle = some f) (hagrees : i.tuple.schema.Agrees f.schema) :
    (Call.insert i marks).step.Ends s
      (fun p s' => match p with
        | .finished reply => ∃ page tuple s₁, reply = .inserted page tuple ∧
          i.Turns f s (uses.map Use.frame) (.finished (page, tuple)) s₁ ∧
          s' = if marks then s₁.modifyPool fun p => p.markDirty page i.txn else s₁
        | .moved c' => ∃ i', c' = .insert i' marks ∧ i.Turns f s (uses.map Use.frame) (.moved i') s'
        | .blocked c' => ∃ i', c' = .insert i' marks ∧ i.Turns f s (uses.map Use.frame) (.blocked i') s')
      fun _ s' => s.Reads (uses.map Use.frame) s' := by
  unfold Call.step
  rw [ends_bind]
  refine (h.insertion hone hf hagrees).mono (fun p s' h' => ?_) fun _ _ h' => h'
  rw [ends_bind]
  cases p with
  | finished a => cases marks <;> exact ⟨a.1, a.2, s', rfl, h', rfl⟩
  | moved i' => exact ⟨i', rfl, h'⟩
  | blocked i' => exact ⟨i', rfl, h'⟩

/-- The page that has just been appended is zeros when it is shown. -/
theorem Visits.blank {pins' : List FrameId} {hd : HandleId} {t : TxnId} {mode : LockMode} (hs : s.Settled pins')
    (hone : s.volume.Single)
    (hf : s.file? hd = some f)
    (h : (s.appended hd f).Visits pins ⟨t, ⟨f.id, f.pages.pageCount⟩, mode, .fresh⟩ bytes s') :
    bytes = Bytes.zeros f.pages.pageSize := by
  obtain ⟨hbytes, -, hfault⟩ := h.fresh rfl
  obtain ⟨hmiss, hblank⟩ := hs.blank hone hf
  have hsame : (s.appended hd f).fault? = s.fault? := fault?_congr (grown_appended hf) rfl rfl
  rw [hs.copies_appended hone hf] at hbytes
  exact hbytes.trans (hblank (hsame ▸ hfault hmiss))

end Store

/-! ## Deletions -/

/-- One step of a deletion, which goes on with none but the last. If it fails, it has only read. -/
theorem Store.Regular.deletion {d : Deletion}
    (h : s₀.Regular ((usesAt d.txn (d.target? s₀) d.asking ++ uses).map Use.frame) s) (hone : s.volume.Single) :
    d.step.Ends s
      (fun p s' => match p with
        | .finished _ => True
        | .moved _ => False
        | .blocked d' => (∃ asking, d' = { d with asking }) ∧ s.Reads (uses.map Use.frame) s')
      fun _ s' => s.Reads (uses.map Use.frame) s' := by
  have hself : s.Reads (uses.map Use.frame) s := (Idles.refl s).reads _
  unfold Deletion.step
  rw [ends_bind]
  refine (ends_file_extends h.balanced.grown d.handle).mono (fun file s' h' => ?_) fun _ s' h' => h'.1 ▸ hself
  obtain ⟨rfl, -, file₀, hfile₀, -⟩ := h'
  rw [Deletion.target?, hfile₀, Option.map_some] at h
  refine Regular.andThen (r := ⟨d.txn, d.recordId.page, .write, d.asking⟩) h hone (fun g s₁ hg hv _ => ?_)
    (fun asking s₁ _ hr => ⟨⟨asking, rfl⟩, hr⟩) fun _ _ hr => hr
  have hpage : g.page = d.recordId.page := hg.page
  unfold Deletion.vacate
  rw [ends_bind, ends_get, hpage]
  dsimp only
  split
  · rename_i hused
    obtain ⟨heap, hdel⟩ : ∃ heap, (HeapPage.mk d.recordId.page file.schema (g.bytes s₁)).delete (some d.recordId) =
        .ok heap := by
      have hslot := ((HeapPage.isUsed_iff _ _).1 hused).1
      unfold HeapPage.delete
      dsimp only
      rw [if_neg (not_or.2 ⟨fun hne => hne rfl, Nat.not_le.2 hslot⟩), if_pos hused]
      exact ⟨_, rfl⟩
    rw [hdel, ends_bind]
    refine (ends_beginChange hg.unchanged).mono (fun g' s₂ _ => ?_) fun _ _ h' => h'.elim
    exact trivial
  · exact (hv.idles (idles_release s₁ hg.unchanged)).reads

end TupleStore
