import TupleStore.Proofs.Catalogs
import TupleStore.Proofs.Pool.Concluding

/-!
# Transactions on their way to their end

While a transaction ends, its pages are logged, written or restored, one after the other. Lengths, tables and the places
of pages stay as they are meanwhile (`Store.Underway`), so what stands in the way of a page is known from the beginning:
a loop over pages comes to its end, or to the first page that is in the way (`Underway.forPages`). That page is left as
it was, unless it is restored in the cache before it is to be written to its file (`Underway.restorePage`). Frames are
pinned meanwhile, which shows in nothing (`Store.Repinned`).

* `Underway.logChange`, `Underway.writeBack`, `Underway.restorePage`, `Underway.restoreRetained` : single pages;
* `Underway.logChanges`, `Underway.writeBackAll`, `Underway.restorePages` : all pages that are pinned;
* `Underway.restoreAllRetained` : all pages that have left the cache with a before-image.
-/

namespace TupleStore

set_option autoImplicit false

open TupleStore.Action

variable {s₀ s s' : Store} {f : FrameId} {page : PageId} {t : TxnId}

/-! ## Before-images that are put back -/

namespace Copies

variable {c : Frame} {b : BeforeImage} {x : Copies}

/-- The before-image of a transaction in the frame of the page. -/
def imageOf? (t : TxnId) (x : Copies) : Option BeforeImage :=
  (x.cached.bind Copy.before).filter fun b => b.owner = t

/-- The before-image put back in the frame only. -/
def revert (t : TxnId) (x : Copies) : Copies :=
  match x.imageOf? t with
  | none => x
  | some b => { x with cached := some ⟨b.bytes, none, none⟩ }

theorem imageOf?_eq (hx : x.cached = some c.copy) (t : TxnId) : x.imageOf? t = c.beforeOf? t := by
  unfold imageOf?
  rw [hx]
  rfl

theorem restore_eq (t : TxnId) (x : Copies) : x.restore t =
    match x.imageOf? t with
    | none => x
    | some b => ⟨some ⟨b.bytes, none, none⟩, x.kept, if b.onDisk then b.bytes else x.file⟩ := by
  obtain ⟨_ | c, kept, file⟩ := x <;> rfl

/-- A page that has been restored has no before-image any more. -/
theorem imageOf?_restore (t : TxnId) (x : Copies) : (x.restore t).imageOf? t = none := by
  rw [restore_eq]
  split
  · assumption
  · rfl

theorem kept_restore (t : TxnId) (x : Copies) : (x.restore t).kept = x.kept := by
  rw [restore_eq]
  split <;> rfl

theorem restoreKept_of_some (hk : x.kept = some b) (howner : b.owner = t) :
    x.restoreKept t = { x with kept := none, file := b.bytes } := by
  unfold restoreKept
  rw [hk, Option.filter_some, if_pos (decide_eq_true howner)]

theorem restoreKept_of_ne (hk : ∀ b, x.kept = some b → b.owner ≠ t) : x.restoreKept t = x := by
  unfold restoreKept
  rw [(Drafted.filter_ne hk).2]

theorem cached_restoreKept (t : TxnId) (x : Copies) : (x.restoreKept t).cached = x.cached := by
  unfold restoreKept
  split <;> rfl

end Copies

/-- What stands against undoing what a transaction has made of a page in the cache, which may have come to its file. -/
def Store.hindrance? (s : Store) (t : TxnId) (page : PageId) : Option Error :=
  match (s.copies page).imageOf? t with
  | none => none
  | some b => if b.onDisk then s.fault? page.table else none

/-! ## Stores on their way -/

/-- Lengths, tables, and the places of pages are as in a first store, whose trace has grown. Nothing has been written to
tables that the cache cannot use. -/
structure Store.Underway (s₀ s : Store) : Prop where
  sized : s₀.Sized s
  spares : s₀.Spares s
  table : s.pool.pageTable = s₀.pool.pageTable
  frames : ∀ f, (s.pool.frame f).page = (s₀.pool.frame f).page
  trace : Grown (fun _ => True) s₀.trace s.trace

namespace Store.Underway

theorem refl (h : s.Tidy) : s.Underway s := ⟨h.sized, fun _ _ _ _ => rfl, rfl, fun _ => rfl, .refl _⟩

theorem faults (h : s₀.Underway s) : s.fault? = s₀.fault? :=
  Store.fault?_congr h.sized.grown h.sized.catalog h.sized.pool.config

/-- A file that is spared stays so. -/
theorem sparesMore (h : s₀.Underway s) (hs : s.Spares s') : s₀.Spares s' := fun hd f hf hstop => by
  obtain ⟨f', hf', hshape, -⟩ := h.sized.grown.file hf
  simp only [Volume.shape, Prod.mk.injEq] at hshape
  obtain ⟨hid, hname, -⟩ := hshape
  calc s'.volume.folder.content f.name = s.volume.folder.content f.name :=
        hname ▸ hs hd f' hf' (by rw [h.faults, hid]; exact hstop)
    _ = s₀.volume.folder.content f.name := h.spares hd f hf hstop

theorem trans (h : s₀.Underway s) (h' : s.Underway s') : s₀.Underway s' where
  sized := ⟨h.sized.pool.config ▸ h'.sized.pool, h.sized.grown.trans h'.sized.grown,
    h'.sized.catalog.trans h.sized.catalog⟩
  spares := h.sparesMore h'.spares
  table := h'.table.trans h.table
  frames f := (h'.frames f).trans (h.frames f)
  trace := h.trace.trans h'.trace

theorem tidy (h : s₀.Underway s) (h₀ : s₀.Tidy) : s.Tidy := h₀.of_sized h.sized

theorem maps (h : s₀.Underway s) (hm : s₀.pool.Maps) : s.pool.Maps := fun page f => by
  rw [h.frames, Pool.find?, h.table]
  exact hm page f

/-- What stands in the way of a page depends on its marks alone. -/
theorem obstacle?_eq (h : s₀.Underway s) {page : PageId}
    (hc : (s.copies page).cached.bind Copy.dirtyBy = (s₀.copies page).cached.bind Copy.dirtyBy) :
    s.obstacle? page = s₀.obstacle? page := by
  rw [Store.obstacle?_eq, Store.obstacle?_eq, hc, h.faults]

theorem note (h : s₀.Underway s) (log : Log) (e : Effect) : s₀.Underway { s with log, trace := e :: s.trace } :=
  ⟨⟨h.sized.pool, h.sized.grown, h.sized.catalog⟩, h.spares, h.table, h.frames, h.trace.cons e trivial⟩

/-- Before-images of pages that have left the cache are given up. -/
theorem forget (h : s₀.Underway s) (t : TxnId) : s₀.Underway (s.modifyPool fun p => p.forget t) :=
  ⟨h.sized.withPool (h.sized.pool.forget t), h.spares, h.table, h.frames, h.trace⟩

/-- Counters count nothing that matters. -/
theorem count (h : s₀.Underway s) (g : Counters → Counters) : s₀.Underway (s.modifyPool fun p => p.count g) :=
  ⟨⟨h.sized.pool.congr rfl rfl rfl, h.sized.grown, h.sized.catalog⟩, h.spares, h.table, h.frames, h.trace⟩

/-- A frame changed in its place. -/
theorem modifyFrame (h : s₀.Underway s) {c : Frame → Frame} (hpage : ∀ x, (c x).page = x.page)
    (hfits : ∀ x, x.copy.Fits s₀.pool.config.pageSize → (c x).copy.Fits s₀.pool.config.pageSize) :
    s₀.Underway (s.modifyPool fun p => p.modifyFrame f c) where
  sized := h.sized.withPool (h.sized.pool.modifyFrame fun x _ => hfits x)
  spares := h.spares
  table := h.table
  frames g := (Pool.modifyFrame_keeps s.pool f g Frame.page hpage).trans (h.frames g)
  trace := h.trace

/-! ### Single pages -/

/-- The change of a page is logged, and its before-image given up. -/
theorem logChange (h : s₀.Underway s) (hm : s₀.pool.Maps) (hf : (s.pool.frame f).page = some page) :
    (Action.logChange t page f).Ends s
      (fun _ s' => s₀.Underway s' ∧ ∀ q, s'.copies q = if q = page then (s.copies q).take t else s.copies q)
      fun _ _ => False := by
  have hm' := h.maps hm
  have hcached := Store.cached_eq hm' hf
  unfold Action.logChange
  rw [ends_bind, ends_get]
  simp only [hf, if_true]
  cases hb : (s.pool.frame f).beforeOf? t with
  | none =>
    refine ⟨h, fun q => ?_⟩
    split
    · rename_i e
      rw [e, Copies.take_of_none hcached hb]
    · rfl
  | some b =>
    show (Action.modifyPool _ >>= _).Ends s _ _
    rw [ends_bind, ends_modifyPool, ends_append]
    have h₁ := h.modifyFrame (f := f) (c := fun x => { x with before := none }) (fun _ => rfl)
      fun _ hx => ⟨hx.1, fun _ hb => nomatch hb⟩
    refine ⟨h₁.note _ _, fun q => ?_⟩
    by_cases e : q = page
    · rw [if_pos e, e, Copies.take_of_some hcached hb]
      exact Store.copies_modifyFrame hm' hf _
    · rw [if_neg e]
      exact Store.copies_modifyFrame_of_ne hm' hf _ e

/-- A page is written if it is dirty, or it cannot be written, and nothing is done. -/
theorem writeBack (h : s₀.Underway s) (h₀ : s₀.Tidy) (hm : s₀.pool.Maps) (hf : (s.pool.frame f).page = some page) :
    (Action.writeBack f page).Ends s
      (fun _ s' => s₀.Underway s' ∧ s.obstacle? page = none ∧
        ∀ q, s'.copies q = if q = page then (s.copies q).flush else s.copies q)
      fun e s' => s' = s ∧ s.obstacle? page = some e := by
  have hm' := h.maps hm
  have hcached := Store.cached_eq hm' hf
  have hobstacle := Store.obstacle?_of_cached hm' hf
  refine ((h.tidy h₀).writeBack hf).mono (fun _ s' h' => ?_) fun e s' h' => ?_
  · rcases h' with ⟨hclean, rfl⟩ | ⟨hdirty, hfault, ⟨v, l, k, hgrown, rfl⟩, hspares, hpages⟩
    · refine ⟨h, by rw [hobstacle, hclean]; rfl, fun q => ?_⟩
      split
      · rename_i e
        rw [e, Copies.flush, hcached]
        exact (if_pos hclean).symm
      · rfl
    · have hwritten := h.sized.pool.written (f := f)
      refine ⟨⟨⟨hwritten.congr rfl rfl rfl, h.sized.grown.trans hgrown, h.sized.catalog⟩, h.sparesMore hspares, h.table,
        fun g => ?_, ?_⟩, by rw [hobstacle, hfault, ite_self], fun q => ?_⟩
      · exact (Pool.modifyFrame_keeps s.pool f g (c := Frame.written) Frame.page fun _ => rfl).trans (h.frames g)
      · obtain ⟨more, hmore, -⟩ := h.trace
        exact ⟨_ :: ((s.pool.frame f).logs page ++ more), by rw [hmore, List.cons_append, List.append_assoc],
          fun _ _ => trivial⟩
      · refine (congrArg (fun bytes => { (s.modifyPool fun p => p.modifyFrame f Frame.written).copies q with
          file := bytes }) (hpages q)).trans ?_
        by_cases e : q = page
        · rw [if_pos e, if_pos e, e, Copies.flush, hcached, Store.copies_modifyFrame hm' hf]
          exact (if_neg hdirty).symm
        · rw [if_neg e, if_neg e, Store.copies_modifyFrame_of_ne hm' hf _ e]
          rfl
  · obtain ⟨rfl, hdirty, hfault⟩ := h'
    exact ⟨rfl, by rw [hobstacle, hfault, if_pos (Option.isSome_iff_ne_none.2 hdirty)]⟩

/-- A page is put back in its file, if nothing is wrong with the table. -/
theorem putBack (h : s₀.Underway s) (h₀ : s₀.Tidy) {bytes : Bytes} (hl : bytes.length = s₀.pool.config.pageSize)
    {k : Unit → Action Unit} {good : Unit → Store → Prop} {bad : Error → Store → Prop}
    (hk : ∀ s', s₀.Underway s' → s₀.fault? page.table = none →
      (∀ q, s'.copies q = if q = page then { s.copies q with file := bytes } else s.copies q) → (k ()).Ends s' good bad)
    (hstop : ∀ e, s₀.fault? page.table = some e → bad e s) :
    (resolve page.table >>= fun hd => writePage hd page bytes >>= k).Ends s good bad := by
  have ht := h.tidy h₀
  rw [ends_bind]
  refine (ht.resolve page.table).mono (fun hd s₁ h₁ => ?_) fun e s₁ h₁ => ?_
  · obtain ⟨rfl, hfault, file, htable, hsize⟩ := h₁
    have hlength : bytes.length = file.pages.pageSize := by rw [hl, hsize, h.sized.pool.config]
    obtain ⟨v, hw, hgrown, hspares, hpages⟩ := ht.writePage_eq htable hfault hlength
    rw [ends_bind, ends_of_ok hw]
    refine hk _ ⟨⟨h.sized.pool, h.sized.grown.trans hgrown, h.sized.catalog⟩, h.sparesMore hspares, h.table, h.frames,
      h.trace.cons (.wrote page bytes) trivial⟩ (h.faults ▸ hfault) fun q => ?_
    refine (congrArg (fun bytes => { s₁.copies q with file := bytes }) (hpages q)).trans ?_
    split <;> rfl
  · obtain ⟨rfl, hfault⟩ := h₁
    exact hstop e (h.faults ▸ hfault)

/-- A before-image that was kept aside is put back in the file. -/
theorem restoreRetained (h : s₀.Underway s) (h₀ : s₀.Tidy) {b : BeforeImage}
    (hl : b.bytes.length = s₀.pool.config.pageSize) :
    (Action.restoreRetained page b).Ends s
      (fun _ s' => s₀.Underway s' ∧ s₀.fault? page.table = none ∧
        ∀ q, s'.copies q = if q = page then { s.copies q with file := b.bytes } else s.copies q)
      fun e s' => s' = s ∧ s₀.fault? page.table = some e := by
  unfold Action.restoreRetained
  exact h.putBack h₀ hl (fun s' h' hfault hcopies => ⟨h'.count _, hfault, hcopies⟩) fun e hfault => ⟨rfl, hfault⟩

/-- A page gets its before-image back, if there is one of the transaction. It has it in its frame when the file cannot be
written. -/
theorem restorePage (h : s₀.Underway s) (h₀ : s₀.Tidy) (hm : s₀.pool.Maps) (hf : (s.pool.frame f).page = some page) :
    (Action.restorePage t page f).Ends s
      (fun _ s' => s₀.Underway s' ∧ s.hindrance? t page = none ∧
        ∀ q, s'.copies q = if q = page then (s.copies q).restore t else s.copies q)
      fun e s' => s₀.Underway s' ∧ s.hindrance? t page = some e ∧
        ∀ q, s'.copies q = if q = page then (s.copies q).revert t else s.copies q := by
  have hm' := h.maps hm
  have himage := Copies.imageOf?_eq (Store.cached_eq hm' hf) t
  unfold Action.restorePage Store.hindrance?
  rw [ends_bind, ends_get]
  simp only [hf, if_true, himage]
  cases hb : (s.pool.frame f).beforeOf? t with
  | none =>
    refine ⟨h, rfl, fun q => ?_⟩
    split
    · rename_i e
      rw [e, Copies.restore_eq, himage, hb]
    · rfl
  | some b =>
    have hlength : b.bytes.length = s₀.pool.config.pageSize := h.sized.pool.before (beforeOf?_eq_some hb).1
    let s₁ := s.modifyPool fun p => p.modifyFrame f fun x => x.restore b
    have h₁ : s₀.Underway s₁ := h.modifyFrame (fun _ => rfl) fun _ _ => ⟨hlength, fun _ hb => by cases hb⟩
    have hcopies : ∀ q, s₁.copies q = if q = page then (s.copies q).revert t else s.copies q := fun q => by
      by_cases e : q = page
      · rw [if_pos e, e, Copies.revert, himage, hb]
        exact Store.copies_modifyFrame hm' hf _
      · rw [if_neg e]
        exact Store.copies_modifyFrame_of_ne hm' hf _ e
    have hrestored : ∀ q, (if q = page then { s₁.copies q with file := if b.onDisk then b.bytes else (s₁.copies q).file }
        else s₁.copies q) = if q = page then (s.copies q).restore t else s.copies q := fun q => by
      rw [hcopies]
      by_cases e : q = page
      · rw [if_pos e, if_pos e, if_pos e, e, Copies.revert, Copies.restore_eq, himage, hb]
      · rw [if_neg e, if_neg e, if_neg e]
    show (Action.modifyPool _ >>= _).Ends s _ _
    rw [ends_bind, ends_modifyPool]
    cases hd : b.onDisk with
    | true =>
      rw [hd] at hrestored
      simp only [if_true] at hrestored ⊢
      refine h₁.putBack h₀ hlength (fun s₂ h₂ hfault hcopies₂ => ?_) fun e hfault => ?_
      · exact ⟨(h₂.count _).count _, (if_pos hd).trans ((congrFun h.faults _).trans hfault),
          fun q => (hcopies₂ q).trans (hrestored q)⟩
      · exact ⟨h₁, (if_pos hd).trans ((congrFun h.faults _).trans hfault), hcopies⟩
    | false =>
      rw [hd] at hrestored
      refine ⟨h₁.count _, if_neg (by rw [hd]; exact Bool.false_ne_true), fun q => ?_⟩
      refine Eq.trans ?_ (hrestored q)
      show s₁.copies q = _
      split <;> rfl

end Store.Underway

/-! ### Pages that are pinned -/

/-- Frames have been pinned, or are not any more, which shows in nothing. -/
structure Store.Repinned (s s' : Store) : Prop where
  underway : ∀ {s₀ : Store}, s₀.Underway s → s₀.Underway s'
  copies : ∀ q, s'.copies q = s.copies q
  trace : s'.trace = s.trace

theorem Store.Repinned.modifyFrames {c : Frame → Frame} (hpage : ∀ x, (c x).page = x.page)
    (hcopy : ∀ x, (c x).copy = x.copy) (pinned : List (PageId × FrameId)) :
    s.Repinned (s.modifyPool fun p => pinned.foldl (fun p x => p.modifyFrame x.2 c) p) := by
  induction pinned generalizing s with
  | nil => exact ⟨fun h => h, fun _ => rfl, rfl⟩
  | cons x pinned ih =>
    have h := ih (s := s.modifyPool fun p => p.modifyFrame x.2 c)
    exact ⟨fun h₀ => h.underway (h₀.modifyFrame hpage fun y hy => hcopy y ▸ hy),
      fun q => (h.copies q).trans ((Store.Still.modifyFrame s x.2 hpage hcopy).copies q), h.trace⟩

/-- Cached pages are in the frames that are pinned for them. -/
theorem Pool.Maps.pinned {p : Pool} (h : p.Maps) (pages : List PageId) :
    ∀ x ∈ cachedOf p pages, (p.frame x.2).page = some x.1 := fun x hx => (h x.1 x.2).1 (mem_cachedOf.1 hx).2

/-- What is done to pages that are pinned. They are pinned no longer when it has ended, whatever it came to. -/
theorem Store.ends_withPinned {pages : List PageId} {body : List (PageId × FrameId) → Action Unit}
    {good : Unit → Store → Prop} {bad : Error → Store → Prop}
    (hbody : ∀ s₁, s.Repinned s₁ → (body (cachedOf s.pool pages)).Ends s₁
      (fun a s₂ => ∀ s₃, s₂.Repinned s₃ → good a s₃) fun e s₂ => ∀ s₃, s₂.Repinned s₃ → bad e s₃) :
    (withPinned pages body).Ends s good bad := by
  unfold Action.withPinned
  rw [ends_bind, ends_get, ends_bind, ends_modifyPool, ends_andAlways]
  have hpin : s.Repinned (s.modifyPool fun p => (cachedOf s.pool pages).foldl (fun p x => p.pin x.2) p) :=
    .modifyFrames (c := fun x => { x with pins := x.pins + 1 }) (fun _ => rfl) (fun _ => rfl) _
  have hunpin : ∀ s' : Store,
      s'.Repinned (s'.modifyPool fun p => (cachedOf s.pool pages).foldl (fun p x => p.unpin x.2) p) := fun _ =>
    .modifyFrames (c := fun x => { x with pins := x.pins - 1 }) (fun _ => rfl) (fun _ => rfl) _
  exact (hbody _ hpin).mono (fun _ s₂ h => h _ (hunpin s₂)) fun _ s₂ h => h _ (hunpin s₂)

namespace Store.Underway

/-! ### Loops -/

/-- What is done to one page after the other is done to each of them, or to those before one that is in the way. This one
may have been changed as well, in another way. -/
theorem forPages (h : s.Tidy) {α : Type} {body : α → Action PUnit} {p : α → PageId} {φ ψ : PageId → Copies → Copies}
    (hφ : ∀ q x, φ q (φ q x) = φ q x) (stop : PageId → Option Error) {l : List α}
    (hbody : ∀ a ∈ l, ∀ s', s.Underway s' →
      (s'.copies (p a) = s.copies (p a) ∨ stop (p a) = none ∧ s'.copies (p a) = φ (p a) (s.copies (p a))) →
      (body a).Ends s'
        (fun _ s'' => s.Underway s'' ∧ stop (p a) = none ∧
          ∀ q, s''.copies q = if q = p a then φ q (s'.copies q) else s'.copies q)
        fun e s'' => s.Underway s'' ∧ stop (p a) = some e ∧
          ∀ q, s''.copies q = if q = p a then ψ q (s'.copies q) else s'.copies q) :
    (l.forM body).Ends s
      (fun _ s' => s.Underway s' ∧ (∀ a ∈ l, stop (p a) = none) ∧
        ∀ q, s'.copies q = if q ∈ l.map p then φ q (s.copies q) else s.copies q)
      fun e s' => s.Underway s' ∧ ∃ a ∈ l, stop (p a) = some e ∧ s'.copies (p a) = ψ (p a) (s.copies (p a)) ∧
        ∀ q, q ≠ p a → s'.copies q = s.copies q ∨ q ∈ l.map p ∧ stop q = none ∧ s'.copies q = φ q (s.copies q) := by
  -- a page that is still to come has been seen to already, or not
  let I (rest : List α) (s' : Store) : Prop := s.Underway s' ∧ (∀ a ∈ rest, a ∈ l) ∧
    ∀ q, (q ∈ l.map p → q ∈ rest.map p ∨ stop q = none ∧ s'.copies q = φ q (s.copies q)) ∧
      (s'.copies q = s.copies q ∨ q ∈ l.map p ∧ stop q = none ∧ s'.copies q = φ q (s.copies q))
  refine (ends_forM I _ (fun a rest s' h' => ?_) l s ⟨.refl h, fun _ ha => ha, fun q => ⟨.inl, .inl rfl⟩⟩).mono
    (fun _ s' h' => ?_) fun _ _ h' => h'
  · obtain ⟨h', hin, hpages⟩ := h'
    have ha := hin a (List.mem_cons_self ..)
    have hmem : p a ∈ l.map p := List.mem_map_of_mem ha
    refine (hbody a ha s' h' ((hpages (p a)).2.imp_right And.right)).mono (fun _ s'' h'' => ?_) fun e s'' h'' => ?_
    · obtain ⟨h'', hstop, hcopies⟩ := h''
      refine ⟨h'', fun b hb => hin b (List.mem_cons_of_mem _ hb), fun q => ?_⟩
      obtain ⟨htodo, hdone⟩ := hpages q
      rw [hcopies]
      split
      · rename_i e
        subst e
        have hself : φ (p a) (s'.copies (p a)) = φ (p a) (s.copies (p a)) := by
          rcases hdone with hdone | ⟨-, -, hdone⟩
          · rw [hdone]
          · rw [hdone, hφ]
        exact ⟨fun _ => .inr ⟨hstop, hself⟩, .inr ⟨hmem, hstop, hself⟩⟩
      · rename_i e
        exact ⟨fun hq => (htodo hq).imp_left fun hq => (List.mem_cons.1 hq).resolve_left e, hdone⟩
    · obtain ⟨h'', hstop, hcopies⟩ := h''
      -- the page that is in the way has not been seen to before
      have hself : s'.copies (p a) = s.copies (p a) :=
        (hpages (p a)).2.resolve_right fun hh => nomatch hh.2.1.symm.trans hstop
      refine ⟨h'', a, ha, hstop, ?_, fun q hq => ?_⟩
      · rw [hcopies, if_pos rfl, hself]
      · rw [hcopies, if_neg hq]
        exact (hpages q).2
  · obtain ⟨h', -, hpages⟩ := h'
    have hall : ∀ q, q ∈ l.map p → stop q = none ∧ s'.copies q = φ q (s.copies q) := fun q hq =>
      ((hpages q).1 hq).resolve_left List.not_mem_nil
    refine ⟨h', fun a ha => (hall (p a) (List.mem_map_of_mem ha)).1, fun q => ?_⟩
    split
    · rename_i hq
      exact (hall q hq).2
    · rename_i hq
      exact (hpages q).2.resolve_right fun hh => hq hh.1

/-- All changes are logged. -/
theorem logChanges (h : s.Tidy) (hm : s.pool.Maps) {pinned : List (PageId × FrameId)}
    (hpinned : ∀ x ∈ pinned, (s.pool.frame x.2).page = some x.1) :
    (pinned.forM fun (page, f) => Action.logChange t page f).Ends s
      (fun _ s' => s.Underway s' ∧
        ∀ q, s'.copies q = if q ∈ pinned.map Prod.fst then (s.copies q).take t else s.copies q)
      fun _ _ => False := by
  -- nothing can be in the way
  refine (forPages h (p := Prod.fst) (φ := fun _ => Copies.take t) (ψ := fun _ x => x) (fun _ => Copies.take_take t)
    (fun _ => none) fun x hx _ h' _ => ?_).mono (fun _ _ hs => ⟨hs.1, hs.2.2⟩) fun _ _ hs => ?_
  · exact (h'.logChange hm ((h'.frames x.2).trans (hpinned x hx))).mono (fun _ _ hs => ⟨hs.1, rfl, hs.2⟩)
      fun _ _ hs => hs.elim
  · obtain ⟨-, -, -, hstop, -⟩ := hs
    cases hstop

/-- All pages are written, or those before one that cannot be. -/
theorem writeBackAll (h : s.Tidy) (hm : s.pool.Maps) {pinned : List (PageId × FrameId)}
    (hpinned : ∀ x ∈ pinned, (s.pool.frame x.2).page = some x.1) :
    (Action.writeBackAll pinned).Ends s
      (fun _ s' => s.Underway s' ∧ ∀ x ∈ pinned, s.obstacle? x.1 = none)
      fun e s' => s.Underway s' ∧ (∃ x ∈ pinned, s.obstacle? x.1 = some e) ∧
        ∀ q, s'.copies q = s.copies q ∨ q ∈ pinned.map Prod.fst ∧ s'.copies q = (s.copies q).flush := by
  refine (forPages h (p := Prod.fst) (φ := fun _ => Copies.flush) (ψ := fun _ x => x) (fun _ => Copies.flush_flush)
    s.obstacle? fun x hx s' h' hpage => ?_).mono (fun _ _ hs => ⟨hs.1, hs.2.1⟩) fun e s' hs => ?_
  · -- a page that has been written is clean
    have hclean : (s.copies x.1).flush.cached.bind Copy.dirtyBy = none :=
      Option.bind_eq_none_iff.2 (Copies.Drafted.clean_flush _)
    have hsame : s'.obstacle? x.1 = s.obstacle? x.1 := by
      rcases hpage with hpage | ⟨hstop, hpage⟩
      · exact h'.obstacle?_eq (by rw [hpage])
      · rw [Store.obstacle?_eq, hpage, hclean, hstop]
        rfl
    refine hsame ▸ (h'.writeBack h hm ((h'.frames x.2).trans (hpinned x hx))).mono (fun _ _ hs => hs) fun _ _ hs => ?_
    exact ⟨hs.1 ▸ h', hs.2, fun q => by rw [hs.1, ite_self]⟩
  · obtain ⟨hs, x, hx, hstop, hself, hothers⟩ := hs
    refine ⟨hs, ⟨x, hx, hstop⟩, fun q => ?_⟩
    by_cases hq : q = x.1
    · exact .inl (hq ▸ hself)
    · exact (hothers q hq).imp_right fun hh => ⟨hh.1, hh.2.2⟩

/-- All pages are restored, or those before one whose file cannot be written. This one is restored in the cache only. -/
theorem restorePages (h : s.Tidy) (hm : s.pool.Maps) {pinned : List (PageId × FrameId)}
    (hpinned : ∀ x ∈ pinned, (s.pool.frame x.2).page = some x.1) :
    (pinned.forM fun (page, f) => Action.restorePage t page f).Ends s
      (fun _ s' => s.Underway s' ∧ (∀ x ∈ pinned, s.hindrance? t x.1 = none) ∧
        ∀ q, s'.copies q = if q ∈ pinned.map Prod.fst then (s.copies q).restore t else s.copies q)
      fun e s' => s.Underway s' ∧ ∃ x ∈ pinned, s.hindrance? t x.1 = some e ∧
        s'.copies x.1 = (s.copies x.1).revert t ∧
        ∀ q, q ≠ x.1 → s'.copies q = s.copies q ∨
          q ∈ pinned.map Prod.fst ∧ s.hindrance? t q = none ∧ s'.copies q = (s.copies q).restore t := by
  refine forPages h (p := Prod.fst) (φ := fun _ => Copies.restore t) (ψ := fun _ => Copies.revert t)
    (fun _ => Copies.restore_restore t) (s.hindrance? t) fun x hx s' h' hpage => ?_
  have hsame : s'.hindrance? t x.1 = s.hindrance? t x.1 := by
    rcases hpage with hpage | ⟨hstop, hpage⟩
    · unfold Store.hindrance?
      rw [hpage, h'.faults]
    · rw [hstop, Store.hindrance?, hpage, Copies.imageOf?_restore]
  exact hsame ▸ h'.restorePage h hm ((h'.frames x.2).trans (hpinned x hx))

/-- The before-images of a transaction that were kept aside are all given up, and then they are put back, or those before
one whose file cannot be written. -/
theorem restoreAllRetained (h : s.Tidy) (t : TxnId) :
    ((s.pool.retainedOf t).forM fun (page, b) => Action.restoreRetained page b).Ends (s.modifyPool fun p => p.forget t)
      (fun _ s' => s.Underway s' ∧ (∀ x ∈ s.pool.retainedOf t, s.fault? x.1.table = none) ∧
        ∀ q, s'.copies q = (s.copies q).restoreKept t)
      fun e s' => s.Underway s' ∧ ∃ x ∈ s.pool.retainedOf t, s.fault? x.1.table = some e ∧
        s'.copies x.1 = (s.copies x.1).forget t ∧
        ∀ q, s'.copies q = (s.copies q).forget t ∨ s'.copies q = (s.copies q).restoreKept t := by
  let s₁ := s.modifyPool fun p => p.forget t
  have h₁ : s.Underway s₁ := (refl h).forget t
  have hcopies : ∀ q, s₁.copies q = (s.copies q).forget t := s.copies_forget t
  have hput : ∀ q, q ∈ (s.pool.retainedOf t).map Prod.fst →
      s.putBack t q ((s.copies q).forget t) = (s.copies q).restoreKept t := fun q hq =>
    (if_pos hq).symm.trans (s.putBack_forget t q)
  refine (forPages (h₁.tidy h) (p := Prod.fst) (φ := s.putBack t) (ψ := fun _ x => x) (s.putBack_putBack t)
    (fun q => s.fault? q.table) fun x hx s' h' _ => ?_).mono (fun _ s' h' => ?_) fun e s' h' => ?_
  · have hl : x.2.bytes.length = s.pool.config.pageSize := h.pool.retained x.1 x.2 (mem_retainedOf.1 hx).1
    refine h₁.faults ▸ (h'.restoreRetained (h₁.tidy h) hl).mono
      (fun _ s'' hs => ⟨hs.1, hs.2.1, fun q => (hs.2.2 q).trans ?_⟩)
      fun e s'' hs => ⟨hs.1 ▸ h', hs.2, fun q => by rw [hs.1, ite_self]⟩
    split
    · rename_i e
      rw [e, s.putBack_of_mem hx]
    · rfl
  · obtain ⟨h', hall, hcopies'⟩ := h'
    refine ⟨h₁.trans h', hall, fun q => ?_⟩
    rw [hcopies', hcopies]
    exact s.putBack_forget t q
  · obtain ⟨h', x, hx, hstop, hself, hothers⟩ := h'
    refine ⟨h₁.trans h', x, hx, hstop, hself.trans (hcopies x.1), fun q => ?_⟩
    by_cases hq : q = x.1
    · exact .inl (hq ▸ hself.trans (hcopies x.1))
    · refine (hothers q hq).imp (fun hh => hh.trans (hcopies q)) fun ⟨hin, _, hh⟩ => ?_
      rw [hh, hcopies, hput q hin]

end Store.Underway

/-! ## Pages that are cached -/

/-- What holds of every page that is not cached is to be checked of the pinned pages only. -/
theorem forall_of_cachedOf {P : PageId → Prop} (haway : ∀ page, (s.copies page).cached = none → P page)
    {pages : List PageId} (h : ∀ x ∈ cachedOf s.pool pages, P x.1) : ∀ page ∈ pages, P page := by
  intro page hp
  cases hf : s.pool.find? page with
  | some f => exact h (page, f) (mem_cachedOf.2 ⟨hp, hf⟩)
  | none => exact haway page (Option.map_eq_none_iff.2 hf)

theorem Store.obstacle?_of_uncached (h : (s.copies page).cached = none) : s.obstacle? page = none := by
  rw [Store.obstacle?_eq, h]
  rfl

theorem Store.hindrance?_of_uncached (h : (s.copies page).cached = none) : s.hindrance? t page = none := by
  rw [Store.hindrance?, Copies.imageOf?, h]
  rfl

end TupleStore
