import TupleStore.Proofs.Attempts
import TupleStore.Proofs.Table.FirstFit

/-!
# Where tuples come to lie

A call that inserts a tuple, and neither fails nor has to wait, puts it where there is room first
(`World.handleAll_lands`). It holds whatever has happened before, if no table has two handles and pages that are clean in
the cache are as in their files. They are, unless a file has been written past the cache.
-/

namespace TupleStore

set_option autoImplicit false

open TupleStore.Action

/-- The transaction and the tuple of a call that is to insert one. -/
def Start.tuple? : Start → Option (TxnId × Tuple)
  | .insert txn _ tuple => some (txn, tuple)
  | .insertById txn _ tuple => some (txn, tuple)
  | _ => none

/-- The call is to go to the table behind the handle. -/
def Start.Names (hd : HandleId) (f : HeapFile) : Start → Prop
  | .insert _ hd' _ => hd = hd'
  | .insertById _ table _ => f.id = table
  | _ => False

variable {s : Store} {w : World} {events : List Event} {t : TxnId} {tuple : Tuple} {start : Start} {pins : List FrameId}

/-- Whether a store is in step can be told from the pages in its cache. -/
theorem Store.InStep.of_all (h : (s.pool.cachedPages.all fun page => (s.pool.find? page).all fun f =>
    s.pool.isPinned f || decide ((s.pool.frame f).dirtyBy ≠ none) ||
      decide (s.onFile page = (s.pool.frame f).bytes)) = true) : s.InStep := by
  intro page f hf hidle hclean
  have hin : page ∈ s.pool.cachedPages :=
    Std.TreeMap.mem_keys.2 (Std.TreeMap.mem_iff_isSome_getElem?.2 (Option.isSome_of_eq_some hf))
  have hpage := List.all_eq_true.1 h page hin
  rw [hf, Option.all_some, hidle, hclean] at hpage
  simpa using hpage

/-- How a call begins that inserts a tuple, if it does. -/
theorem Store.Tidy.startInsert (h : s.Tidy) (hstart : start.tuple? = some (t, tuple)) : start.call.Ends s
    (fun c s' => s' = s ∧ ∃ hd f marks, start.Names hd f ∧ s.file? hd = some f ∧ tuple.schema.Agrees f.schema ∧
      c = .insert { txn := t, handle := hd, tuple, limit := f.pages.pageCount } marks)
    fun _ s' => s' = s := by
  have hbegin : ∀ hd, (Insertion.start t hd tuple).Ends s
      (fun i s' => s' = s ∧ ∃ f, s.file? hd = some f ∧ tuple.schema.Agrees f.schema ∧
        i = { txn := t, handle := hd, tuple, limit := f.pages.pageCount })
      fun _ s' => s' = s := fun hd => by
    refine ((Start.ends_startInsertion t hd tuple).and (Insertion.start_suits t hd tuple)).mono (fun i s' h' => ?_)
      fun _ _ h' => h'.1
    obtain ⟨⟨rfl, f, hf, rfl⟩, f', hf', hagrees⟩ := h'
    cases hf.symm.trans hf'
    exact ⟨rfl, f, hf, hagrees, rfl⟩
  cases start with
  | insert txn hd tuple' =>
    cases hstart
    unfold Start.call
    rw [ends_bind]
    refine (hbegin hd).mono (fun i s' h' => ?_) fun _ _ h' => h'
    obtain ⟨rfl, f, hf, hagrees, rfl⟩ := h'
    exact ⟨rfl, hd, f, false, rfl, hf, hagrees, rfl⟩
  | insertById txn table tuple' =>
    cases hstart
    unfold Start.call Call.startInsert
    rw [ends_bind]
    refine (h.resolve table).mono (fun hd s' h' => ?_) fun _ _ h' => h'.1
    obtain ⟨rfl, -, file, htable, -⟩ := h'
    rw [ends_bind]
    refine (hbegin hd).mono (fun i s' h' => ?_) fun _ _ h' => h'
    obtain ⟨rfl, f, hf, hagrees, rfl⟩ := h'
    cases hf.symm.trans (Volume.table?_eq_some_iff.1 htable).2
    exact ⟨rfl, hd, file, true, h.tables.id_eq htable, hf, hagrees, rfl⟩
  | _ => cases hstart

/-- An insertion that has just begun, and goes on as far as it can. -/
theorem Store.Settled.run_lands {uses : List Use} (h : s.Settled (uses.map Use.frame)) (hone : s.volume.Single)
    (hsync : s.InStep) {hd : HandleId} {f : HeapFile} {marks : Bool} (hf : s.file? hd = some f)
    (hagrees : tuple.schema.Agrees f.schema) :
    (Call.insert { txn := t, handle := hd, tuple, limit := f.pages.pageCount } marks).run.Ends s
      (Insertion.Comes { txn := t, handle := hd, tuple, limit := f.pages.pageCount } f s) fun _ _ => True := by
  let i : Insertion := { txn := t, handle := hd, tuple, limit := f.pages.pageCount }
  have huses : (Call.insert (i.goto (.inspect 0)) marks).uses s = [] := usesAt_fresh ..
  have hregular : s.Regular (((Call.insert (i.goto (.inspect 0)) marks).uses s ++ uses).map Use.frame) s := by
    rw [huses]
    exact h.regular
  have hsame : s.Reads (uses.map Use.frame) s := (Store.Idles.refl s).reads _
  have hpast : i.Past f s (uses.map Use.frame) 0 s := ⟨hsame.toBrowses, nofun, nofun⟩
  unfold Call.run
  rw [ends_bind, ends_get]
  refine Store.Regular.insert_lands (i := i) h.accounted hsync hagrees hf rfl _ hregular hone hsame hpast (Nat.zero_le _) ?_
  show f.pages.pageCount - 0 + 2 ≤ 2 * (f.pages.pageCount + s.pool.frames.length + s.volume.totalPages + 2)
  omega

namespace World

/-- Whatever has happened to a store with an empty cache, a call that inserts a tuple, and neither fails nor has to wait,
puts it into the first free slot of its table, and says so. -/
theorem handleAll_lands (hs : s.Fresh) (hw : w = handleAll events { store := s }) (hone : w.store.volume.Single)
    (hsync : w.store.InStep) (hstart : start.tuple? = some (t, tuple)) : (start.call >>= Call.run).Ends w.store
    (fun a s' => ∃ (i : Insertion) (f : HeapFile), i.txn = t ∧ i.tuple = tuple ∧ start.Names i.handle f ∧
      w.store.file? i.handle = some f ∧ i.Comes f w.store a s')
    fun _ _ => True := by
  have hsettled := (hs.settled hw).2
  rw [ends_bind]
  refine (hsettled.tidy.startInsert hstart).mono (fun c s' h' => ?_) fun _ _ _ => trivial
  obtain ⟨rfl, hd, f, marks, hnames, hf, hagrees, rfl⟩ := h'
  refine (hsettled.run_lands hone hsync hf hagrees).mono (fun a s' h' => ?_) fun _ _ _ => trivial
  exact ⟨{ txn := t, handle := hd, tuple, limit := f.pages.pageCount }, f, rfl, rfl, hnames, hf, h'⟩

/-- How a call that begins inserts its tuple. -/
def landing? (w : World) (start : Start) : Option (PageId × Tuple × Store) :=
  match (start.call >>= Call.run) w.store with
  | .ok (.done (.inserted page tuple)) s => some (page, tuple, s)
  | _ => none

theorem of_landing? {page : PageId} {s' : Store} (h : w.landing? start = some (page, tuple, s')) :
    (start.call >>= Call.run) w.store = .ok (.done (.inserted page tuple)) s' := by
  unfold landing? at h
  split at h
  · cases h
    assumption
  · cases h

/-- A table of integers whose only page is full, and is in the only frame. -/
def taken : List Event :=
  [.create "t" ⟨[⟨.int, none⟩]⟩ 8, .register 0 "t", .op (.begin (.insert ⟨1⟩ 0 (.ofInt 7))), .op (.advance 0),
    .op (.advance 0)]

/-- The next integer goes to a page that is appended, and the full page makes way for it. -/
theorem handleAll_lands_taken :
    Store.bare.Fresh ∧ (handleAll taken { store := .bare }).store.volume.Single ∧
      (handleAll taken { store := .bare }).store.InStep ∧
      ∃ (s' : Store) (i : Insertion) (f : HeapFile) (slot : Nat),
        (handleAll taken { store := .bare }).landing? (.insertById ⟨1⟩ (Volume.tableId "t") (.ofInt 8)) =
          some (.ofT 1, (Tuple.ofInt 8).place (some ⟨.ofT 1, slot⟩), s') ∧
        (handleAll taken { store := .bare }).store.pool.find? (.ofT 0) = some 0 ∧ s'.pool.find? (.ofT 0) = none ∧
        i.txn = ⟨1⟩ ∧ i.tuple = .ofInt 8 ∧ (handleAll taken { store := .bare }).store.file? i.handle = some f ∧
        i.Lands f (handleAll taken { store := .bare }).store 1 slot s' := by
  have hlands : ((handleAll taken { store := .bare }).landing? (.insertById ⟨1⟩ (Volume.tableId "t") (.ofInt 8))).map
      (fun x => (x.1, x.2.2.pool.find? (.ofT 0))) = some (.ofT 1, none) := by decide +kernel
  have hfirst : (handleAll taken { store := .bare }).store.pool.find? (.ofT 0) = some 0 := by decide +kernel
  have hone : (handleAll taken { store := .bare }).store.volume.Single := .of_nodup (by decide +kernel)
  have hsync : (handleAll taken { store := .bare }).store.InStep := .of_all (by decide +kernel)
  -- from here on the world is not to be evaluated
  obtain ⟨w, hw⟩ : ∃ w, w = handleAll taken { store := .bare } := ⟨_, rfl⟩
  rw [← hw] at hlands hfirst hone hsync ⊢
  obtain ⟨⟨page, tuple, s'⟩, hl, hparts⟩ := Option.map_eq_some_iff.1 hlands
  obtain ⟨rfl, hgone⟩ := Prod.mk.inj hparts
  obtain ⟨i, f, htxn, htuple, -, hf, n, slot, hreply, hland⟩ :=
    (handleAll_lands Store.Fresh.bare hw hone hsync rfl).of_ok (of_landing? hl)
  obtain ⟨hpage, rfl⟩ := Reply.inserted.inj hreply
  obtain rfl : 1 = n := congrArg PageId.number hpage
  rw [htuple, ← hpage] at hl
  exact ⟨.bare, hone, hsync, s', i, f, slot, hl, hfirst, hgone, htxn, htuple, hf, hland⟩

/-- Two tables of integers. A page of one is in the only frame, and has then been written past the cache. -/
def outOfStep : List Event :=
  [.create "t" ⟨[⟨.int, none⟩]⟩ 8, .register 0 "t", .create "u" ⟨[⟨.int, none⟩]⟩ 8, .register 1 "u", .op (.allocate 1),
    .op (.begin (.read ⟨1⟩ ofU)), .op (.advance 0), .op (.rewrite 1 ofU [1, 0, 0, 0, 9, 0, 0, 0])]

/-- An integer is inserted into the other table, and the page is another one now. -/
theorem handleAll_lands_outOfStep :
    ((handleAll outOfStep { store := .bare }).store.volume.handles.map HeapFile.id).Nodup ∧
      ((handleAll outOfStep { store := .bare }).store.copies ofU).shown = [0, 0, 0, 0, 0, 0, 0, 0] ∧
      ((handleAll outOfStep { store := .bare }).landing? (.insert ⟨1⟩ 0 (.ofInt 7))).map
        (fun x => (x.1, (x.2.2.copies ofU).shown)) = some (.ofT 0, [1, 0, 0, 0, 9, 0, 0, 0]) := by
  decide +kernel

end World

end TupleStore
