import TupleStore.Proofs.Table.Searching

/-!
# Insertions and deletions that have not ended

However far a call that inserts or deletes a tuple has come, as long as it has not ended it has changed no tuple, and so
it is if it fails. An insertion has perhaps appended a page, but one at most, and only when it had been shown all pages of
its table and all were full.

* `Call.Halts` : a call that ends or has to wait;
* `Insertion.Ahead` : the pages that an insertion has yet to look at;
* `Insertion.Searches`, `Regular.insert_searches` : what an insertion has done that goes on, waits or fails;
* `Regular.delete_reads` : a deletion has only read;
* `Store.Unharmed` : what this means for pages and files (`Browses.unharmed`).
-/

namespace TupleStore

set_option autoImplicit false

open TupleStore.Action

/-- A call that inserts or deletes a tuple goes on as another one: with the same tuple, or the same record id, for the
same transaction and table. -/
def Call.GoesOn : Call → Call → Prop
  | .insert i marks, c' => ∃ stage asking, c' = .insert { i with stage, asking } marks
  | .delete d marks, c' => ∃ asking, c' = .delete { d with asking } marks
  | _, _ => False

/-- A call has ended, or it has to wait, and what is left of the store is as it says. -/
def Call.Halts (c : Call) (P : Store → Prop) : Advance Call Reply → Store → Prop
  | .done _, _ => True
  | .waiting c', s' => c.GoesOn c' ∧ P s'

theorem Call.Halts.mono {c : Call} {P Q : Store → Prop} {a : Advance Call Reply} {s' : Store} (h : c.Halts P a s')
    (hpq : ∀ s', P s' → Q s') : c.Halts Q a s' := by
  cases a with
  | done _ => trivial
  | waiting c' => exact ⟨h.1, hpq s' h.2⟩

variable {s₀ s s₁ s' : Store} {pins : List FrameId} {uses : List Use} {i : Insertion} {d : Deletion} {f : HeapFile}
  {t : TxnId} {n : Nat} {marks : Bool}

/-! ## Insertions -/

/-- A transaction has since been shown a page of a table, and it was full. -/
def Store.ShowsFull (s : Store) (t : TxnId) (f : HeapFile) (n : Nat) (s' : Store) : Prop :=
  ∃ bytes past, s.trace <:+ past ∧ (.saw t ⟨f.id, n⟩ bytes :: past) <:+ s'.trace ∧
    (HeapPage.mk ⟨f.id, n⟩ f.schema bytes).firstFree? = none

theorem Store.ShowsFull.after (h : s₁.ShowsFull t f n s') (hpast : s.trace <:+ s₁.trace) : s.ShowsFull t f n s' := by
  obtain ⟨bytes, past, hs, hsaw, hfull⟩ := h
  exact ⟨bytes, past, hpast.trans hs, hsaw, hfull⟩

theorem Store.ShowsFull.later (h : s.ShowsFull t f n s₁) (hfuture : s₁.trace <:+ s'.trace) : s.ShowsFull t f n s' := by
  obtain ⟨bytes, past, hs, hsaw, hfull⟩ := h
  exact ⟨bytes, past, hs, hsaw.trans hfuture, hfull⟩

/-- The page at which the search is. -/
def InsertStage.number : InsertStage → Nat
  | inspect n => n
  | place n => n

/-- The pages at which the search has yet to look, of those that there were when it began, and the page that it has chosen
or appended. -/
def Insertion.Ahead (i : Insertion) (n : Nat) : Prop := i.stage.number ≤ n ∧ (n < i.limit ∨ i.stage = .place n)

namespace Insertion

variable {m n : Nat}

theorem not_ahead (hat : i.stage = .inspect n) (hn : i.limit ≤ n) : ¬i.Ahead m := by
  rintro ⟨hle, hlt | hplace⟩
  · rw [hat] at hle
    exact absurd (Nat.lt_of_le_of_lt hle hlt) (Nat.not_lt.2 hn)
  · exact InsertStage.noConfusion (hat.symm.trans hplace)

theorem Ahead.choose (h : i.Ahead m) (hat : i.stage = .inspect n) : (i.goto (.place n)).Ahead m := by
  obtain ⟨hle, hlt⟩ := h
  rw [hat] at hle hlt
  exact ⟨hle, .inl (hlt.resolve_right fun hplace => by cases hplace)⟩

theorem Ahead.pass (h : i.Ahead m) (hat : i.stage.number = n) : m = n ∨ (i.goto (.inspect (n + 1))).Ahead m := by
  obtain ⟨hle, hlt⟩ := h
  rw [hat] at hle
  rcases Nat.eq_or_lt_of_le hle with rfl | hlater
  · exact .inl rfl
  · refine .inr ⟨hlater, .inl (hlt.resolve_right fun hplace => ?_)⟩
    rw [hplace] at hat
    exact absurd hlater (hat ▸ Nat.lt_irrefl m)

end Insertion

/-- What an insertion has done that has not ended. It has read, or it has read, appended a page and read again. Then all
pages were full that it had yet to look at. -/
inductive Insertion.Searches (i : Insertion) (f : HeapFile) (s : Store) (pins : List FrameId) (s' : Store) : Prop where
  | reads (h : s.Reads pins s')
  | appends {s₁ : Store} (h : s.Reads pins s₁) (hs : ∃ pins', s₁.Settled pins')
    (hfull : ∀ n, i.Ahead n → s.ShowsFull i.txn f n s₁)
    (h' : (s₁.appended i.handle f).Reads pins s')

/-- An insertion goes on after it has only read. Pages that are ahead no more have been shown to it, and were full. -/
theorem Insertion.Searches.after {stage : InsertStage} (h : (i.goto stage).Searches f s₁ pins s') (hreads : s.Reads pins s₁)
    (hpassed : ∀ m, i.Ahead m → s.ShowsFull i.txn f m s₁ ∨ (i.goto stage).Ahead m) : i.Searches f s pins s' := by
  cases h with
  | reads h => exact .reads (hreads.trans h)
  | appends h hs hfull h' =>
    refine .appends (hreads.trans h) hs (fun m hm => ?_) h'
    rcases hpassed m hm with hshown | hahead
    · exact hshown.later h.trace
    · exact (hfull m hahead).after hreads.trace

namespace Store

theorem Reads.file?_eq (h : s.Reads pins s') (hd : HandleId) : s'.file? hd = s.file? hd := by
  rw [file?, h.handles, file?]

/-- An insertion whose page has just been appended ends with its next step, unless it fails or has to wait. -/
theorem Regular.insert_blank (hs : s.Settled pins) (hone : s.volume.Single) (hf : s.file? i.handle = some f)
    (hagrees : i.tuple.schema.Agrees f.schema) (hat : i.stage = .place f.pages.pageCount) (hfresh : i.asking = .fresh)
    (h : s₀.Regular (((Call.insert i marks).uses s₀ ++ uses).map Use.frame) (s.appended i.handle f)) (n : Nat) :
    (Action.advance Call.step n (.insert i marks)).Ends (s.appended i.handle f)
      ((Call.insert i marks).Halts ((s.appended i.handle f).Reads (uses.map Use.frame)))
      fun _ s' => (s.appended i.handle f).Reads (uses.map Use.frame) s' := by
  cases n with
  | zero => exact ⟨⟨i.stage, i.asking, rfl⟩, (Idles.refl _).reads _⟩
  | succ n =>
    have hone' := hone.extends (grown_appended hf)
    have hf' := (file?_appended hf i.handle).trans (if_pos rfl)
    rw [ends_advance_succ]
    refine (h.insert hone' hf' hagrees).mono (fun p s' h' => ?_) fun _ _ h' => h'
    cases p with
    | finished reply => exact trivial
    | blocked c' =>
      obtain ⟨i', rfl, ht⟩ := h'
      cases ht with
      | waits hne hr => exact ⟨⟨_, _, rfl⟩, hr⟩
    | moved c' =>
      obtain ⟨i', rfl, ht⟩ := h'
      cases ht with
      | chooses hat' _ _ _ => exact nomatch hat.symm.trans hat'
      | appends hat' _ => exact nomatch hat.symm.trans hat'
      | @passes _ m mode bytes hat' hv hfull =>
        -- the page is zeros, and so it is not full
        rcases hat' with ⟨hat', -⟩ | hat'
        · exact nomatch hat.symm.trans hat'
        · obtain rfl : f.pages.pageCount = m := InsertStage.place.inj (hat.symm.trans hat')
          rw [hfresh] at hv
          obtain rfl := hv.blank hs hone hf
          exact nomatch (HeapPage.firstFree?_zeros (hs.roomy i.handle f hf)).symm.trans hfull

/-- As long as an insertion has not ended, it has read, and has appended one page at most. -/
theorem Regular.insert_searches (n : Nat) : ∀ {i : Insertion} {s : Store},
    s₀.Regular (((Call.insert i marks).uses s₀ ++ uses).map Use.frame) s → s.volume.Single → s.file? i.handle = some f →
      i.tuple.schema.Agrees f.schema → (Action.advance Call.step n (.insert i marks)).Ends s
        ((Call.insert i marks).Halts (i.Searches f s (uses.map Use.frame)))
        fun _ s' => i.Searches f s (uses.map Use.frame) s' := by
  induction n with
  | zero => exact fun {i s} _ _ _ _ => ⟨⟨i.stage, i.asking, rfl⟩, .reads ((Idles.refl s).reads _)⟩
  | succ n ih =>
    intro i s h hone hf hagrees
    -- the rest of the call after a step that has only read
    have hgoes : ∀ {stage : InsertStage} {s₁ : Store}, s.Reads (uses.map Use.frame) s₁ →
        (∀ m, i.Ahead m → s.ShowsFull i.txn f m s₁ ∨ (i.goto stage).Ahead m) →
        s₀.Regular (((Call.insert (i.goto stage) marks).uses s₀ ++ uses).map Use.frame) s₁ →
        (Action.advance Call.step n (.insert (i.goto stage) marks)).Ends s₁
          ((Call.insert i marks).Halts (i.Searches f s (uses.map Use.frame)))
          fun _ s' => i.Searches f s (uses.map Use.frame) s' := by
      intro stage s₁ hreads hpassed h₁
      exact (ih h₁ (hone.extends hreads.grown) ((hreads.file?_eq _).trans hf) hagrees).mono
        (fun _ _ h' => Call.Halts.mono (c := .insert i marks) h' fun _ hs => hs.after hreads hpassed) fun _ _ hs =>
          hs.after hreads hpassed
    rw [ends_advance_succ]
    refine ((h.insert hone hf hagrees).and (h.call trivial)).mono (fun p s' h' => ?_) fun _ _ h' => .reads h'.1
    obtain ⟨h', hregular⟩ := h'
    cases p with
    | finished reply => exact trivial
    | blocked c' =>
      obtain ⟨i', rfl, ht⟩ := h'
      cases ht with
      | waits _ hr => exact ⟨⟨_, _, rfl⟩, .reads hr⟩
    | moved c' =>
      obtain ⟨i', rfl, ht⟩ := h'
      have h₁ := hregular.2.2
      cases ht with
      | chooses hat _ hv _ => exact hgoes hv.reads (fun k hk => .inr (hk.choose hat)) h₁
      | @passes _ m _ bytes hat hv hfull =>
        have hm : i.stage.number = m := by rcases hat with ⟨hat, -⟩ | hat <;> rw [hat] <;> rfl
        refine hgoes hv.reads (fun k hk => (hk.pass hm).imp ?_ id) h₁
        rintro rfl
        obtain ⟨past, hpast, hsaw⟩ := hv.saw
        exact ⟨bytes, past, hpast, hsaw, hfull⟩
      | @appends m hat hn =>
        have hsearches : ∀ s', (s.appended i.handle f).Reads (uses.map Use.frame) s' →
            i.Searches f s (uses.map Use.frame) s' := fun s' hr =>
          .appends ((Idles.refl s).reads _) ⟨_, h.settled⟩ (fun k hk => absurd hk (Insertion.not_ahead hat hn)) hr
        exact (Regular.insert_blank (i := i.goto (.place f.pages.pageCount)) h.settled hone hf hagrees rfl rfl h₁ n).mono
          (fun _ _ h' => Call.Halts.mono (c := .insert i marks) h' hsearches) fun _ s' hr => hsearches s' hr

/-! ## Deletions -/

/-- Nothing that there was has changed, while some frames were in use: no page for whoever asks for it, no before-image,
and no mark of a change. -/
structure Unharmed (s : Store) (pins : List FrameId) (s' : Store) : Prop where
  catalog : s'.catalog = s.catalog
  /-- A page has the content that it had. If it was clean in the cache and nobody used it, it can have that of its
  file. -/
  content : ∀ q, (s'.copies q).shown = (s.copies q).shown ∨ ∃ frame, s.pool.find? q = some frame ∧ frame ∉ pins ∧
    (s.pool.frame frame).dirtyBy = none ∧ (s'.copies q).shown = s.onFile q
  inUse : ∀ q frame, s.pool.find? q = some frame → frame ∈ pins →
    s'.pool.find? q = some frame ∧ s'.copies q = s.copies q
  before : ∀ q b, (s'.copies q).before = some b →
    ∃ b₀, (s.copies q).before = some b₀ ∧ b₀.owner = b.owner ∧ b₀.bytes = b.bytes
  dirty : ∀ q c, (s'.copies q).cached = some c → c.dirtyBy ≠ none → s'.copies q = s.copies q
  tables : ∀ hd f, s.file? hd = some f → ∃ f', s'.file? hd = some f' ∧ Volume.shape f' = Volume.shape f ∧
    f.pages.pageCount ≤ f'.pages.pageCount
  /-- A page of a file is as it was, or was dirty in the cache and has been written. -/
  files : ∀ hd f, s.file? hd = some f → ∀ n < f.pages.pageCount,
    s'.volume.filePage f.name f.pages.pageSize n = s.volume.filePage f.name f.pages.pageSize n ∨
      ∃ c, (s.copies ⟨f.id, n⟩).cached = some c ∧ c.dirtyBy ≠ none ∧
        s'.volume.filePage f.name f.pages.pageSize n = c.bytes
  /-- What a file has more is empty. -/
  empty : ∀ hd f, s.file? hd = some f → ∀ n, f.pages.pageCount ≤ n →
    s'.volume.filePage f.name f.pages.pageSize n = Bytes.zeros f.pages.pageSize

/-- What is cached is in a frame. -/
theorem frame_of_cached {q : PageId} {c : Copy} (hc : (s.copies q).cached = some c) :
    ∃ frame, s.pool.find? q = some frame ∧ (s.pool.frame frame).copy = c := by
  unfold copies at hc
  exact Option.map_eq_some_iff.1 hc

theorem Shifts.content (h : s.Shifts pins s') (q : PageId) : (s'.copies q).shown = (s.copies q).shown ∨
    ∃ frame, s.pool.find? q = some frame ∧ frame ∉ pins ∧ (s.pool.frame frame).dirtyBy = none ∧
      (s'.copies q).shown = s.onFile q := by
  rcases (h.copies q).shown with hsame | ⟨c, hc, hclean, hfile⟩
  · exact .inl hsame
  · obtain ⟨frame, hfind, rfl⟩ := frame_of_cached hc
    by_cases hp : frame ∈ pins
    · exact .inl (congrArg Copies.shown (h.anchors q frame hfind hp).2)
    · exact .inr ⟨frame, hfind, hp, hclean, hfile⟩

theorem Browses.unharmed {pins' : List FrameId} (h : s.Browses pins s') (hs : s.Settled pins')
    (hone : s.volume.Single) : s.Unharmed pins s' where
  catalog := h.catalog
  content := h.shifts.content
  inUse := h.anchors
  before q b hb := by
    refine (h.copies q).before (fun c hc => ?_) hb
    obtain ⟨frame, hfind, -⟩ := frame_of_cached hc
    refine Decidable.not_not.1 fun hne => ?_
    exact nomatch (hs.accounted.retained q hne).symm.trans hfind
  dirty q c hc hd := (h.copies q).eq_of_dirty hc hd
  tables hd f hf := h.grown.file hf
  files hd f hf n _ := h.files hd f hf n
  empty hd f hf n hn := by
    rcases h.files hd f hf n with hsame | ⟨c, hc, -⟩
    · exact hsame.trans (hs.filePage_of_le hone hf hn)
    · -- no such page is cached
      obtain ⟨frame, hfind, -⟩ := frame_of_cached hc
      obtain ⟨hd', f', hf', hid, hlt⟩ := hs.housed frame _ ((hs.accounted.mapped _ frame).1 hfind)
      obtain rfl := hone hd' hd f' f hf' hf hid
      cases hf'.symm.trans hf
      exact absurd hlt (Nat.not_lt.2 hn)

end Store

namespace Insertion.Searches

theorem browses (h : i.Searches f s pins s') (hone : s.volume.Single) (hf : s.file? i.handle = some f) :
    s.Browses pins s' := by
  cases h with
  | reads h => exact h.toBrowses
  | appends h hs _ h' =>
    obtain ⟨pins', hs⟩ := hs
    have happend : Store.Browses _ pins _ := hs.browses_appended (hone.extends h.grown) ((h.file?_eq _).trans hf)
    exact h.toBrowses.trans (happend.trans h'.toBrowses)

end Insertion.Searches

/-- The file of a table is as long as before, with a last page that is all there, or ends with one page more. -/
structure Store.Lengthens (s : Store) (f : HeapFile) (count : Nat) (s' : Store) : Prop where
  grows : (s.volume.folder.content f.name).length ≤ (s'.volume.folder.content f.name).length
  bounded : (s'.volume.folder.content f.name).length ≤
    max (s.volume.folder.content f.name).length (count * f.pages.pageSize)
  whole : f.pages.pageCount < count → count * f.pages.pageSize ≤ (s'.volume.folder.content f.name).length

/-- How a table has grown by an insertion that has not ended: not at all, or by one empty page. -/
inductive Insertion.Grows (i : Insertion) (f : HeapFile) (s s' : Store) : Prop where
  /-- If the last page of the file was not all there, it can have been filled up. -/
  | same (hfiles : ∀ hd, s'.file? hd = s.file? hd) (hlengthens : s.Lengthens f f.pages.pageCount s')
  | byPage (hfiles : ∀ hd, s'.file? hd =
      if hd = i.handle then some (f.withCount (f.pages.pageCount + 1)) else s.file? hd)
    (hlength : (s'.volume.folder.content f.name).length = (f.pages.pageCount + 1) * f.pages.pageSize)
    (hempty : s'.volume.filePage f.name f.pages.pageSize f.pages.pageCount = Bytes.zeros f.pages.pageSize)
    (hfull : ∀ n, i.Ahead n → s.ShowsFull i.txn f n s')

theorem Store.Reads.lengthens {hd : HandleId} (h : s.Reads pins s') (hf : s.file? hd = some f) :
    s.Lengthens f f.pages.pageCount s' where
  grows := (h.lengths hd f hf).1
  bounded := (h.lengths hd f hf).2
  whole hlt := absurd hlt (Nat.lt_irrefl _)

theorem Insertion.Searches.grows {pins' : List FrameId} (h : i.Searches f s pins s') (hs : s.Settled pins')
    (hone : s.volume.Single) (hf : s.file? i.handle = some f) : i.Grows f s s' := by
  have hunharmed := (h.browses hone hf).unharmed hs hone
  cases h with
  | reads h => exact .same h.file?_eq (h.lengthens hf)
  | @appends s₁ h hs₁ hfull h' =>
    obtain ⟨pins₁, hs₁⟩ := hs₁
    have hf₁ := (h.file?_eq i.handle).trans hf
    have hlength := hs₁.length_appended (hone.extends h.grown) hf₁
    obtain ⟨hle, hge⟩ := h'.lengths i.handle _ ((Store.file?_appended hf₁ i.handle).trans (if_pos rfl))
    refine .byPage (fun hd => ?_) ?_ (hunharmed.empty i.handle f hf _ (Nat.le_refl _)) fun n hn =>
      (hfull n hn).later h'.trace
    · rw [h'.file?_eq, Store.file?_appended hf₁, h.file?_eq]
    · have hmax := Nat.max_self ((f.pages.pageCount + 1) * f.pages.pageSize)
      dsimp only [HeapFile.withCount] at hle hge
      rw [hlength] at hle hge
      omega

end TupleStore
