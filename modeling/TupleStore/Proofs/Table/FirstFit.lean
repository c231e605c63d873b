import TupleStore.Proofs.Table.Attempting

/-!
# Insertions that end at once

An insertion that has just begun, and neither fails nor has to wait, puts its tuple into the first free slot of the first
page that has one. If there is none, it appends a page, which is of zeros and in no frame, so it needs to append only one.
It changes no other slot and no other page.

While it looks for a page, others make way for those that it reads. They come back as they were, because in a store that
is in step every page that is clean is as its file has it (`Shifts.shown_eq`). So what it finds is what was to be found
when it began.

* `Insertion.Past` : the pages that an insertion has left behind;
* `Insertion.Lands` : where its tuple has come to lie, and what else has changed;
* `Regular.insert_lands` : the whole search, page by page.
-/

namespace TupleStore

set_option autoImplicit false

open TupleStore.Action

/-- A page of a table, as it is shown to whoever asks for it. -/
def Store.heap (s : Store) (f : HeapFile) (n : Nat) : HeapPage := ⟨⟨f.id, n⟩, f.schema, (s.copies ⟨f.id, n⟩).shown⟩

/-- The pages before one are full. The transaction has found that out, and keeps the locks. -/
structure Insertion.Past (i : Insertion) (f : HeapFile) (s : Store) (pins : List FrameId) (n : Nat) (s' : Store) : Prop where
  browses : s.Browses pins s'
  full : ∀ m < n, (s.heap f m).firstFree? = none
  locked : ∀ m < n, Covered (s'.mode? i.txn ⟨f.id, m⟩) .read

/-- The tuple has come into a slot of a page, and nothing else has changed that shows. -/
structure Insertion.Lands (i : Insertion) (f : HeapFile) (s : Store) (n slot : Nat) (s' : Store) : Prop where
  free : slot < (s.heap f n).layout.slots ∧ (s.heap f n).image? slot = none
  /-- In no page before was there a free slot, and none before this one in its page. -/
  least : ∀ m k, m < n ∨ m = n ∧ k < slot → k < (s.heap f m).layout.slots → (s.heap f m).image? k ≠ none
  /-- The page was there, or has been appended. -/
  page : n < f.pages.pageCount ∨
    n = f.pages.pageCount ∧ slot = 0 ∧ (s.heap f n).bytes = Bytes.zeros f.pages.pageSize
  /-- Of the page, the slot and its bit have changed. -/
  touches : (s.heap f n).Touches (s'.heap f n) slot
  stored : (s'.heap f n).image? = Function.update (s.heap f n).image? slot (some i.tuple.image)
  others : ∀ q, q ≠ ⟨f.id, n⟩ → (s'.copies q).shown = (s.copies q).shown
  counts : ∀ hd, s'.file? hd = if hd = i.handle then some (f.withCount (max f.pages.pageCount (n + 1))) else s.file? hd
  lengthens : s.Lengthens f (max f.pages.pageCount (n + 1)) s'
  reads : ∀ m < n, Covered (s'.mode? i.txn ⟨f.id, m⟩) .read
  writes : Covered (s'.mode? i.txn ⟨f.id, n⟩) .write

variable {s₀ s s₁ s₂ s' : Store} {pins pins' : List FrameId} {uses : List Use} {i : Insertion} {f : HeapFile}
  {n slot fuel : Nat} {marks : Bool}

namespace Store

/-- Pages that make way in a store that is in step show the same content wherever they are. -/
theorem Shifts.shown_eq (h : s.Shifts pins s') (ha : s.pool.Accounted pins none) (hsync : s.InStep) (q : PageId) :
    (s'.copies q).shown = (s.copies q).shown := by
  rcases h.content q with hsame | ⟨frame, hfind, hp, hclean, hfile⟩
  · exact hsame
  · have hidle : s.pool.isPinned frame = false := Bool.eq_false_iff.2 fun hpinned => hp (ha.isPinned_iff.1 hpinned)
    exact hfile.trans ((hsync q frame hfind hidle hclean).trans (shown_of_find? hfind).symm)

theorem Lengthens.reads {hd : HandleId} {count : Nat} (h : s.Lengthens f count s₁) (h' : s₁.Reads pins s')
    (hf : s₁.file? hd = some (f.withCount count)) : s.Lengthens f count s' := by
  obtain ⟨hle, hge⟩ := h'.lengths hd _ hf
  dsimp only [HeapFile.withCount] at hle hge
  have hgrows := h.grows
  have hbounded := h.bounded
  exact ⟨by omega, by omega, fun hlt => (h.whole hlt).trans hle⟩

/-- With the page that is appended the file ends. -/
theorem Settled.lengthens_appended {hd : HandleId} (h : s₁.Settled pins) (hone : s₁.volume.Single)
    (hf : s₁.file? hd = some f) (hreads : s.Reads pins' s₁) : s.Lengthens f (f.pages.pageCount + 1) (s₁.appended hd f) := by
  have hlength := h.length_appended hone hf
  have hle := h.length_le hone hf
  have hgrows := (hreads.lengths hd f ((hreads.file?_eq hd).symm.trans hf)).1
  have hstep : f.pages.pageCount * f.pages.pageSize ≤ (f.pages.pageCount + 1) * f.pages.pageSize :=
    Nat.mul_le_mul_right _ (Nat.le_succ _)
  exact ⟨by omega, hlength ▸ Nat.le_max_right .., fun _ => Nat.le_of_eq hlength.symm⟩

end Store

namespace Insertion

theorem Past.reads (h : i.Past f s pins n s₁) (h' : s₁.Browses pins s₂) : i.Past f s pins n s₂ where
  browses := h.browses.trans h'
  full := h.full
  locked m hm := h'.locks _ _ _ (h.locked m hm)

/-- One more page has been found full. -/
theorem Past.succ (h : i.Past f s pins n s₁) (hfull : (s.heap f n).firstFree? = none)
    (hlocked : Covered (s₁.mode? i.txn ⟨f.id, n⟩) .read) : i.Past f s pins (n + 1) s₁ where
  browses := h.browses
  full m hm := by
    rcases Nat.lt_succ_iff_lt_or_eq.1 hm with hm | rfl
    · exact h.full m hm
    · exact hfull
  locked m hm := by
    rcases Nat.lt_succ_iff_lt_or_eq.1 hm with hm | rfl
    · exact h.locked m hm
    · exact hlocked

/-- The tuple is put into the first free slot of the page behind those that are full. -/
theorem Past.lands (h : i.Past f s pins n s₁) (ha : s.pool.Accounted pins none) (hsync : s.InStep)
    (hagrees : i.tuple.schema.Agrees f.schema) (hfree : (s.heap f n).firstFree? = some slot)
    (hput : s₁.Puts ⟨f.id, n⟩ ((s.heap f n).fill slot i.tuple).bytes s')
    (hlocked : Covered (s₁.mode? i.txn ⟨f.id, n⟩) .write)
    (hpage : n < f.pages.pageCount ∨
      n = f.pages.pageCount ∧ slot = 0 ∧ (s.heap f n).bytes = Bytes.zeros f.pages.pageSize)
    (hcounts : ∀ hd, s₁.file? hd =
      if hd = i.handle then some (f.withCount (max f.pages.pageCount (n + 1))) else s.file? hd)
    (hlengthens : s.Lengthens f (max f.pages.pageCount (n + 1)) s₁) : i.Lands f s n slot s' := by
  obtain ⟨hslot, hnone, hbefore⟩ := HeapPage.firstFree?_eq_some.1 hfree
  have hheap : s'.heap f n = (s.heap f n).fill slot i.tuple := congrArg (HeapPage.mk ⟨f.id, n⟩ f.schema) hput.shown
  exact {
    free := ⟨hslot, hnone⟩
    least := fun m k hlex hk => by
      rcases hlex with hm | ⟨rfl, hk'⟩
      · exact HeapPage.firstFree?_eq_none.1 (h.full m hm) k hk
      · exact hbefore k hk'
    page := hpage
    touches := hheap ▸ HeapPage.touches_fill hslot hagrees
    stored := hheap ▸ HeapPage.image?_fill hslot hagrees
    others := fun q hq => (congrArg Copies.shown (hput.others hq)).trans (h.browses.shifts.shown_eq ha hsync q)
    counts := fun hd => by
      rw [Store.file?, hput.volume]
      exact hcounts hd
    lengthens := by
      have hlength := congrArg (fun v => (Folder.content v.folder f.name).length) hput.volume
      exact ⟨hlength ▸ hlengthens.grows, hlength ▸ hlengthens.bounded, hlength ▸ hlengthens.whole⟩
    reads := fun m hm => hput.mode?_eq i.txn _ ▸ h.locked m hm
    writes := hput.mode?_eq i.txn _ ▸ hlocked }

/-- What an insertion comes to that goes on by itself: its tuple lands, or it has to wait for a page. -/
def Comes (i : Insertion) (f : HeapFile) (s : Store) : Advance Call Reply → Store → Prop
  | .done reply, s' => ∃ n slot, reply = .inserted ⟨f.id, n⟩ (i.tuple.place (some ⟨⟨f.id, n⟩, slot⟩)) ∧ i.Lands f s n slot s'
  | .waiting c', _ => c'.asking ≠ .fresh

end Insertion

namespace Store

/-- A page that has room takes the tuple. -/
theorem Regular.place_lands
    (h : s₀.Regular (((Call.insert (i.goto (.place n)) marks).uses s₀ ++ uses).map Use.frame) s₁)
    (hone : s₁.volume.Single) (ha : s.pool.Accounted (uses.map Use.frame) none) (hsync : s.InStep)
    (hagrees : i.tuple.schema.Agrees f.schema) (hpast : i.Past f s (uses.map Use.frame) n s₁)
    (hcounts : ∀ hd, s₁.file? hd =
      if hd = i.handle then some (f.withCount (max f.pages.pageCount (n + 1))) else s.file? hd)
    (hlengthens : s.Lengthens f (max f.pages.pageCount (n + 1)) s₁)
    (hroom : ∀ mode bytes s₂, s₁.Visits (uses.map Use.frame) ⟨i.txn, ⟨f.id, n⟩, mode, .fresh⟩ bytes s₂ →
      ∃ slot, (HeapPage.mk ⟨f.id, n⟩ f.schema bytes).firstFree? = some slot ∧ (n < f.pages.pageCount ∨
        n = f.pages.pageCount ∧ slot = 0 ∧ bytes = Bytes.zeros f.pages.pageSize)) (hfuel : 1 ≤ fuel) :
    (Action.advance Call.step fuel (.insert (i.goto (.place n)) marks)).Ends s₁ (i.Comes f s) fun _ _ => True := by
  have hf : s₁.file? (i.goto (.place n)).handle = some (f.withCount (max f.pages.pageCount (n + 1))) :=
    (hcounts i.handle).trans (if_pos rfl)
  have hbytes : ∀ {bytes s₂}, s₁.Visits (uses.map Use.frame) ⟨i.txn, ⟨f.id, n⟩, .write, .fresh⟩ bytes s₂ →
      bytes = (s.heap f n).bytes := fun hv => (hv.fresh rfl).1.trans (hpast.browses.shifts.shown_eq ha hsync _)
  obtain ⟨fuel, rfl⟩ : ∃ k, fuel = k + 1 := ⟨fuel - 1, by omega⟩
  rw [ends_advance_succ]
  refine (h.insert hone hf hagrees).mono (fun p s' h' => ?_) fun _ _ _ => trivial
  cases p with
  | blocked c' =>
    obtain ⟨i', rfl, ht⟩ := h'
    cases ht with
    | waits hne _ => exact hne
  | moved c' =>
    obtain ⟨i', rfl, ht⟩ := h'
    cases ht with
    | chooses hat _ _ _ => cases hat
    | appends hat _ => cases hat
    | @passes _ m _ bytes hat hv hfull =>
      obtain ⟨hat, -⟩ | hat := hat
      · cases hat
      · cases hat
        obtain ⟨slot, hfree, -⟩ := hroom _ bytes s' hv
        exact nomatch hfree.symm.trans hfull
  | finished reply =>
    obtain ⟨page, tuple, s₃, rfl, ht, rfl⟩ := h'
    cases ht with
    | @stores s₂ _ m slot bytes hat hv hfree hput =>
      cases hat
      obtain ⟨slot', hfree', hpage⟩ := hroom _ bytes s₂ hv
      obtain rfl : slot' = slot := Option.some.inj (hfree'.symm.trans hfree)
      obtain rfl := hbytes hv
      have hput' : s₂.Puts ⟨f.id, n⟩ ((s.heap f n).fill slot' i.tuple).bytes
          (if marks then s₃.modifyPool fun p => p.markDirty ⟨f.id, n⟩ i.txn else s₃) := by
        cases marks with
        | true => exact (hput rfl).mark i.txn
        | false => exact hput rfl
      refine ⟨n, slot', rfl, (hpast.reads hv.reads.toBrowses).lands ha hsync hagrees hfree hput' (hv.fresh rfl).2.1 hpage
        (fun hd => (hv.reads.file?_eq hd).trans (hcounts hd)) (hlengthens.reads hv.reads hf)⟩

/-- Behind all pages one is appended, which takes the tuple. -/
theorem Regular.append_lands
    (h : s₀.Regular (((Call.insert (i.goto (.place f.pages.pageCount)) marks).uses s₀ ++ uses).map Use.frame)
      (s₁.appended i.handle f))
    (hs₁ : s₁.Settled pins) (hone : s₁.volume.Single) (ha : s.pool.Accounted (uses.map Use.frame) none)
    (hsync : s.InStep) (hagrees : i.tuple.schema.Agrees f.schema) (hreads : s.Reads (uses.map Use.frame) s₁)
    (hpast : i.Past f s (uses.map Use.frame) f.pages.pageCount s₁) (hf : s.file? i.handle = some f) (hfuel : 1 ≤ fuel) :
    (Action.advance Call.step fuel (.insert (i.goto (.place f.pages.pageCount)) marks)).Ends (s₁.appended i.handle f)
      (i.Comes f s) fun _ _ => True := by
  have hf₁ : s₁.file? i.handle = some f := (hreads.file?_eq _).trans hf
  refine h.place_lands (hone.extends (grown_appended hf₁)) ha hsync hagrees (hpast.reads (hs₁.browses_appended hone hf₁))
    (fun hd => ?_) ?_ (fun mode bytes s₂ hv => ?_) hfuel
  · rw [file?_appended hf₁, Nat.max_eq_right (Nat.le_succ _), hreads.file?_eq]
  · rw [Nat.max_eq_right (Nat.le_succ _)]
    exact hs₁.lengthens_appended hone hf₁ hreads
  · rw [hv.blank hs₁ hone hf₁]
    exact ⟨0, HeapPage.firstFree?_zeros (hs₁.roomy i.handle f hf₁), .inr ⟨rfl, rfl, rfl⟩⟩

/-- The whole search. The steps are enough that are left: one for each page to be inspected, and two more. -/
theorem Regular.insert_lands (ha : s.pool.Accounted (uses.map Use.frame) none) (hsync : s.InStep)
    (hagrees : i.tuple.schema.Agrees f.schema) (hf : s.file? i.handle = some f) (hlimit : i.limit = f.pages.pageCount)
    (fuel : Nat) : ∀ {n : Nat} {s₁ : Store},
      s₀.Regular (((Call.insert (i.goto (.inspect n)) marks).uses s₀ ++ uses).map Use.frame) s₁ → s₁.volume.Single →
      s.Reads (uses.map Use.frame) s₁ → i.Past f s (uses.map Use.frame) n s₁ → n ≤ f.pages.pageCount →
      f.pages.pageCount - n + 2 ≤ fuel →
      (Action.advance Call.step fuel (.insert (i.goto (.inspect n)) marks)).Ends s₁ (i.Comes f s) fun _ _ => True := by
  induction fuel with
  | zero => exact fun _ _ _ _ _ hfuel => absurd hfuel (by omega)
  | succ fuel ih =>
    intro n s₁ h hone hreads hpast hn hfuel
    have hf₁ : s₁.file? (i.goto (.inspect n)).handle = some f := (hreads.file?_eq _).trans hf
    rw [ends_advance_succ]
    refine ((h.insert hone hf₁ hagrees).and (h.call trivial)).mono (fun p s₂ h' => ?_) fun _ _ _ => trivial
    obtain ⟨h', hregular⟩ := h'
    -- what is seen of the page is what was to be seen when the insertion began
    have hbytes : ∀ {mode bytes}, s₁.Visits (uses.map Use.frame) ⟨i.txn, ⟨f.id, n⟩, mode, .fresh⟩ bytes s₂ →
        bytes = (s.heap f n).bytes := fun hv => (hv.fresh rfl).1.trans (hpast.browses.shifts.shown_eq ha hsync _)
    cases p with
    | finished reply =>
      obtain ⟨page, tuple, s₃, -, ht, -⟩ := h'
      cases ht with
      | stores hat _ _ _ => cases hat
    | blocked c' =>
      obtain ⟨i', rfl, ht⟩ := h'
      cases ht with
      | waits hne _ => exact hne
    | moved c' =>
      obtain ⟨i', rfl, ht⟩ := h'
      have h₂ := hregular.2.2
      cases ht with
      | @chooses _ m bytes hat hm hv hroom =>
        cases hat
        obtain rfl := hbytes hv
        have hlt : n < f.pages.pageCount := hlimit ▸ hm
        refine Regular.place_lands (i := i) h₂ (hone.extends hv.reads.grown) ha hsync hagrees
          (hpast.reads hv.reads.toBrowses) (fun hd => ?_) ?_ (fun mode bytes s₃ hv' => ?_) (by omega)
        · rw [hv.reads.file?_eq, hreads.file?_eq, Nat.max_eq_left hlt]
          split
          · rename_i he
            rw [he, hf]
            rfl
          · rfl
        · rw [Nat.max_eq_left hlt]
          exact (hreads.trans hv.reads).lengthens hf
        · obtain ⟨slot, hfree⟩ := Option.ne_none_iff_exists'.1 hroom
          have hsame : bytes = (s.heap f n).bytes := (hv'.fresh rfl).1.trans
            ((hpast.reads hv.reads.toBrowses).browses.shifts.shown_eq ha hsync _)
          exact ⟨slot, hsame ▸ hfree, .inl hlt⟩
      | @passes _ m mode bytes hat hv hfull =>
        obtain ⟨hat, hm⟩ | hat := hat
        · cases hat
          obtain rfl := hbytes hv
          have hlt : n < f.pages.pageCount := hlimit ▸ hm
          have hlocked := covered_of_ne_none (hv.fresh rfl).2.1.ne_none
          exact ih h₂ (hone.extends hv.reads.grown) (hreads.trans hv.reads)
            ((hpast.reads hv.reads.toBrowses).succ hfull hlocked) hlt (by omega)
        · cases hat
      | @appends m hat hm =>
        cases hat
        obtain rfl : n = f.pages.pageCount := Nat.le_antisymm hn (hlimit ▸ hm)
        exact Regular.append_lands (i := i) h₂ h.settled hone ha hsync hagrees hreads hpast hf (by omega)

end Store

end TupleStore
