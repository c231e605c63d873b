import TupleStore.Proofs.File.Spans
import TupleStore.Proofs.Pool.Underway

/-!
# Rollbacks that fail

A rollback gives the pages in the cache their before-images, one after the other, and then puts those in the files that
were kept aside. Only the writing of a file can fail: the table of a page has gone from the catalog, or has come back
with pages of another size. Then the rollback ends there, and the locks of its transaction are given back all the same.
The page that was in the way has lost its before-image by then. Its file keeps what the transaction has made of it, and
so does every page that was still to come.

* `Tidy.rollback`, `Tidy.complete_abort` : how far a rollback comes, and what it leaves of the pages when it stops
  (`Store.Halfway`);
* `Store.Undoes` : what a rollback is for. One that ends does it (`Covers.undoes`), and one that stops does not
  (`Alters.not_undoes`);
* `World.handleAll_aborts` : which of them it is, whatever has happened before.
-/

namespace TupleStore

set_option autoImplicit false

open TupleStore.Action

variable {s s' : Store} {w : World} {page : PageId} {t : TxnId} {pages : List PageId} {e : Error}

/-! ## Where a rollback stops -/

/-- A page is in the way of a rollback: it is locked and has to be restored in its file, or it has left the cache with a
before-image, and its table is missing or not as it was. -/
def Store.InTheWay (s : Store) (t : TxnId) (pages : List PageId) (page : PageId) (e : Error) : Prop :=
  page ∈ pages ∧ s.hindrance? t page = some e ∨
    ∃ b, (s.copies page).kept = some b ∧ b.owner = t ∧ s.fault? page.table = some e

/-- A rollback has stopped halfway. -/
inductive Store.Halfway (s : Store) (t : TxnId) (pages : List PageId) (e : Error) (s' : Store) : Prop
  /-- It stopped among the pages in the cache. The one in the way has its content back there only, some of the others
  have theirs back, and nothing is done about those that have left the cache. -/
  | cached (page : PageId) (hp : page ∈ pages) (hstop : s.hindrance? t page = some e)
      (hself : s'.copies page = (s.copies page).revert t)
      (hothers : ∀ q, q ≠ page → s'.copies q = s.copies q ∨ q ∈ pages ∧ s'.copies q = (s.copies q).restore t)
  /-- It stopped among the pages that have left the cache. All before-images of the transaction are gone. -/
  | aside (page : PageId) (b : BeforeImage) (hkept : (s.copies page).kept = some b) (howner : b.owner = t)
      (hstop : s.fault? page.table = some e)
      (hself : s'.copies page = (if page ∈ pages then (s.copies page).restore t else s.copies page).forget t)
      (hothers : ∀ q, s'.copies q = (if q ∈ pages then (s.copies q).restore t else s.copies q).forget t ∨
        s'.copies q = (s.copies q).rollback t (q ∈ pages))

/-- A rollback comes to its end, or to a page that is in the way. -/
theorem Store.Tidy.rollback (h : s.Tidy) (hm : s.pool.Maps) (t : TxnId) (pages : List PageId) :
    (Action.rollback t pages).Ends s
      (fun _ s' => s.Underway s' ∧ (∀ page e, ¬ s.InTheWay t pages page e) ∧
        ∀ q, s'.copies q = (s.copies q).rollback t (q ∈ pages))
      fun e s' => s.Underway s' ∧ s.Halfway t pages e s' := by
  have hpinned := hm.pinned pages
  have h₀ : s.Underway { s with trace := .undoing t :: s.trace } := (Store.Underway.refl h).note s.log (.undoing t)
  unfold Action.rollback
  rw [ends_bind, ends_note, ends_bind]
  refine Store.ends_withPinned fun s₁ hpin => ?_
  have h₁ := hpin.underway h₀
  have hcopies₁ : ∀ q, s₁.copies q = s.copies q := hpin.copies
  -- what is in the way is so from the beginning, whichever page comes first
  have hsame : ∀ q, s₁.hindrance? t q = s.hindrance? t q := fun q => by
    rw [Store.hindrance?, Store.hindrance?, hcopies₁, h₁.faults]
  refine (Store.Underway.restorePages (t := t) (h₁.tidy h) (h₁.maps hm) fun x hx =>
    (h₁.frames x.2).trans (hpinned x hx)).mono (fun _ s₂ h₂ s₃ hpin' => ?_) fun e s₂ h₂ s₃ hpin' => ?_
  · obtain ⟨h₂, hall, hcopies₂⟩ := h₂
    have h₃ := h₁.trans (hpin'.underway h₂)
    have hrestored : ∀ q, s₃.copies q = if q ∈ pages then (s.copies q).restore t else s.copies q := fun q => by
      rw [← Store.Whole.ite_cachedOf (fun _ => Copies.restore_of_uncached t) s pages q, ← hcopies₁]
      exact (hpin'.copies q).trans (hcopies₂ q)
    have hkept : ∀ q, (s₃.copies q).kept = (s.copies q).kept := fun q => by
      rw [hrestored]
      split
      · exact Copies.kept_restore t _
      · rfl
    have hclear : ∀ page ∈ pages, s.hindrance? t page = none :=
      forall_of_cachedOf (fun _ => Store.hindrance?_of_uncached) fun x hx => hsame x.1 ▸ hall x hx
    rw [ends_bind, ends_get, ends_bind, ends_modifyPool, ends_bind]
    refine (Store.Underway.restoreAllRetained (h₃.tidy h) t).mono (fun _ s₄ h₄ => ?_) fun e s₄ h₄ => ?_
    · obtain ⟨h₄, hfaults, hcopies₄⟩ := h₄
      rw [ends_bind, ends_append, ends_bind, ends_force, ends_note]
      refine ⟨(((h₃.trans h₄).note _ _).note _ _).note _ _, ?_, fun q => (hcopies₄ q).trans (congrArg _ (hrestored q))⟩
      intro page e hway
      rcases hway with ⟨hp, hstop⟩ | ⟨b, hb, howner, hstop⟩
      · rw [hclear page hp] at hstop
        cases hstop
      · have hnone := hfaults (page, b) (mem_retainedOf.2 ⟨(hkept page).trans hb, howner⟩)
        rw [h₃.faults, hstop] at hnone
        cases hnone
    · obtain ⟨h₄, x, hx, hstop, hself, hothers⟩ := h₄
      obtain ⟨hb, howner⟩ := mem_retainedOf.1 hx
      rw [h₃.faults] at hstop
      refine ⟨h₃.trans h₄, .aside x.1 x.2 ((hkept x.1).symm.trans hb) howner hstop
        (hself.trans (congrArg _ (hrestored x.1))) fun q => ?_⟩
      rw [← hrestored]
      exact (hothers q).imp_right fun hq => hq.trans (congrArg _ (hrestored q))
  · obtain ⟨h₂, x, hx, hstop, hself, hothers⟩ := h₂
    refine ⟨h₁.trans (hpin'.underway h₂), .cached x.1 (mem_cachedOf.1 hx).1 (hsame x.1 ▸ hstop) ?_ fun q hq => ?_⟩
    · rw [← hcopies₁]
      exact (hpin'.copies x.1).trans hself
    · rw [← hcopies₁]
      rcases hothers q hq with hleft | ⟨hin, -, hrestored⟩
      · exact .inl ((hpin'.copies q).trans hleft)
      · obtain ⟨y, hy, rfl⟩ := List.mem_map.1 hin
        exact .inr ⟨(mem_cachedOf.1 hy).1, (hpin'.copies y.1).trans hrestored⟩

/-- A transaction is rolled back, and gives its locks back in any case. -/
theorem Store.Tidy.complete_abort (h : s.Tidy) (hm : s.pool.Maps) (t : TxnId) :
    (Action.complete t false).Ends s
      (fun _ s' => s'.pool.locks.lockedBy t = [] ∧ s.Sized s' ∧
        (∀ page e, ¬ s.InTheWay t (s.pool.locks.lockedBy t) page e) ∧
        ∀ q, s'.copies q = (s.copies q).rollback t (q ∈ s.pool.locks.lockedBy t))
      fun e s' => s'.pool.locks.lockedBy t = [] ∧ s.Sized s' ∧ s.Spares s' ∧
        s.Halfway t (s.pool.locks.lockedBy t) e s' := by
  have h₁ : Store.Tidy (s.modifyPool fun p => p.pardon t) := h.of_sized (h.sized.withPool (h.pool.congr rfl rfl rfl))
  unfold Action.complete
  rw [ends_bind, ends_get]
  dsimp only
  rw [ends_bind, ends_modifyPool, Bool.false_and, if_neg Bool.false_ne_true, ends_bind, ends_andAlways]
  refine (h₁.rollback hm t _).mono (fun _ s' h' => ?_) fun e s' h' => ?_
  · obtain ⟨h', hdone⟩ := h'
    exact ⟨LockTable.lockedBy_releaseAll _ t, ⟨h'.sized.pool.congr rfl rfl rfl, h'.sized.grown, h'.sized.catalog⟩, hdone⟩
  · obtain ⟨h', hhalf⟩ := h'
    refine ⟨LockTable.lockedBy_releaseAll _ t, ⟨h'.sized.pool.congr rfl rfl rfl, h'.sized.grown, h'.sized.catalog⟩,
      h'.spares, ?_⟩
    cases hhalf with
    | cached page hp hstop hself hothers => exact .cached page hp hstop hself hothers
    | aside page b hkept howner hstop hself hothers => exact .aside page b hkept howner hstop hself hothers

/-! ## What is undone -/

/-- Whichever handle on its table the cache uses, a page has the given bytes in its file. -/
def Store.Holds (s : Store) (page : PageId) (bytes : Bytes) : Prop :=
  ∀ f ∈ s.volume.handles, f.id = page.table → f.pages.pageSize = s.pool.config.pageSize →
    s.volume.filePage f.name f.pages.pageSize page.number = bytes

instance (s : Store) (page : PageId) (bytes : Bytes) : Decidable (s.Holds page bytes) := List.decidableBAll ..

/-- Every page of which there is a before-image of a transaction has that content back, in the cache and in its file if
it had been changed there, or is still locked. -/
def Store.Undoes (s : Store) (t : TxnId) (s' : Store) : Prop :=
  ∀ page b, (s.copies page).before = some b → b.owner = t →
    page ∈ s'.pool.locks.lockedBy t ∨
      (∀ c, (s'.copies page).cached = some c → c.bytes = b.bytes) ∧ (b.onDisk = true → s'.Holds page b.bytes)

/-- The pages in the cache with a before-image of a transaction are locked by it. -/
def Store.Covers (s : Store) (t : TxnId) : Prop :=
  ∀ page, (s.copies page).imageOf? t ≠ none → page ∈ s.pool.locks.lockedBy t

/-- Before-images are kept aside of pages only that have left the cache. -/
def Store.Apart (s : Store) : Prop := ∀ page, (s.copies page).kept ≠ none → (s.copies page).cached = none

/-- No two files have one id. -/
def Volume.Distinct (v : Volume) : Prop := ∀ f ∈ v.handles, ∀ f' ∈ v.handles, f.id = f'.id → f.name = f'.name

instance (v : Volume) : Decidable v.Distinct := List.decidableBAll ..

/-- What a rollback would leave undone shows: a page that is in the way has other bytes in its file than before the
transaction, and one that is not locked any more has other bytes in the cache. -/
structure Store.Alters (s : Store) (t : TxnId) : Prop where
  file : ∀ page e b, s.InTheWay t (s.pool.locks.lockedBy t) page e → (s.copies page).before = some b →
    b.onDisk = true ∧ ¬ s.Holds page b.bytes
  cache : ∀ page b c, page ∉ s.pool.locks.lockedBy t → (s.copies page).imageOf? t = some b →
    (s.copies page).cached = some c → c.bytes ≠ b.bytes

namespace Copies

variable {x : Copies} {c : Copy} {b : BeforeImage}

theorem imageOf?_of_before (hx : x.cached = some c) (hb : x.before = some b) (howner : b.owner = t) :
    x.imageOf? t = some b := by
  have hbefore : c.before = some b := by rwa [before, hx] at hb
  rw [imageOf?, hx, Option.bind_some, hbefore, Option.filter_some, if_pos (decide_eq_true howner)]

theorem before_of_imageOf? (hb : x.imageOf? t = some b) :
    x.before = some b ∧ b.owner = t ∧ ∃ c, x.cached = some c := by
  obtain ⟨hbind, howner⟩ := Option.filter_eq_some_iff.1 hb
  obtain ⟨c, hc, hbefore⟩ := Option.bind_eq_some_iff.1 hbind
  exact ⟨by rw [before, hc]; exact hbefore, of_decide_eq_true howner, c, hc⟩

/-- A rollback undoes what is locked in the cache, -/
theorem rollback_cached {locked : Prop} [Decidable locked] (hl : locked) (hb : x.imageOf? t = some b)
    (hkept : x.kept = none) :
    x.rollback t locked = ⟨some ⟨b.bytes, none, none⟩, none, if b.onDisk then b.bytes else x.file⟩ := by
  rw [rollback, if_pos hl, restore_eq, hb]
  dsimp only
  rw [hkept]
  exact restoreKept_of_ne nofun

/-- and what has left it, -/
theorem rollback_aside {locked : Prop} [Decidable locked] (hx : x.cached = none) (hkept : x.kept = some b)
    (howner : b.owner = t) : x.rollback t locked = ⟨none, none, b.bytes⟩ := by
  rw [rollback, restore_of_uncached t hx, ite_self, restoreKept_of_some hkept howner, hx]

/-- and nothing that is in the cache and not locked. -/
theorem rollback_of_unlocked {locked : Prop} [Decidable locked] (hl : ¬ locked) (hkept : x.kept = none) :
    x.rollback t locked = x := by
  rw [rollback, if_neg hl]
  exact restoreKept_of_ne fun b hb => nomatch hkept.symm.trans hb

end Copies

theorem Store.imageOf?_of_hindrance? (h : s.hindrance? t page = some e) :
    ∃ b, (s.copies page).imageOf? t = some b ∧ b.onDisk = true ∧ s.fault? page.table = some e := by
  unfold hindrance? at h
  cases hb : (s.copies page).imageOf? t with
  | none =>
    rw [hb] at h
    cases h
  | some b =>
    rw [hb] at h
    have hd : b.onDisk = true := Classical.byContradiction fun hd => nomatch (if_neg hd).symm.trans h
    exact ⟨b, rfl, hd, (if_pos hd).symm.trans h⟩

theorem Store.Apart.kept_of_cached (h : s.Apart) {c : Copy} (hc : (s.copies page).cached = some c) :
    (s.copies page).kept = none :=
  Classical.byContradiction fun hk => nomatch hc.symm.trans (h page hk)

theorem Store.mem_cachedPages {c : Copy} (hc : (s.copies page).cached = some c) : page ∈ s.pool.cachedPages := by
  obtain ⟨f, hf, -⟩ := Option.map_eq_some_iff.1 hc
  exact Std.TreeMap.mem_keys.2 (Std.TreeMap.mem_iff_isSome_getElem?.2 (Option.isSome_of_eq_some hf))

/-- The page where a rollback has stopped is one that the transaction has changed. -/
theorem Store.Halfway.stopped (h : s.Halfway t pages e s') (hapart : s.Apart) :
    ∃ page b, s.InTheWay t pages page e ∧ (s.copies page).before = some b ∧ b.owner = t ∧
      s.fault? page.table = some e := by
  cases h with
  | cached page hp hstop =>
    obtain ⟨b, himage, -, hfault⟩ := Store.imageOf?_of_hindrance? hstop
    obtain ⟨hbefore, howner, -⟩ := Copies.before_of_imageOf? himage
    exact ⟨page, b, .inl ⟨hp, hstop⟩, hbefore, howner, hfault⟩
  | aside page b hkept howner hstop =>
    refine ⟨page, b, .inr ⟨b, hkept, howner, hstop⟩, ?_, howner, hstop⟩
    rw [Copies.before, hapart page (hkept ▸ Option.some_ne_none b)]
    exact hkept

/-! ### Files -/

/-- A page whose table the cache can use has in its file what the cache sees there. -/
theorem Store.Tidy.holds_onFile (h : s.Tidy) (hd : s.volume.Distinct) (hfault : s.fault? page.table = none) :
    s.Holds page (s.onFile page) := by
  intro f hf hid hsize
  unfold Store.fault? Volume.pageSize? at hfault
  cases ht : s.volume.table? s.catalog page.table with
  | none =>
    rw [ht] at hfault
    cases hfault
  | some x =>
    obtain ⟨hd', file⟩ := x
    rw [ht] at hfault
    have hfile := List.mem_of_getElem? (Volume.table?_eq_some_iff.1 ht).2
    have hsize' : file.pages.pageSize = s.pool.config.pageSize := by
      refine Classical.byContradiction fun hne => ?_
      exact nomatch hfault.symm.trans (if_neg hne)
    have hname : f.name = file.name := hd f hf file hfile (hid.trans (h.tables.id_eq ht).symm)
    rw [Store.onFile, Volume.pageBytes, ht, hname, hsize, ← hsize']
    rfl

/-- Files of one id are of one name still, when tables have grown. -/
theorem Volume.Distinct.grow {v v' : Volume} (h : v.Distinct) (e : v.Extends v') : v'.Distinct := by
  intro f₁ hf₁ f₂ hf₂ hid
  obtain ⟨i₁, hf₁⟩ := List.mem_iff_getElem?.1 hf₁
  obtain ⟨i₂, hf₂⟩ := List.mem_iff_getElem?.1 hf₂
  obtain ⟨g₁, hg₁, hshape₁⟩ := e.file_back hf₁
  obtain ⟨g₂, hg₂, hshape₂⟩ := e.file_back hf₂
  simp only [Volume.shape, Prod.mk.injEq] at hshape₁ hshape₂
  rw [hshape₁.2.1, hshape₂.2.1]
  exact h g₁ (List.mem_of_getElem? hg₁) g₂ (List.mem_of_getElem? hg₂) (by rw [← hshape₁.1, ← hshape₂.1, hid])

/-- A page of a table that the cache cannot use has in its file what it had there. -/
theorem Store.Spares.holds (h : s.Spares s') (hs : s.Sized s') (hfault : s.fault? page.table ≠ none) {bytes : Bytes}
    (hholds : s'.Holds page bytes) : s.Holds page bytes := by
  intro f hf hid hsize
  obtain ⟨hd, hf⟩ := List.mem_iff_getElem?.1 hf
  obtain ⟨f', hf', hshape, -⟩ := hs.grown.file hf
  simp only [Volume.shape, Prod.mk.injEq] at hshape
  obtain ⟨hid', hname, -, hsize'⟩ := hshape
  have hsame := h hd f hf (hid ▸ hfault)
  have hpage := hholds f' (List.mem_of_getElem? hf') (hid'.trans hid) (hsize'.trans (hsize.trans hs.pool.config.symm))
  rw [Volume.filePage, hname, hsize', hsame] at hpage
  exact hpage

/-! ### Outcomes -/

/-- A rollback that has come to its end has undone the transaction, if all that it has changed in the cache is locked. -/
theorem Store.Covers.undoes (h : s.Covers t) (hs : s'.Tidy) (hd : s'.volume.Distinct) (hapart : s.Apart)
    (hfaults : s'.fault? = s.fault?) (hclear : ∀ page e, ¬ s.InTheWay t (s.pool.locks.lockedBy t) page e)
    (hcopies : ∀ q, s'.copies q = (s.copies q).rollback t (q ∈ s.pool.locks.lockedBy t)) : s.Undoes t s' := by
  intro page b hbefore howner
  refine .inr ?_
  -- what the cache sees in the file is there, if the cache can use the table
  have hholds : s.fault? page.table = none → s'.Holds page (s'.copies page).file := fun hfault =>
    hs.holds_onFile hd (hfaults ▸ hfault)
  cases hc : (s.copies page).cached with
  | some c =>
    have himage := Copies.imageOf?_of_before hc hbefore howner
    have hl := h page (himage ▸ Option.some_ne_none b)
    have hpage := (hcopies page).trans (Copies.rollback_cached hl himage (hapart.kept_of_cached hc))
    refine ⟨fun c' hc' => ?_, fun hdisk => ?_⟩
    · rw [hpage] at hc'
      cases hc'
      rfl
    · have hfault : s.fault? page.table = none := by
        cases hf : s.fault? page.table with
        | none => rfl
        | some e =>
          refine absurd (.inl ⟨hl, ?_⟩) (hclear page e)
          rw [Store.hindrance?, himage]
          exact (if_pos hdisk).trans hf
      have hfile := hholds hfault
      rw [hpage] at hfile
      dsimp only at hfile
      rwa [if_pos hdisk] at hfile
  | none =>
    have hkept : (s.copies page).kept = some b := by rwa [Copies.before, hc] at hbefore
    have hpage := (hcopies page).trans (Copies.rollback_aside hc hkept howner)
    refine ⟨fun c' hc' => ?_, fun _ => ?_⟩
    · rw [hpage] at hc'
      cases hc'
    · have hfault : s.fault? page.table = none := by
        cases hf : s.fault? page.table with
        | none => rfl
        | some e => exact absurd (.inr ⟨b, hkept, howner, hf⟩) (hclear page e)
      have hfile := hholds hfault
      rwa [hpage] at hfile

/-- It has not, if something is left in the cache that is not locked. -/
theorem Store.Alters.covers (h : s.Alters t) (hapart : s.Apart)
    (hcopies : ∀ q, s'.copies q = (s.copies q).rollback t (q ∈ s.pool.locks.lockedBy t))
    (hfree : s'.pool.locks.lockedBy t = []) (hundoes : s.Undoes t s') : s.Covers t := by
  intro page himage
  obtain ⟨b, hb⟩ := Option.ne_none_iff_exists'.1 himage
  obtain ⟨hbefore, howner, c, hc⟩ := Copies.before_of_imageOf? hb
  refine Classical.byContradiction fun hout => ?_
  have hsame := (hcopies page).trans (Copies.rollback_of_unlocked hout (hapart.kept_of_cached hc))
  rcases hundoes page b hbefore howner with hin | ⟨hcache, -⟩
  · rw [hfree] at hin
    exact List.not_mem_nil hin
  · exact h.cache page b c hout hb hc (hcache c (hsame ▸ hc))

/-- A rollback that has stopped halfway has not undone the page where it stopped. -/
theorem Store.Alters.not_undoes (h : s.Alters t) (hapart : s.Apart) (hs : s.Sized s') (hspares : s.Spares s')
    (hhalf : s.Halfway t (s.pool.locks.lockedBy t) e s') (hfree : s'.pool.locks.lockedBy t = []) :
    ¬ s.Undoes t s' := by
  intro hundoes
  obtain ⟨page, b, hway, hbefore, howner, hfault⟩ := hhalf.stopped hapart
  obtain ⟨hdisk, hne⟩ := h.file page e b hway hbefore
  rcases hundoes page b hbefore howner with hin | ⟨-, hholds⟩
  · rw [hfree] at hin
    exact List.not_mem_nil hin
  · exact hne (hspares.holds hs (hfault ▸ Option.some_ne_none e) (hholds hdisk))

/-! ## Runs -/

namespace World

/-- What comes of a transaction that is rolled back. -/
structure Aborts (w : World) (t : TxnId) : Prop where
  /-- It has no locks any more, whatever it is told. -/
  unlocked : (Action.complete t false).Ends w.store (fun _ s => s.pool.locks.lockedBy t = [])
    fun _ s => s.pool.locks.lockedBy t = []
  /-- It is told that it has been rolled back if no page is in the way, and otherwise what is wrong with one. -/
  told : (Action.complete t false).Ends w.store
    (fun _ _ => ∀ page e, ¬ w.store.InTheWay t (w.store.pool.locks.lockedBy t) page e)
    fun e _ => ∃ page, w.store.InTheWay t (w.store.pool.locks.lockedBy t) page e
  /-- All its pages get their content back, or those before the one where the rollback stops. -/
  undone : (Action.complete t false).Ends w.store
    (fun _ s => ∀ page, s.copies page = (w.store.copies page).rollback t (page ∈ w.store.pool.locks.lockedBy t))
    fun e s => w.store.Halfway t (w.store.pool.locks.lockedBy t) e s ∧ w.store.Spares s
  /-- So the transaction is undone by the time its locks are given back exactly if no page is in the way, and all that it
  has changed in the cache is still locked. -/
  undoes_iff : w.store.volume.Distinct → w.store.Alters t →
    ((Action.complete t false).Ends w.store (fun _ s => w.store.Undoes t s) (fun _ s => w.store.Undoes t s) ↔
      (∀ page e, ¬ w.store.InTheWay t (w.store.pool.locks.lockedBy t) page e) ∧ w.store.Covers t)

/-- A rollback in a world that is in order. -/
theorem Balanced.aborts (hb : w.Balanced) (ht : w.store.Tidy) (t : TxnId) : w.Aborts t := by
  have hapart : w.store.Apart := fun page hk => Option.map_eq_none_iff.2 (hb.store.pool.retained page hk)
  have hend := ht.complete_abort hb.store.pool.mapped t
  exact {
    unlocked := hend.mono (fun _ _ h => h.1) fun _ _ h => h.1
    told := hend.mono (fun _ _ h => h.2.2.1) fun e s h => by
      obtain ⟨page, -, hway, -⟩ := h.2.2.2.stopped hapart
      exact ⟨page, hway⟩
    undone := hend.mono (fun _ _ h => h.2.2.2) fun _ _ h => ⟨h.2.2.2, h.2.2.1⟩
    undoes_iff := fun hd halters => by
      refine ends_iff <| hend.mono (fun _ s h => ?_) fun e s h => ?_
      · obtain ⟨hfree, hsized, hclear, hcopies⟩ := h
        have hfaults : s.fault? = w.store.fault? :=
          Store.fault?_congr hsized.grown hsized.catalog hsized.pool.config
        exact ⟨fun hundoes => ⟨hclear, halters.covers hapart hcopies hfree hundoes⟩, fun hgood =>
          hgood.2.undoes (ht.of_sized hsized) (hd.grow hsized.grown) hapart hfaults hclear hcopies⟩
      · obtain ⟨hfree, hsized, hspares, hhalf⟩ := h
        obtain ⟨page, -, hway, -⟩ := hhalf.stopped hapart
        exact iff_of_false (halters.not_undoes hapart hsized hspares hhalf hfree) fun hgood => hgood.1 page e hway }

/-- One page in the way is enough for a transaction to give its locks back before it is undone. -/
theorem Aborts.leaves (h : w.Aborts t) (hd : w.store.volume.Distinct) (halters : w.store.Alters t)
    (hway : w.store.InTheWay t (w.store.pool.locks.lockedBy t) page e) :
    ¬ (Action.complete t false).Ends w.store (fun _ s => w.store.Undoes t s) (fun _ s => w.store.Undoes t s) :=
  fun hundoes => ((h.undoes_iff hd halters).1 hundoes).1 page e hway

/-- Whatever has happened, a rollback gives its locks back. It has undone the transaction by then if the table of no page
is in the way. Otherwise it has stopped at such a page, and has not. -/
theorem handleAll_aborts {config : Config} (hp : s.pool = .ofConfig config) (hs : s.volume.Lists s.catalog)
    (events : List Event) (t : TxnId) : (handleAll events { store := s }).Aborts t := by
  obtain ⟨hb, ht⟩ := tidy_of_fresh hp hs events
  exact hb.aborts ht t

/-- The page of a second table. -/
def ofU : PageId := ⟨Volume.tableId "u", 0⟩

/-- A transaction changes pages of two tables. The first leaves the cache for the second, which is flushed. Then the
table of the second is taken out of the catalog. -/
def halfway : List Event :=
  [.create "u" ⟨[]⟩ 8, .register 1 "u", .op (.allocate 1),
    .op (.ask ⟨1⟩ ofU .write), .op (.advance 0), .op (.advance 0), .op (.advance 0), .op (.patch 0 0 [99]), .op (.drop 0),
    .op (.ask ⟨1⟩ (.ofT 0) .write), .op (.advance 0), .op (.advance 0), .op (.advance 0), .op (.patch 0 0 [98]),
    .op (.drop 0), .op (.flushPage (.ofT 0)), .op (.advance 0), .op (.advance 0),
    .unregisterAll, .register 1 "u"]

theorem locked_halfway : (handleAll halfway { store := .narrow }).store.pool.locks.lockedBy ⟨1⟩ = [.ofT 0, ofU] := by
  decide +kernel

/-- Both pages have been changed in their files, and nothing in the cache is without a lock. -/
theorem alters_halfway : (handleAll halfway { store := .narrow }).store.Alters ⟨1⟩ := by
  have hretained : ((handleAll halfway { store := .narrow }).store.pool.retainedOf ⟨1⟩).map Prod.fst = [ofU] := by
    decide +kernel
  have hcached : (handleAll halfway { store := .narrow }).store.pool.cachedPages = [.ofT 0] := by decide +kernel
  have hfiles : ∀ page ∈ [PageId.ofT 0, ofU],
      ((handleAll halfway { store := .narrow }).store.copies page).before.all fun b =>
        b.onDisk && !decide ((handleAll halfway { store := .narrow }).store.Holds page b.bytes) := by decide +kernel
  refine ⟨fun page e b hway hb => ?_, fun page b c hout _ hc => ?_⟩
  · have hin : page ∈ [PageId.ofT 0, ofU] := by
      rcases hway with ⟨hp, -⟩ | ⟨b', hb', howner, -⟩
      · rwa [locked_halfway] at hp
      · have hmem := List.mem_map_of_mem (f := Prod.fst) (mem_retainedOf.2 ⟨hb', howner⟩)
        rw [hretained] at hmem
        exact List.mem_cons_of_mem _ hmem
    have hfile := hfiles page hin
    rw [hb] at hfile
    simpa using hfile
  · have hmem := Store.mem_cachedPages hc
    rw [hcached] at hmem
    rw [locked_halfway] at hout
    exact absurd (List.mem_cons.2 (.inl (List.mem_singleton.1 hmem))) hout

theorem handleAll_aborts_halfway :
    Store.narrow.pool = .ofConfig { pageSize := 8, poolPages := 1 } ∧ Store.narrow.volume.Lists Store.narrow.catalog ∧
      (handleAll halfway { store := .narrow }).store.volume.Distinct ∧
      (handleAll halfway { store := .narrow }).store.Alters ⟨1⟩ ∧
      (handleAll halfway { store := .narrow }).store.InTheWay ⟨1⟩ [.ofT 0, ofU] (.ofT 0)
        (.noSuchTable (PageId.ofT 0).table) ∧
      (handleAll halfway { store := .narrow }).Aborts ⟨1⟩ := by
  have hlists : Store.narrow.volume.Lists Store.narrow.catalog := Store.lists_ofFile ..
  have hp : Store.narrow.pool = .ofConfig { pageSize := 8, poolPages := 1 } := rfl
  exact ⟨hp, hlists, by decide +kernel, alters_halfway, .inl ⟨by decide +kernel, by decide +kernel⟩,
    handleAll_aborts hp hlists halfway ⟨1⟩⟩

/-- The transaction is rolled back, and another reads the page of the second table, which has been there all the time. -/
def reread : List Event := halfway ++ [.complete ⟨1⟩ false, .op (.ask ⟨2⟩ ofU .read), .op (.advance 0), .op (.advance 0),
  .op (.advance 0)]

/-- The rollback stops at the page whose table is missing, and all locks are given back. The other page is not undone,
although its table is there: another transaction is granted it as it was left. -/
theorem handleAll_aborts_unfinished :
    (handleAll halfway { store := .narrow }).store.fault? ofU.table = none ∧
      ¬ (Action.complete ⟨1⟩ false).Ends (handleAll halfway { store := .narrow }).store
        (fun _ s => (handleAll halfway { store := .narrow }).store.Undoes ⟨1⟩ s)
        (fun _ s => (handleAll halfway { store := .narrow }).store.Undoes ⟨1⟩ s) ∧
      ((handleAll halfway { store := .narrow }).store.copies ofU).kept.map BeforeImage.bytes =
        some [0, 0, 0, 0, 0, 0, 0, 0] ∧
      (handleAll reread { store := .narrow }).store.pool.locks.lockedBy ⟨1⟩ = [] ∧
      (handleAll reread { store := .narrow }).store.pool.locks.lockedBy ⟨2⟩ = [ofU] ∧
      ((handleAll reread { store := .narrow }).store.copies ofU).cached.map Copy.bytes =
        some [99, 0, 0, 0, 0, 0, 0, 0] := by
  obtain ⟨hb, ht⟩ := tidy_of_fresh (s := .narrow) rfl (Store.lists_ofFile ..) halfway
  have hd : (handleAll halfway { store := .narrow }).store.volume.Distinct := by decide +kernel
  have hin : PageId.ofT 0 ∈ (handleAll halfway { store := .narrow }).store.pool.locks.lockedBy ⟨1⟩ := by decide +kernel
  have hstop : (handleAll halfway { store := .narrow }).store.hindrance? ⟨1⟩ (.ofT 0) =
      some (.noSuchTable (PageId.ofT 0).table) := by decide +kernel
  exact ⟨by decide +kernel, (hb.aborts ht ⟨1⟩).leaves hd alters_halfway (.inl ⟨hin, hstop⟩), by decide +kernel,
    by decide +kernel, by decide +kernel, by decide +kernel⟩

end World

end TupleStore
