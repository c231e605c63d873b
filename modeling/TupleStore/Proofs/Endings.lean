import TupleStore.Proofs.Discards
import TupleStore.Proofs.Doomed
import TupleStore.Proofs.Lock.Waiting

/-!
# What the end of a transaction leaves

A transaction that ends is gone: its locks, its before-images and its marks are, and it neither waits nor is doomed.
Nothing of anybody else goes with it (`Store.Clears`). That is so after whatever has happened, with one exception
(`World.handleAll_clears`). A page can be discarded while a call has it in use to change it, and come back before the
call ends. The call then marks the new frame of the page, which has no before-image, and a rollback looks for those
only: the mark stays (`World.handleAll_clears_astray`).
-/

namespace TupleStore

set_option autoImplicit false

open TupleStore.Action

/-! ## Copies of a page -/

/-- Before-images and marks of a transaction are gone from the copies of a page, and those of others are as they were.
Nothing is said of marks of transactions that have gone astray. -/
structure Copies.Clears (x : Copies) (t : TxnId) (stray : TxnId → Prop) (y : Copies) : Prop where
  images : y.cached.bind Copy.before = (x.cached.bind Copy.before).filter fun b => b.owner ≠ t
  kept : y.kept = x.kept.filter fun b => b.owner ≠ t
  marks : ∀ v, ¬ stray v → (y.cached.bind Copy.dirtyBy = some v ↔ v ≠ t ∧ x.cached.bind Copy.dirtyBy = some v)

namespace Copies.Drafted

variable {mode : TxnId → Option LockMode} {busy stray : TxnId → Prop} {x : Copies} {d : Draft} {t : TxnId}

theorem before_of_cached {b : BeforeImage} (hb : x.cached.bind Copy.before = some b) : x.before = some b := by
  obtain ⟨c, hc, hb⟩ := Option.bind_eq_some_iff.1 hb
  rw [before, hc]
  exact hb

theorem before_of_kept (h : Drafted mode busy stray x d) {b : BeforeImage} (hb : x.kept = some b) : x.before = some b := by
  cases hc : x.cached with
  | none => rw [before, hc, hb]
  | some c => cases (h.apart c hc).symm.trans hb

/-- A mark of a transaction that has not gone astray shows that it has the page open. -/
theorem owner_of_mark (h : Drafted mode busy stray x d) {v : TxnId} (hv : ¬ stray v)
    (hm : x.cached.bind Copy.dirtyBy = some v) : d.owner = some v := by
  obtain ⟨c, hc, hm⟩ := Option.bind_eq_some_iff.1 hm
  obtain ⟨b, hb, rfl⟩ := (h.marked c v hc hm).resolve_left hv
  exact h.owned b (before_of_cached (by rw [hc]; exact hb))

/-- On a page that the transaction has not open, there is nothing of it. -/
theorem clears_of_ne (h : Drafted mode busy stray x d) (hd : d.owner ≠ some t) : x.Clears t stray x where
  images := (filter_ne fun b hb e => hd ((h.owned b (before_of_cached hb)).trans (congrArg some e))).1.symm
  kept := (filter_ne fun b hb e => hd ((h.owned b (h.before_of_kept hb)).trans (congrArg some e))).1.symm
  marks _ hv := ⟨fun hm => ⟨fun e => hd (e ▸ h.owner_of_mark hv hm), hm⟩, And.right⟩

/-- A page that nobody has open has no before-image, and no mark but of a transaction that has gone astray. -/
theorem clears_of_unowned {mode' : TxnId → Option LockMode} {busy' : TxnId → Prop} {y : Copies} {d' : Draft}
    (h : Drafted mode busy stray x d) (hd : ∀ v, d.owner = some v → v = t) (hy : Drafted mode' busy' stray y d')
    (hd' : d'.owner = none) : x.Clears t stray y where
  images := by
    rw [(filter_eq fun b hb => hd _ (h.owned b (before_of_cached hb))).1, Option.eq_none_iff_forall_ne_some]
    exact fun b hb => nomatch hd'.symm.trans (hy.owned b (before_of_cached hb))
  kept := by
    rw [(filter_eq fun b hb => hd _ (h.owned b (h.before_of_kept hb))).1, Option.eq_none_iff_forall_ne_some]
    exact fun b hb => nomatch hd'.symm.trans (hy.owned b (hy.before_of_kept hb))
  marks v hv := iff_of_false (fun hm => nomatch hd'.symm.trans (hy.owner_of_mark hv hm)) fun ⟨hne, hm⟩ =>
    hne (hd v (h.owner_of_mark hv hm))

/-- What the end of a transaction does to a page. To one that it had not locked, it does nothing. -/
theorem clears (h : Drafted mode busy stray x d) (commits : Bool) {locked : Prop} [Decidable locked]
    (hlocked : d.owner = some t → locked) (halone : locked → ∀ v, d.owner = some v → v = t)
    (hidle : d.owner = some t → ∀ u, ¬ busy u) :
    x.Clears t stray (x.complete t commits locked) ∧ (¬ locked → x.complete t commits locked = x) := by
  by_cases hl : locked
  · have hy : Drafted mode busy stray (x.complete t commits locked) (d.complete t commits) :=
      h.complete commits hlocked hidle fun _ _ hm => hm
    refine ⟨h.clears_of_unowned (halone hl) hy ?_, fun hn => absurd hl hn⟩
    unfold Draft.complete
    split
    · rfl
    · rename_i hd
      exact Option.eq_none_iff_forall_ne_some.2 fun v hv => hd (halone hl v hv ▸ hv)
  · have hd : d.owner ≠ some t := fun ho => hl (hlocked ho)
    have hsame : x.complete t commits locked = x := by
      cases commits with
      | true => exact (h.commit_of_ne hd locked).trans (if_neg hl)
      | false => exact h.rollback_of_ne hd locked
    rw [hsame]
    exact ⟨h.clears_of_ne hd, fun _ => rfl⟩

/-- A commit leaves no mark at all. -/
theorem clean_commit {locked : Prop} [Decidable locked] (hl : locked) (x : Copies) (t : TxnId) :
    (x.complete t true locked).cached.bind Copy.dirtyBy = none := by
  rw [Copies.complete, if_pos rfl, Copies.commit, if_pos hl]
  exact Option.bind_eq_none_iff.2 (clean_flush (x.take t))

end Copies.Drafted

/-! ## The whole store -/

/-- What goes with a transaction that ends, and what stays. -/
structure Store.Clears (s : Store) (d : PageId → Draft) (stray : PageId → TxnId → Prop) (t : TxnId) (commits : Bool)
    (s' : Store) : Prop where
  locks : ∀ v page, s'.mode? v page = if v = t then none else s.mode? v page
  waiting : ∀ v : TxnId, s'.pool.locks.waiting[v]? = if v = t then none else s.pool.locks.waiting[v]?
  doomed : ∀ v, s'.pool.isDoomed v = (s.pool.isDoomed v && decide (t ≠ v))
  pages : ∀ page, (s.copies page).Clears t (stray page) (s'.copies page)
  /-- A page is as it was, on disk and in the cache, if the transaction had not locked it, -/
  unlocked : ∀ page, s.mode? t page = none → s'.copies page = s.copies page
  /-- or if somebody else has changed it, or may change it. -/
  others : ∀ page v, v ≠ t → (d page).owner = some v ∨ s.mode? v page = some .write → s'.copies page = s.copies page
  /-- A commit leaves no mark at all on the pages that the transaction had locked. -/
  clean : commits = true → ∀ page, s.mode? t page ≠ none → (s'.copies page).cached.bind Copy.dirtyBy = none

variable {s₀ s s' : Store} {w : World} {stray : PageId → TxnId → Prop} {d : PageId → Draft} {uses : List Use} {t : TxnId}

theorem Store.Honors.clears (h : s.Honors s₀ stray d uses) (haway : ∀ u ∈ uses, ∀ m, u.holder ≠ some (t, m))
    {commits : Bool} (hs : s.Settles s' t commits) (hdoomed : s'.pool.isDoomed = (s.pool.pardon t).isDoomed) :
    s.Clears d stray t commits s' := by
  have hlocks := h.whole.locks
  have hmem : ∀ page, page ∈ s.pool.locks.lockedBy t ↔ s.mode? t page ≠ none := fun page =>
    LockTable.mem_lockedBy hlocks
  have hlone : ∀ page v, s.mode? v page = some .write → s.mode? t page ≠ none → v = t := fun page v hv hl =>
    (hlocks.eq_of_write hv hl).symm
  have hpages : ∀ page, (s.copies page).Clears t (stray page) (s'.copies page) ∧
      (page ∉ s.pool.locks.lockedBy t → s'.copies page = s.copies page) := fun page => by
    rw [hs.copies]
    refine (h.pages page).clears commits (fun ho => (hmem page).2 fun hn => ?_) (fun hl v hv => ?_) (h.not_worksOn haway)
    · exact nomatch hn.symm.trans ((h.pages page).locked t ho)
    · exact hlone page v ((h.pages page).locked v hv) ((hmem page).1 hl)
  have hunlocked : ∀ page, s.mode? t page = none → s'.copies page = s.copies page := fun page hn =>
    (hpages page).2 fun hl => (hmem page).1 hl hn
  exact {
    locks := fun v page => by
      rw [Store.mode?, hs.locks, LockTable.mode?_releaseAll hlocks]
      rfl
    waiting := fun v => by rw [hs.locks, LockTable.waiting_releaseAll]
    doomed := fun v => by rw [hdoomed, Pool.isDoomed_pardon]
    pages := fun page => (hpages page).1
    unlocked := hunlocked
    others := fun page v hv ho => by
      have hmode : s.mode? v page = some .write := ho.elim ((h.pages page).locked v) id
      refine hunlocked page (Option.eq_none_iff_forall_ne_some.2 fun m hm => hv ?_)
      exact hlone page v hmode (hm ▸ Option.some_ne_none m)
    clean := fun hc page hl => by
      subst hc
      rw [hs.copies]
      exact Copies.Drafted.clean_commit ((hmem page).2 hl) _ t }

/-! ## Runs -/

namespace World

/-- A transaction has gone astray on a page at some moment. -/
def HasStrayed (events : List Event) (w : World) (page : PageId) (t : TxnId) : Prop :=
  ∃ before, before <+: events ∧ (handleAll before w).Strays page t

/-- A transaction that has no guards ends without an error, or is doomed and does not get its commit. Either way it
leaves nothing behind, and changes nothing of others. -/
def Clears (w : World) (d : PageId → Draft) (stray : PageId → TxnId → Prop) : Prop :=
  ∀ t wantsCommit, w.uses? t = false → (Action.complete t wantsCommit).Ends w.store
    (fun _ s => w.store.Clears d stray t wantsCommit s)
    fun e s => e = .deadlock t ∧ wantsCommit = true ∧ w.store.pool.isDoomed t = true ∧ w.store.Clears d stray t false s

/-- Whatever has happened, a transaction that ends leaves nothing behind and changes nothing of others. At most it
leaves a mark on a page that was discarded while a call had it in use to change it. -/
theorem handleAll_clears (o : Opening s₀) (events : List Event) (htame : ∀ e ∈ events, e.Tame) :
    (handleAll events { store := s₀ }).Clears
      (draftsAfter events { store := s₀ } fun page => .ofBytes (s₀.onFile page)) (HasStrayed events { store := s₀ }) := by
  intro t wantsCommit hu
  have h := (o.promised (HasStrayed events { store := s₀ })).handleAll htame fun before hb _ _ hs => ⟨before, hb, hs⟩
  have haway := away_of_uses? s₀ hu
  refine ((h.store.whole.complete haway wantsCommit).and (ends_complete_pardons t wantsCommit _)).mono
    (fun _ s hs => ?_) fun e s hs => ?_
  · obtain ⟨⟨-, hs, -⟩, hpardon⟩ := hs
    exact h.store.clears haway hs hpardon
  · obtain ⟨⟨-, hs, he, hw, hdoomed⟩, hpardon⟩ := hs
    exact ⟨he, hw, hdoomed, h.store.clears haway hs hpardon⟩

theorem handleAll_clears_discarding :
    Opening .narrow ∧ (∀ e ∈ discarding, e.Tame) ∧
      (handleAll discarding { store := .narrow }).Clears
        (draftsAfter discarding { store := .narrow } fun page => .ofBytes (Store.narrow.onFile page))
        (HasStrayed discarding { store := .narrow }) ∧
      (handleAll discarding { store := .narrow }).uses? ⟨1⟩ = false ∧
      ((handleAll discarding { store := .narrow }).store.copies (.ofT 0)).kept.map BeforeImage.owner = some ⟨1⟩ ∧
      (((handleAll discarding { store := .narrow }).apply (.complete ⟨1⟩ true)).store.copies (.ofT 0)).kept = none := by
  have htame : ∀ e ∈ discarding, e.Tame := by simp [discarding, Event.Tame, Op.Cached]
  exact ⟨Opening.narrow, htame, handleAll_clears Opening.narrow discarding htame, by decide +kernel, by decide +kernel,
    by decide +kernel⟩

end World

/-- A store with two frames, just opened on a file of integers that has one page, with room for one. -/
def Store.ofPage : Store :=
  .ofFile { pageSize := 8, poolPages := 2 } (.memory {}) ⟨[⟨.int, none⟩]⟩ "t" (List.replicate 8 0)

namespace World

/-- A transaction reads a page, and begins to insert a tuple into it. The call has to wait for the frame. Meanwhile the
page is discarded, and the transaction has it again to read. Then the call goes on, in the old frame. -/
def straying : List Event :=
  [.op (.ask ⟨1⟩ (.ofT 0) .read), .op (.advance 0), .op (.advance 0), .op (.advance 0),
    .op (.begin (.insertById ⟨1⟩ (PageId.ofT 0).table ⟨⟨[⟨.int, none⟩]⟩, [.int 7], none, rfl⟩)), .op (.advance 0),
    .op (.advance 0), .discard (.ofT 0), .op (.ask ⟨1⟩ (.ofT 0) .read), .op (.advance 0), .op (.advance 0),
    .op (.advance 0), .op (.drop 1), .op (.advance 0), .op (.drop 0)]

/-- The rollback of a transaction that has gone astray leaves its mark on a page that holds nothing new. -/
theorem handleAll_clears_astray :
    Opening .ofPage ∧ (∀ e ∈ straying, e.Tame) ∧ (handleAll straying { store := .ofPage }).uses? ⟨1⟩ = false ∧
      (let s := ((handleAll straying { store := .ofPage }).apply (.complete ⟨1⟩ false)).store;
        (s.copies (.ofT 0)).cached.bind Copy.dirtyBy = some ⟨1⟩ ∧
          (s.copies (.ofT 0)).cached.map Copy.bytes = some (s.onFile (.ofT 0))) := by
  have htame : ∀ e ∈ straying, e.Tame := by simp [straying, Event.Tame, Op.Cached]
  exact ⟨Opening.ofFile (by decide) .., htame, by decide +kernel, by decide +kernel, by decide +kernel⟩

end World

end TupleStore
