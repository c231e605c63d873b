import TupleStore.Proofs.Rollbacks

/-!
# Commits that fail

A commit puts the changes of its transaction into the log, and then that it has committed; the log is forced, and the
pages are written. Only the last of this can fail: the table of a page has gone from the catalog, or has come back with
pages of another size. The transaction is told that its commit has failed, and the log has it all the same
(`World.Commits`). By then the before-images of its pages in the cache have been given up. A rollback that follows
undoes changes of pages that had left the cache, and no others (`World.Strands`).

* `Tidy.complete_commit` : what a commit comes to, and what it leaves of the pages when it fails (`Store.Halts`);
* `Tidy.complete_rollback` : what can still be undone;
* `World.handleAll_commits` : both, whatever has happened before.
-/

namespace TupleStore

set_option autoImplicit false

open TupleStore.Action

variable {s₀ s s' : Store} {w : World} {f : FrameId} {page : PageId} {t : TxnId}

/-! ## Commits -/

/-- A record has been put into the log. -/
def Store.Logs (s : Store) (r : LogRecord) (s' : Store) : Prop :=
  ∃ later earlier, s'.trace = later ++ .logged r :: (earlier ++ s.trace)

/-- A record has been put into the log, and the log has been forced since. -/
def Store.Secures (s : Store) (r : LogRecord) (s' : Store) : Prop :=
  ∃ later earlier, s'.trace = later ++ .logged r :: (earlier ++ s.trace) ∧ .forced ∈ later

namespace Store.Secures

variable {r : LogRecord}

theorem logs (h : s.Secures r s') : s.Logs r s' := by
  obtain ⟨later, earlier, htrace, -⟩ := h
  exact ⟨later, earlier, htrace⟩

theorem grown {P : Effect → Prop} (h : s₀.Secures r s) (hg : Grown P s.trace s'.trace) : s₀.Secures r s' := by
  obtain ⟨later, earlier, htrace, hforced⟩ := h
  obtain ⟨more, hmore, -⟩ := hg
  exact ⟨more ++ later, earlier, by rw [hmore, htrace, List.append_assoc], List.mem_append_right _ hforced⟩

end Store.Secures

namespace Copies

theorem dirtyBy_take (t : TxnId) (x : Copies) : (x.take t).cached.bind Copy.dirtyBy = x.cached.bind Copy.dirtyBy := by
  unfold take
  cases x.cached <;> rfl

/-- What a page has in the cache is not lost with its before-image, -/
theorem bytes_take (t : TxnId) (x : Copies) : (x.take t).cached.map Copy.bytes = x.cached.map Copy.bytes := by
  unfold take
  cases x.cached <;> rfl

/-- nor when it is written. -/
theorem bytes_flush (x : Copies) : x.flush.cached.map Copy.bytes = x.cached.map Copy.bytes := by
  unfold flush
  split
  · rfl
  · rename_i c hc
    split
    · rfl
    · rw [hc]
      rfl

theorem kept_flush (x : Copies) : x.flush.kept = x.kept := by
  unfold flush
  split
  · rfl
  · split <;> rfl

end Copies

/-- A commit has failed: the pages have given up the before-images of the transaction, and some of them are written. -/
structure Store.Halts (s : Store) (t : TxnId) (pages : List PageId) (s' : Store) : Prop where
  locked : ∀ page ∈ pages, s'.copies page = (s.copies page).take t ∨ s'.copies page = ((s.copies page).take t).flush
  unlocked : ∀ page, page ∉ pages → s'.copies page = s.copies page

/-- A commit is in the log however it ends. It fails if something is in the way of one of the pages. -/
theorem Store.Tidy.commit (h : s.Tidy) (hm : s.pool.Maps) (t : TxnId) (pages : List PageId) :
    (Action.commit t pages).Ends s
      (fun _ s' => s.Secures (.commit t) s' ∧ ∀ page ∈ pages, s.obstacle? page = none)
      fun e s' => s.Underway s' ∧ s.Secures (.commit t) s' ∧ s.Halts t pages s' ∧
        ∃ page ∈ pages, s.obstacle? page = some e := by
  have hpinned := hm.pinned pages
  unfold Action.commit
  rw [ends_bind]
  refine Store.ends_withPinned fun s₁ hpin => ?_
  have h₁ := hpin.underway (.refl h)
  rw [ends_bind]
  refine (Store.Underway.logChanges (h₁.tidy h) (h₁.maps hm) fun x hx => (h₁.frames x.2).trans (hpinned x hx)).mono
    (fun _ s₂ h₂ => ?_) fun _ _ h' => h'.elim
  obtain ⟨h₂, hcopies₂⟩ := h₂
  rw [ends_bind, ends_append, ends_bind, ends_force]
  let s₃ : Store :=
    { s₂ with log := (s₂.log.append (.commit t)).force, trace := .forced :: .logged (.commit t) :: s₂.trace }
  have h₃ : s.Underway s₃ := ((h₁.trans h₂).note (s₂.log.append (.commit t)) (.logged (.commit t))).note _ .forced
  have hsecured : s.Secures (.commit t) s₃ := by
    obtain ⟨more, hmore, -⟩ := (h₁.trans h₂).trace
    exact ⟨[.forced], more, congrArg (fun l => .forced :: .logged (.commit t) :: l) hmore, List.mem_cons_self ..⟩
  have hcopies₃ : ∀ q, s₃.copies q = if q ∈ pages then (s.copies q).take t else s.copies q := fun q => by
    rw [← Store.Whole.ite_cachedOf (fun _ => Copies.take_of_uncached t) s pages q, ← hpin.copies]
    exact hcopies₂ q
  have hobstacle : ∀ q, s₃.obstacle? q = s.obstacle? q := fun q => h₃.obstacle?_eq <| by
    rw [hcopies₃]
    split
    · exact Copies.dirtyBy_take t _
    · rfl
  refine (Store.Underway.writeBackAll (h₃.tidy h) (h₃.maps hm) fun x hx => (h₃.frames x.2).trans (hpinned x hx)).mono
    (fun _ s₄ h₄ s₅ hpin' => ?_) fun e s₄ h₄ s₅ hpin' => ?_
  · rw [ends_bind, ends_modifyPool, ends_note]
    refine ⟨hsecured.grown ((hpin'.underway h₄.1).trace.cons (.completed t true) trivial), ?_⟩
    exact forall_of_cachedOf (fun _ => Store.obstacle?_of_uncached) fun x hx => hobstacle x.1 ▸ h₄.2 x hx
  · obtain ⟨h₄, ⟨x, hx, hstop⟩, hcopies₄⟩ := h₄
    have h₅ := hpin'.underway h₄
    refine ⟨h₃.trans h₅, hsecured.grown h₅.trace, ⟨fun q hq => ?_, fun q hq => ?_⟩, x.1, (mem_cachedOf.1 hx).1,
      hobstacle x.1 ▸ hstop⟩
    · have htaken : s₃.copies q = (s.copies q).take t := (hcopies₃ q).trans (if_pos hq)
      rw [← htaken]
      exact (hcopies₄ q).imp (hpin'.copies q).trans fun hh => (hpin'.copies q).trans hh.2
    · have hout : q ∉ (cachedOf s.pool pages).map Prod.fst := fun hin => by
        obtain ⟨x, hx, rfl⟩ := List.mem_map.1 hin
        exact hq (mem_cachedOf.1 hx).1
      calc _ = s₄.copies q := hpin'.copies q
        _ = s₃.copies q := (hcopies₄ q).resolve_right fun hh => hout hh.1
        _ = s.copies q := (hcopies₃ q).trans (if_neg hq)

/-- A transaction that is not doomed asks for its commit. -/
theorem Store.Tidy.complete_commit (h : s.Tidy) (hm : s.pool.Maps) (hd : s.pool.isDoomed t = false) :
    (Action.complete t true).Ends s
      (fun _ s' => s.Secures (.commit t) s' ∧ ∀ page ∈ s.pool.locks.lockedBy t, s.obstacle? page = none)
      fun e s' => s.Secures (.commit t) s' ∧ s.Halts t (s.pool.locks.lockedBy t) s' ∧
        (∃ page ∈ s.pool.locks.lockedBy t, s.obstacle? page = some e) ∧ s'.pool.locks.lockedBy t = [] := by
  have h₁ : Store.Tidy (s.modifyPool fun p => p.pardon t) := h.of_sized (h.sized.withPool (h.pool.congr rfl rfl rfl))
  have hc : (true && !s.pool.isDoomed t) = true := by rw [hd]; rfl
  unfold Action.complete
  rw [ends_bind, ends_get]
  dsimp only
  rw [ends_bind, ends_modifyPool, if_pos hc, ends_bind, ends_andAlways]
  have hunlock : ∀ {s' : Store}, s.Secures (.commit t) s' → s.Secures (.commit t) (unlock t s') := fun hsecured =>
    hsecured.grown ((Grown.refl _).cons (P := fun _ => True) (.unlocked t) trivial)
  refine (h₁.commit hm t _).mono (fun _ s' h' => ?_) fun e s' h' => ?_
  · exact ⟨hunlock h'.1, h'.2⟩
  · obtain ⟨-, hsecured, hhalts, hstop⟩ := h'
    exact ⟨hunlock hsecured, ⟨hhalts.locked, hhalts.unlocked⟩, hstop, LockTable.lockedBy_releaseAll _ t⟩

/-! ## Rollbacks -/

/-- The rollback of a transaction that has no locks gives those pages their content back that have left the cache, and
no others. -/
theorem Store.Tidy.complete_rollback (h : s.Tidy) (hm : s.pool.Maps) (hnone : s.pool.locks.lockedBy t = [])
    (hfaults : ∀ x ∈ s.pool.retainedOf t, s.fault? x.1.table = none) :
    (Action.complete t false).Ends s (fun _ s' => ∀ q, s'.copies q = (s.copies q).restoreKept t) fun _ _ => False := by
  refine (h.complete_abort hm t).mono (fun _ s' h' q => ?_) fun e s' h' => ?_
  · obtain ⟨-, -, -, hcopies⟩ := h'
    rw [hcopies, Copies.rollback, if_neg]
    rw [hnone]
    exact List.not_mem_nil
  · obtain ⟨-, -, -, hhalf⟩ := h'
    cases hhalf with
    | cached page hp =>
      rw [hnone] at hp
      exact List.not_mem_nil hp
    | aside page b hkept howner hstop =>
      have hfault := hfaults (page, b) (mem_retainedOf.2 ⟨hkept, howner⟩)
      exact Option.some_ne_none e (hstop.symm.trans hfault)

/-! ## Runs -/

/-- Tables come into the catalog, or leave it. -/
def Event.Catalogs : Event → Prop
  | .register _ _ => True
  | .unregisterAll => True
  | _ => False

namespace World

/-- Where a commit that fails leaves its transaction. -/
structure Strands (w : World) (t : TxnId) (w' : World) : Prop where
  halts : w.store.Halts t (w.store.pool.locks.lockedBy t) w'.store
  /-- Whatever tables come and go then, a rollback gives the pages that had left the cache their content from before
  the transaction. Nothing is undone on other pages: in the cache, they keep what the transaction has made of them. -/
  undone : ∀ changes : List Event, (∀ e ∈ changes, e.Catalogs) →
    (∀ page b, (w.store.copies page).kept = some b → b.owner = t →
      (handleAll changes w').store.fault? page.table = none) →
    (Action.complete t false).Ends (handleAll changes w').store
      (fun _ s =>
        (∀ page b, (w.store.copies page).kept = some b → b.owner = t → s.copies page = ⟨none, none, b.bytes⟩) ∧
        (∀ page, (∀ b, (w.store.copies page).kept = some b → b.owner ≠ t) →
          s.copies page = (handleAll changes w').store.copies page) ∧
        ∀ page, (s.copies page).cached.map Copy.bytes = (w.store.copies page).cached.map Copy.bytes)
      fun _ _ => False

/-- What comes of a transaction that asks for its commit. -/
structure Commits (w : World) (t : TxnId) : Prop where
  /-- That it has committed is in the forced log, whatever it is told. -/
  secured : (Action.complete t true).Ends w.store (fun _ s => w.store.Secures (.commit t) s)
    fun _ s => w.store.Secures (.commit t) s
  /-- It is told so if none of the pages that it has locked is in the way, and otherwise what is wrong with one. -/
  told : (Action.complete t true).Ends w.store
    (fun _ _ => ∀ page ∈ w.store.pool.locks.lockedBy t, w.store.obstacle? page = none)
    fun e _ => ∃ page ∈ w.store.pool.locks.lockedBy t, w.store.obstacle? page = some e
  /-- So the log has what the transaction is told exactly if no page is in the way. -/
  agrees_iff : (Action.complete t true).Ends w.store (fun _ s => w.store.Logs (.commit t) s)
      (fun _ s => ¬ w.store.Logs (.commit t) s) ↔
    ∀ page ∈ w.store.pool.locks.lockedBy t, w.store.obstacle? page = none
  failed : (Action.complete t true).Ends w.store (fun _ _ => True) fun _ s => w.Strands t { w with store := s }

/-- Nothing but the catalog changes as tables come and go. -/
theorem handleAll_catalogs (changes : List Event) (hc : ∀ e ∈ changes, e.Catalogs) :
    ∃ c, handleAll changes w = { w with store := { w.store with catalog := c } } := by
  induction changes generalizing w with
  | nil => exact ⟨w.store.catalog, rfl⟩
  | cons e changes ih =>
    obtain ⟨c, he⟩ : ∃ c, w.handle e = { w with store := { w.store with catalog := c } } := by
      cases e with
      | register hd name =>
        unfold World.handle
        refine of_perform (P := fun w' => ∃ c, w' = { w with store := { w.store with catalog := c } }) ?_
        unfold Action.register
        rw [ends_bind]
        refine (ends_file hd).mono (fun file s hs => ?_) fun _ s hs => ⟨w.store.catalog, hs ▸ rfl⟩
        obtain ⟨rfl, -⟩ := hs
        exact ⟨_, rfl⟩
      | unregisterAll => exact ⟨_, rfl⟩
      | _ => exact (hc _ (List.mem_cons_self ..)).elim
    obtain ⟨c', hchanges⟩ := ih fun e he => hc e (List.mem_cons_of_mem _ he)
    exact ⟨c', hchanges.trans (by rw [he])⟩

/-- What is left to be undone when a commit has failed. -/
theorem Balanced.strands (hb : w.Balanced) (ht : w.store.Tidy)
    (hs : s.Balanced w.store.volume ((w.uses w.store).map Use.frame) none) (hsized : w.store.Sized s)
    (hhalts : w.store.Halts t (w.store.pool.locks.lockedBy t) s)
    (hnone : s.pool.locks.lockedBy t = []) : w.Strands t { w with store := s } where
  halts := hhalts
  undone changes hc hfaults := by
    have hb' : World.Balanced { w with store := s } :=
      hb.withStore hs.pool fun hd _ => Balanced.id_of_extends hs.grown hd
    obtain ⟨hb'', ht'⟩ := tidy_handleAll changes hb' (ht.of_sized hsized)
    have hmaps := hb''.store.pool.mapped
    obtain ⟨c, hchanges⟩ := handleAll_catalogs (w := { w with store := s }) changes hc
    have hcopies : ∀ q, (s.copies q).kept = (w.store.copies q).kept ∧
        (s.copies q).cached.map Copy.bytes = (w.store.copies q).cached.map Copy.bytes := fun q => by
      by_cases hq : q ∈ w.store.pool.locks.lockedBy t
      · rcases hhalts.locked q hq with e | e
        · rw [e, Copies.bytes_take]
          exact ⟨rfl, rfl⟩
        · rw [e, Copies.bytes_flush, Copies.bytes_take, Copies.kept_flush]
          exact ⟨rfl, rfl⟩
      · rw [hhalts.unlocked q hq]
        exact ⟨rfl, rfl⟩
    rw [hchanges] at ht' hmaps hfaults ⊢
    refine (ht'.complete_rollback hmaps hnone fun x hx => ?_).mono
      (fun _ s' h' => ⟨fun q b hb howner => ?_, fun q hq => ?_, fun q => ?_⟩) fun _ _ h' => h'
    · obtain ⟨hk, howner⟩ := mem_retainedOf.1 hx
      exact hfaults x.1 x.2 ((hcopies x.1).1.symm.trans hk) howner
    · have hk : (s.copies q).kept = some b := (hcopies q).1.trans hb
      have hgone : s.pool.find? q = none := hs.pool.retained q fun hn => nomatch hk.symm.trans hn
      have hc : (s.copies q).cached = none := Option.map_eq_none_iff.2 hgone
      calc s'.copies q = ⟨(s.copies q).cached, none, b.bytes⟩ :=
            (h' q).trans (Copies.restoreKept_of_some (x := Store.copies { s with catalog := c } q) hk howner)
        _ = ⟨none, none, b.bytes⟩ := by rw [hc]
    · refine (h' q).trans (Copies.restoreKept_of_ne fun b hb => hq b ?_)
      exact (hcopies q).1.symm.trans hb
    · rw [h' q, Copies.cached_restoreKept]
      exact (hcopies q).2

/-- A commit in a world that is in order. -/
theorem Balanced.commits (hb : w.Balanced) (ht : w.store.Tidy) (hd : w.store.pool.isDoomed t = false) :
    w.Commits t := by
  have hend := ht.complete_commit hb.store.pool.mapped hd
  exact {
    secured := hend.mono (fun _ _ h => h.1) fun _ _ h => h.1
    told := hend.mono (fun _ _ h => h.2) fun _ _ h => h.2.2.1
    agrees_iff := ends_iff <| hend.mono (fun _ s h => iff_of_true h.1.logs h.2) fun e s h => by
      obtain ⟨page, hp, hstop⟩ := h.2.2.1
      exact iff_of_false (fun hn => hn h.1.logs) fun hall => nomatch (hall page hp).symm.trans hstop
    failed := by
      refine ((hend.and (keeps_complete t true w.store hb.store)).and (sized_complete t true w.store ht.sized)).mono
        (fun _ _ _ => trivial) fun e s h => ?_
      obtain ⟨⟨⟨-, hhalts, -, hnone⟩, hs⟩, hsized⟩ := h
      exact hb.strands ht hs hsized hhalts hnone }

/-- One page in the way is enough for the log to have what the transaction is not told. -/
theorem Commits.disagrees (h : w.Commits t) (hp : page ∈ w.store.pool.locks.lockedBy t)
    (hstop : w.store.obstacle? page ≠ none) :
    ¬ (Action.complete t true).Ends w.store (fun _ s => w.store.Logs (.commit t) s)
      (fun _ s => ¬ w.store.Logs (.commit t) s) :=
  fun hagrees => hstop (h.agrees_iff.1 hagrees page hp)

/-- Whatever has happened, the commit of a transaction that is not doomed is in the log however it ends. It fails if the
table of a page is in the way, and then a rollback undoes nothing but changes of pages that had left the cache. -/
theorem handleAll_commits {config : Config} (hp : s.pool = .ofConfig config) (hs : s.volume.Lists s.catalog)
    (events : List Event) (hd : (handleAll events { store := s }).store.pool.isDoomed t = false) :
    (handleAll events { store := s }).Commits t := by
  obtain ⟨hb, ht⟩ := tidy_of_fresh hp hs events
  exact hb.commits ht hd

/-- A transaction changes two pages, and the first leaves the cache for the second. Then their table is taken out of the
catalog. -/
def stranding : List Event :=
  [.op (.ask ⟨1⟩ (.ofT 0) .write), .op (.advance 0), .op (.advance 0), .op (.advance 0), .op (.patch 0 0 [99]),
    .op (.drop 0), .op (.ask ⟨1⟩ (.ofT 1) .write), .op (.advance 0), .op (.advance 0), .op (.advance 0),
    .op (.patch 0 0 [98]), .op (.drop 0), .unregisterAll]

theorem handleAll_commits_stranding :
    Store.narrow.pool = .ofConfig { pageSize := 8, poolPages := 1 } ∧ Store.narrow.volume.Lists Store.narrow.catalog ∧
      (handleAll stranding { store := .narrow }).store.pool.isDoomed ⟨1⟩ = false ∧
      (handleAll stranding { store := .narrow }).store.pool.locks.lockedBy ⟨1⟩ = [.ofT 0, .ofT 1] ∧
      ((handleAll stranding { store := .narrow }).store.copies (.ofT 0)).kept.map BeforeImage.owner = some ⟨1⟩ ∧
      (handleAll stranding { store := .narrow }).store.obstacle? (.ofT 1) = some (.noSuchTable (PageId.ofT 1).table) ∧
      (handleAll stranding { store := .narrow }).Commits ⟨1⟩ := by
  have hlists : Store.narrow.volume.Lists Store.narrow.catalog := Store.lists_ofFile ..
  have hd : (handleAll stranding { store := .narrow }).store.pool.isDoomed ⟨1⟩ = false := by decide +kernel
  have hp : Store.narrow.pool = .ofConfig { pageSize := 8, poolPages := 1 } := rfl
  exact ⟨hp, hlists, hd, by decide +kernel, by decide +kernel, by decide +kernel,
    handleAll_commits hp hlists stranding hd⟩

/-- The transaction asks for its commit. Then the table comes back, and it is rolled back. -/
def stranded : List Event := stranding ++ [.complete ⟨1⟩ true, .register 0 "t", .complete ⟨1⟩ false]

/-- The commit fails for the page in the cache, and the log has it all the same. The rollback leaves on that page what
the transaction has made of it, and so it comes to the file. -/
theorem handleAll_commits_stranded :
    (handleAll stranding { store := .narrow }).store.pool.isDoomed ⟨1⟩ = false ∧
      ¬ (Action.complete ⟨1⟩ true).Ends (handleAll stranding { store := .narrow }).store
        (fun _ s => (handleAll stranding { store := .narrow }).store.Logs (.commit ⟨1⟩) s)
        (fun _ s => ¬ (handleAll stranding { store := .narrow }).store.Logs (.commit ⟨1⟩) s) ∧
      ((handleAll stranded { store := .narrow }).store.copies (.ofT 0)).file = [0, 1, 2, 3, 4, 5, 6, 7] ∧
      ((handleAll stranded { store := .narrow }).store.copies (.ofT 1)).cached.map Copy.bytes =
        some [98, 9, 10, 11, 12, 13, 14, 15] ∧
      (handleAll (stranded ++ [.op (.flushPage (.ofT 1)), .op (.advance 0), .op (.advance 0)])
        { store := .narrow }).store.onFile (.ofT 1) = [98, 9, 10, 11, 12, 13, 14, 15] := by
  have hd : (handleAll stranding { store := .narrow }).store.pool.isDoomed ⟨1⟩ = false := by decide +kernel
  obtain ⟨hb, ht⟩ := tidy_of_fresh (s := .narrow) rfl (Store.lists_ofFile ..) stranding
  have hin : PageId.ofT 1 ∈ (handleAll stranding { store := .narrow }).store.pool.locks.lockedBy ⟨1⟩ := by
    decide +kernel
  have hstop : (handleAll stranding { store := .narrow }).store.obstacle? (.ofT 1) ≠ none := by decide +kernel
  exact ⟨hd, (hb.commits ht hd).disagrees hin hstop, by decide +kernel, by decide +kernel, by decide +kernel⟩

end World

end TupleStore
