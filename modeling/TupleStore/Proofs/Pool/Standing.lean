import TupleStore.Pool.Ending
import TupleStore.Proofs.Pool.Invariant

/-!
# Stores in which transactions end

While a transaction ends, its pages are taken out of agreement with their accounts one after the other, and come
back into it when it has ended. They are its own meanwhile: it has them locked, and it asks for nothing any more.
So whatever others do is done to pages that agree.

* `Committing`, `Restoring`, `Returning` : what holds of a page that a transaction has open while it commits or is
  rolled back, by the pages that are left to be worked on;
* `Ending.Has` : the same, at each stage of the end of a transaction;
* `Parted` : a page that a transaction on its way out has open is as `Ending.Has` says, and any other agrees with
  its account;
* `Standing` : the invariant of a store beside transactions that end. Where there are none it is `Stands`
  (`standing_nil`).
-/

namespace TupleStore

set_option autoImplicit false

open TupleStore.Action

/-! ## Pinned pages -/

/-- The uses of pages that are pinned for no transaction. -/
def pinsOf (pinned : List (PageId × FrameId)) : List Use := pinned.map fun e => ⟨e.2, e.1, none, false⟩

theorem mem_pinsOf {pinned : List (PageId × FrameId)} {page : PageId} {f : FrameId} (h : (page, f) ∈ pinned) :
    ⟨f, page, none, false⟩ ∈ pinsOf pinned :=
  List.mem_map.2 ⟨(page, f), h, rfl⟩

theorem worksOn_pinsOf (pinned : List (PageId × FrameId)) (uses : List Use) (page : PageId) (t : TxnId) :
    WorksOn (pinsOf pinned ++ uses) page t ↔ WorksOn uses page t := by
  induction pinned with
  | nil => exact Iff.rfl
  | cons e rest ih => exact (worksOn_cons_of_unchanged (u := ⟨e.2, e.1, none, false⟩) rfl _ page t).trans ih

/-! ## Pages of transactions that end -/

/-- A store has a table, with pages that are as long as those of its cache. -/
def Store.HasTable (s : Store) (table : TableId) : Prop :=
  ∃ hd file, s.catalog.handle table = .ok hd ∧ s.volume.handles[hd]? = some file ∧ table = file.id ∧
    file.pages.pageSize = s.pool.config.pageSize

/-- What holds of a page that a transaction has open while it commits. If it is cached, its change is still to be
logged, or its before-image has been given up; then it is still to be written if it is dirty. -/
def Committing (t : TxnId) (unlogged unwritten : List (PageId × FrameId)) (page : PageId) (x : Copies) (a : Account) :
    Prop :=
  (x.Owned t a ∧ (x.cached ≠ none → ∃ f, (page, f) ∈ unlogged)) ∨
    (x.Taken t a ∧ ∀ c, x.cached = some c → c.dirtyBy ≠ none → ∃ f, (page, f) ∈ unwritten)

/-- What holds of a page that a transaction has open while a rollback restores frames. -/
def Restoring (t : TxnId) (rest : List (PageId × FrameId)) (page : PageId) (x : Copies) (a : Account) : Prop :=
  (x.Owned t a ∧ (x.cached ≠ none → ∃ f, (page, f) ∈ rest)) ∨ x.Restored t a

/-- What holds of a page that a transaction has open while a rollback writes before-images that were kept aside. -/
def Returning (t : TxnId) (rest : List (PageId × BeforeImage)) (page : PageId) (x : Copies) (a : Account) : Prop :=
  x.Restored t a ∨ (x.Bare t a ∧ ∃ b, (page, b) ∈ rest)

namespace Ending

/-- What holds of a page that a transaction has open while it ends. -/
def Has (e : Ending) (page : PageId) (x : Copies) (a : Account) : Prop :=
  match e.stage with
  | .logging rest => Committing e.txn rest e.pinned page x a
  | .restoring rest => Restoring e.txn rest page x a
  | .collecting => Restoring e.txn [] page x a
  | .returning rest => Returning e.txn rest page x a
  | .forcing => if e.commits then Committing e.txn [] e.pinned page x a else Returning e.txn [] page x a
  | .writing rest => Committing e.txn [] rest page x a
  | .settling => if e.commits then Committing e.txn [] [] page x a else Returning e.txn [] page x a
  | .unlocking => False

/-- The before-images that a rollback is to write. -/
def owed (e : Ending) : List (PageId × BeforeImage) :=
  match e.stage with
  | .returning rest => rest
  | _ => []

/-- The pages that are still to be worked on are pinned, and before-images that are to be written are as long as the
pages of their tables. -/
def Proper (s₀ : Store) (e : Ending) : Prop :=
  match e.stage with
  | .logging rest => e.commits = true ∧ ∀ x ∈ rest, x ∈ e.pinned
  | .restoring rest => e.commits = false ∧ ∀ x ∈ rest, x ∈ e.pinned
  | .collecting => e.commits = false ∧ e.pinned = []
  | .returning rest => (e.commits = false ∧ e.pinned = []) ∧
    ∀ x ∈ rest, s₀.HasTable x.1.table ∧ x.2.bytes.length = s₀.pool.config.pageSize
  | .forcing => e.commits = false → e.pinned = []
  | .writing rest => e.commits = true ∧ ∀ x ∈ rest, x ∈ e.pinned
  | .settling => e.pinned = []
  | .unlocking => e.pinned = []

/-- The uses of the pages that are pinned. -/
def pins (e : Ending) : List Use := pinsOf e.pinned

end Ending

variable {t : TxnId} {page : PageId} {x : Copies} {a : Account} {c : Copy} {e : Ending}
  {unlogged unwritten rest : List (PageId × FrameId)} {owed : List (PageId × BeforeImage)} {s₀ : Store}

/-! ### The owner of the page -/

theorem Committing.closing (h : Committing t unlogged unwritten page x a) : Copies.Closing t a :=
  h.elim (fun h => h.1.closing) fun h => h.1.toClosing

theorem Restoring.closing (h : Restoring t rest page x a) : Copies.Closing t a :=
  h.elim (fun h => h.1.closing) fun h => h.toClosing

theorem Returning.closing (h : Returning t owed page x a) : Copies.Closing t a :=
  h.elim (fun h => h.toClosing) fun h => h.1.toClosing

theorem Ending.Has.closing (h : e.Has page x a) : Copies.Closing e.txn a := by
  unfold Ending.Has at h
  split at h
  · exact h.closing
  · exact h.closing
  · exact h.closing
  · exact h.closing
  · split at h
    · exact h.closing
    · exact h.closing
  · exact h.closing
  · split at h
    · exact h.closing
    · exact h.closing
  · exact h.elim

/-! ### The page moved between cache and file -/

/-- What the log is to have of a page in a frame with a before-image. -/
structure Copies.Imaged (c : Copy) (b : BeforeImage) (a : Account) : Prop where
  opener : a.opener = some b.owner
  image : b.bytes = a.committed
  content : c.bytes = a.view b.owner

theorem Copies.Agrees.imaged {mode : TxnId → Option LockMode} {busy : TxnId → Prop} (h : x.Agrees mode busy a)
    (hc : x.cached = some c) {b : BeforeImage} (hb : c.before = some b) : Copies.Imaged c b a := by
  have hbefore : x.before = some b := by rw [Copies.before, hc]; exact hb
  have ho : a.opener = some b.owner := by rw [h.opener, hbefore, Option.map_some]
  exact ⟨ho, h.image b hbefore, (h.content c hc).trans (Account.current_of_opener ho)⟩

/-- What others can do to a page of a transaction that ends leaves it as it is to be. -/
structure Copies.Lasts (P : Copies → Account → Prop) (pinned : List (PageId × FrameId)) (page : PageId) (x : Copies)
    (a : Account) : Prop where
  imaged : ∀ c b, x.cached = some c → c.before = some b → Copies.Imaged c b a
  written : ∀ c t, x.cached = some c → c.dirtyBy = some t →
    P ⟨some ⟨c.bytes, none, c.before.map fun b => { b with onDisk := true }⟩, x.kept, c.bytes⟩ { a with outside := none }
  rewritten : ∀ bytes, P { x with file := bytes } { a with outside := some bytes }
  apart : ∀ c, x.cached = some c → x.kept = none
  /-- It is pinned, or there is nothing to be written. -/
  evicted : ∀ c, x.cached = some c → (∃ f, (page, f) ∈ pinned) ∨
    (c.dirtyBy = none ∧ c.before = none ∧ P ⟨none, none, x.file⟩ a)
  forgotten : ∀ u, a.opener ≠ some u → x.kept.filter (fun b => b.owner ≠ u) = x.kept

section

variable {pinned : List (PageId × FrameId)}

/-- A page with a before-image is pinned if it is cached. -/
theorem Copies.Owned.lasts {P : Copies → Account → Prop} (h : x.Owned t a)
    (hpinned : x.cached ≠ none → ∃ f, (page, f) ∈ pinned)
    (hP : ∀ x' a', x'.Owned t a' → (x'.cached ≠ none → x.cached ≠ none) → P x' a') : x.Lasts P pinned page a where
  imaged _ _ hc hb := h.agrees.imaged hc hb
  written c _ hc hd := hP _ _ (h.write hc hd) fun _ => hc ▸ Option.some_ne_none c
  rewritten bytes := hP _ _ (h.rewrite bytes) id
  apart _ hc := h.agrees.apart _ hc
  evicted c hc := Or.inl (hpinned (hc ▸ Option.some_ne_none c))
  forgotten _ hu := h.agrees.filter_kept_of_ne hu

theorem Committing.lasts (h : Committing t unlogged unwritten page x a) (hunlogged : ∀ x ∈ unlogged, x ∈ pinned)
    (hunwritten : ∀ x ∈ unwritten, x ∈ pinned) : x.Lasts (Committing t unlogged unwritten page) pinned page a := by
  rcases h with ⟨h, hin⟩ | ⟨h, hin⟩
  · exact h.lasts (fun hc => (hin hc).imp fun f hf => hunlogged _ hf) fun x' a' h' hc => Or.inl ⟨h', fun hc' => hin (hc hc')⟩
  · refine ⟨fun c b hc hb => ?_, fun c u hc _ => Or.inr ?_, fun bytes => Or.inr ⟨h.rewrite bytes, hin⟩,
      fun _ _ => h.kept, fun c hc => ?_, fun u _ => by rw [h.kept, Option.filter_none]⟩
    · rw [(h.cached c hc).1] at hb
      cases hb
    · rw [(h.cached c hc).1]
      refine ⟨h.write hc, fun c' hc' hd => ?_⟩
      cases hc'
      exact absurd rfl hd
    · by_cases hd : c.dirtyBy = none
      · exact Or.inr ⟨hd, (h.cached c hc).1, Or.inr ⟨h.evict hc hd, nofun⟩⟩
      · exact Or.inl ((hin c hc hd).imp fun f hf => hunwritten _ hf)

/-- A page that has its committed bytes again has nothing to be written. -/
theorem Copies.Restored.lasts {P : Copies → Account → Prop} (h : x.Restored t a) (hP : ∀ x a, x.Restored t a → P x a) :
    x.Lasts P pinned page a := by
  refine ⟨fun c b hc hb => ?_, fun c u hc hd => ?_, fun bytes => hP _ _ (h.rewrite bytes), fun _ _ => h.kept,
    fun c hc => Or.inr ?_, fun u _ => by rw [h.kept, Option.filter_none]⟩
  · rw [h.cached c hc] at hb
    cases hb
  · rw [h.cached c hc] at hd
    cases hd
  · rw [h.cached c hc]
    exact ⟨rfl, rfl, hP _ _ h.evict⟩

theorem Restoring.lasts (h : Restoring t rest page x a) (hrest : ∀ x ∈ rest, x ∈ pinned) :
    x.Lasts (Restoring t rest page) pinned page a := by
  rcases h with ⟨h, hin⟩ | h
  · exact h.lasts (fun hc => (hin hc).imp fun f hf => hrest _ hf) fun x' a' h' hc => Or.inl ⟨h', fun hc' => hin (hc hc')⟩
  · exact h.lasts fun _ _ => Or.inr

theorem Returning.lasts (h : Returning t owed page x a) : x.Lasts (Returning t owed page) pinned page a := by
  rcases h with h | ⟨h, hin⟩
  · exact h.lasts fun _ _ => Or.inl
  · have hcached : ∀ c, x.cached ≠ some c := fun c hc => by
      rw [h.cached] at hc
      cases hc
    exact ⟨fun c b hc => absurd hc (hcached c), fun c u hc => absurd hc (hcached c),
      fun bytes => Or.inr ⟨h.rewrite bytes, hin⟩, fun _ _ => h.kept, fun c hc => absurd hc (hcached c),
      fun u _ => by rw [h.kept, Option.filter_none]⟩

theorem Ending.Has.lasts (h : e.Has page x a) (hp : e.Proper s₀) : x.Lasts (e.Has page) e.pinned page a := by
  have hnone : ∀ {y : PageId × FrameId}, y ∈ [] → y ∈ e.pinned := fun hy => (List.not_mem_nil hy).elim
  obtain ⟨txn, commits, refused, pinned, stage⟩ := e
  cases stage with
  | logging rest => exact Committing.lasts h hp.2 fun _ => id
  | restoring rest => exact Restoring.lasts h hp.2
  | collecting => exact Restoring.lasts h fun _ => hnone
  | returning rest => exact Returning.lasts h
  | forcing =>
    cases commits with
    | true => exact Committing.lasts h (fun _ => hnone) fun _ => id
    | false => exact Returning.lasts h
  | writing rest => exact Committing.lasts h (fun _ => hnone) hp.2
  | settling =>
    cases commits with
    | true => exact Committing.lasts h (fun _ => hnone) fun _ => hnone
    | false => exact Returning.lasts h
  | unlocking => exact h.elim

end

/-! ## Pages of all -/

/-- A page that a transaction on its way out has open is that transaction's own, and any other agrees with its account.
Before-images that are to be written have the committed bytes of their pages. -/
structure Parted (endings : List Ending) (mode? : TxnId → PageId → Option LockMode) (uses : List Use) (page : PageId)
    (x : Copies) (a : Account) : Prop where
  ended : ∀ e ∈ endings, a.opener = some e.txn → mode? e.txn page = some .write ∧ e.Has page x a
  owed : ∀ e ∈ endings, ∀ b, (page, b) ∈ e.owed → a.opener = some e.txn ∧ b.bytes = a.committed
  others : (∀ e ∈ endings, a.opener ≠ some e.txn) → Agree mode? uses page x a

namespace Parted

variable {endings endings' : List Ending} {mode? mode'? : TxnId → PageId → Option LockMode} {uses uses' : List Use}
  {x' : Copies} {a' : Account}

theorem nil_iff : Parted [] mode? uses page x a ↔ Agree mode? uses page x a :=
  ⟨fun h => h.others nofun, fun h => ⟨nofun, nofun, fun _ => h⟩⟩

/-- A page that no transaction on its way out has open, whatever becomes of it as long as this stays so. -/
theorem of_agree (h : Parted endings mode? uses page x a) (hfree : ∀ e ∈ endings, a.opener ≠ some e.txn)
    (hfree' : ∀ e ∈ endings, a'.opener ≠ some e.txn) (ha : Agree mode'? uses' page x' a') :
    Parted endings mode'? uses' page x' a' :=
  ⟨fun e he ho => absurd ho (hfree' e he), fun e he b hb => absurd (h.owed e he b hb).1 (hfree e he), fun _ => ha⟩

theorem relock (h : Parted endings mode? uses page x a)
    (hm : ∀ t, a.opener = some t → mode? t page = some .write → mode'? t page = some .write) :
    Parted endings mode'? uses page x a :=
  ⟨fun e he ho => ⟨hm e.txn ho (h.ended e he ho).1, (h.ended e he ho).2⟩, h.owed,
    fun hfree => (h.others hfree).relock fun t ho => hm t ho ((h.others hfree).locked t ho)⟩

theorem rebusy (h : Parted endings mode? uses page x a) (hw : ∀ t, WorksOn uses' page t ↔ WorksOn uses page t) :
    Parted endings mode? uses' page x a :=
  ⟨h.ended, h.owed, fun hfree => (h.others hfree).rebusy hw⟩

theorem congr (h : Parted endings mode? uses page x a) (he : ∀ e, e ∈ endings' ↔ e ∈ endings) :
    Parted endings' mode? uses page x a :=
  ⟨fun e h' => h.ended e ((he e).1 h'), fun e h' => h.owed e ((he e).1 h'),
    fun hfree => h.others fun e h' => hfree e ((he e).2 h')⟩

/-- A transaction on its way out has a page open, or none has. -/
theorem exists_or_free (endings : List Ending) (a : Account) :
    (∃ e ∈ endings, a.opener = some e.txn) ∨ ∀ e ∈ endings, a.opener ≠ some e.txn := by
  by_cases hex : ∃ e ∈ endings, a.opener = some e.txn
  · exact Or.inl hex
  · exact Or.inr fun e he ho => hex ⟨e, he, ho⟩

/-- The owner of the page has it locked to write. -/
theorem locked (h : Parted endings mode? uses page x a) (ho : a.opener = some t) : mode? t page = some .write := by
  rcases exists_or_free endings a with ⟨e, he, hoe⟩ | hfree
  · obtain rfl : t = e.txn := Option.some.inj (ho.symm.trans hoe)
    exact (h.ended e he ho).1
  · exact (h.others hfree).locked t ho

/-- Only the owner of the page has left anything in it. -/
theorem own (h : Parted endings mode? uses page x a) (hown : a.own t ≠ none) : a.opener = some t := by
  rcases exists_or_free endings a with ⟨e, he, ho⟩ | hfree
  · by_cases ht : t = e.txn
    · rw [ht, ho]
    · exact absurd ((h.ended e he ho).2.closing.own t ht) hown
  · exact (h.others hfree).own t hown

/-! ### Pages moved between cache and file -/

section

variable (h : Parted endings mode? uses page x a) (hproper : ∀ e ∈ endings, e.Proper s₀)

include h hproper

theorem lasts (he : e ∈ endings) (ho : a.opener = some e.txn) : x.Lasts (e.Has page) e.pinned page a :=
  (h.ended e he ho).2.lasts (hproper e he)

/-- Either the page agrees with its account, or it is the page of a transaction on its way out. -/
theorem cases {P : Prop} (hagree : Agree mode? uses page x a → P)
    (hlasts : ∀ e ∈ endings, a.opener = some e.txn → x.Lasts (e.Has page) e.pinned page a → P) : P := by
  rcases exists_or_free endings a with ⟨e, he, ho⟩ | hfree
  · exact hlasts e he ho (h.lasts hproper he ho)
  · exact hagree (h.others hfree)

theorem imaged (hc : x.cached = some c) {b : BeforeImage} (hb : c.before = some b) : Copies.Imaged c b a :=
  h.cases hproper (fun ha => ha.imaged hc hb) fun _ _ _ hl => hl.imaged c b hc hb

theorem apart (hc : x.cached = some c) : x.kept = none :=
  h.cases hproper (fun ha => ha.apart c hc) fun _ _ _ hl => hl.apart c hc

theorem forgotten (ho : a.opener ≠ some t) : x.kept.filter (fun b => b.owner ≠ t) = x.kept :=
  h.cases hproper (fun ha => ha.filter_kept_of_ne ho) fun _ _ _ hl => hl.forgotten t ho

/-- A dirty frame has a before-image, if it is not pinned by a transaction on its way out. -/
theorem before_of_dirty (hc : x.cached = some c) (hd : c.dirtyBy ≠ none)
    (hunpinned : ∀ e ∈ endings, ∀ f, (page, f) ∉ e.pinned) : c.before ≠ none := by
  refine h.cases hproper (fun ha hn => ?_) fun e he _ hl => ?_
  · obtain ⟨u, hu⟩ := Option.ne_none_iff_exists'.1 hd
    have ho := ha.dirty c u hc hu
    rw [ha.opener, Copies.before, hc] at ho
    obtain ⟨b, hb, -⟩ := Option.map_eq_some_iff.1 ho
    cases hb.symm.trans hn
  · rcases hl.evicted c hc with ⟨f, hf⟩ | ⟨hclean, -⟩
    · exact absurd hf (hunpinned e he f)
    · exact absurd hclean hd

theorem write (hc : x.cached = some c) (hd : c.dirtyBy = some t) :
    Parted endings mode? uses page
      ⟨some ⟨c.bytes, none, c.before.map fun b => { b with onDisk := true }⟩, x.kept, c.bytes⟩
      { a with outside := none } :=
  ⟨fun e he ho => ⟨(h.ended e he ho).1, (h.lasts hproper he ho).written c t hc hd⟩, h.owed,
    fun hfree => (h.others hfree).write hc hd⟩

theorem rewrite (bytes : Bytes) :
    Parted endings mode? uses page { x with file := bytes } { a with outside := some bytes } :=
  ⟨fun e he ho => ⟨(h.ended e he ho).1, (h.lasts hproper he ho).rewritten bytes⟩, h.owed,
    fun hfree => (h.others hfree).rewrite bytes⟩

theorem evict (hc : x.cached = some c) (hd : c.dirtyBy = none) (hunpinned : ∀ e ∈ endings, ∀ f, (page, f) ∉ e.pinned) :
    Parted endings mode? uses page ⟨none, c.before, x.file⟩ a := by
  refine ⟨fun e he ho => ⟨(h.ended e he ho).1, ?_⟩, h.owed, fun hfree => (h.others hfree).evict hc hd⟩
  rcases (h.lasts hproper he ho).evicted c hc with ⟨f, hf⟩ | ⟨-, hbefore, hhas⟩
  · exact absurd hf (hunpinned e he f)
  · rwa [hbefore]

end

end Parted

/-! ## The invariant -/

/-- The invariant of a store beside transactions that end. They have nothing in use but what they have pinned. -/
structure Standing (endings : List Ending) (s₀ : Store) (uses : List Use) (s : Store) : Prop
    extends Invariant s₀ (uses ++ endings.flatMap Ending.pins) (Parted endings s.mode? uses) s where
  away : ∀ e ∈ endings, ∀ u ∈ uses, ∀ m, u.holder ≠ some (e.txn, m)
  proper : ∀ e ∈ endings, e.Proper s₀
  held : ∀ e ∈ endings, ∀ x ∈ e.pinned, s.mode? e.txn x.1 ≠ none
  distinct : (endings.map Ending.txn).Nodup

/-- The invariant where no transaction ends. -/
theorem standing_nil : Standing [] = Stands := by
  funext s₀ uses s
  have hok : Parted [] s.mode? uses = Agree s.mode? uses := by
    funext page x a
    exact propext Parted.nil_iff
  refine propext ⟨fun h => ?_, fun h => ⟨?_, nofun, nofun, nofun, .nil⟩⟩
  · have h' := h.toInvariant
    rwa [hok, List.flatMap_nil, List.append_nil] at h'
  · rwa [hok, List.flatMap_nil, List.append_nil]

namespace Standing

variable {endings : List Ending} {s₀ s : Store} {uses uses' : List Use} {u : Use} {m : LockMode} {f : FrameId}

/-- A page on which somebody else has a lock is not open to a transaction on its way out. -/
theorem free_of_mode (h : Standing endings s₀ uses s) (ht : ∀ e ∈ endings, e.txn ≠ t) (hm : s.mode? t page ≠ none) :
    ∀ e ∈ endings, (account s₀.onFile s.trace page).opener ≠ some e.txn := fun e he ho =>
  ht e he (h.locks.eq_of_write ((h.pages page).locked ho) hm).symm

/-- A transaction that has a page in use does not end. -/
theorem txn_ne_of_use (h : Standing endings s₀ uses s) (hu : u ∈ uses) (hh : u.holder = some (t, m)) :
    ∀ e ∈ endings, e.txn ≠ t := fun e he het => h.away e he u hu m (het ▸ hh)

theorem mode_of_use (h : Standing endings s₀ uses s) (hu : u ∈ uses) (hh : u.holder = some (t, m)) :
    Covered (s.mode? t u.page) m :=
  h.covered u (List.mem_append_left _ hu) t m hh

theorem free_of_use (h : Standing endings s₀ uses s) (hu : u ∈ uses) (hh : u.holder = some (t, m)) :
    ∀ e ∈ endings, (account s₀.onFile s.trace u.page).opener ≠ some e.txn :=
  h.free_of_mode (h.txn_ne_of_use hu hh) (h.mode_of_use hu hh).ne_none

/-- A page in use agrees with its account. -/
theorem agree_of_use (h : Standing endings s₀ uses s) (hu : u ∈ uses) (hh : u.holder = some (t, m)) :
    Agree s.mode? uses u.page (s.copies u.page) (account s₀.onFile s.trace u.page) :=
  (h.pages u.page).others (h.free_of_use hu hh)

/-- What a transaction on its way out has pinned is in its frame. -/
theorem frame_of_pinned (h : Standing endings s₀ uses s) (he : e ∈ endings) (hf : (page, f) ∈ e.pinned) :
    (s.pool.frame f).page = some page :=
  h.pool.used ⟨f, page, none, false⟩ (List.mem_append_right _ (List.mem_flatMap.2 ⟨e, he, mem_pinsOf hf⟩))

theorem not_pinned (h : Standing endings s₀ uses s) (hf : (s.pool.frame f).page = some page)
    (hu : s.pool.isPinned f = false) : ∀ e ∈ endings, ∀ g, (page, g) ∉ e.pinned := by
  intro e he g hg
  have huse : ⟨g, page, none, false⟩ ∈ uses ++ endings.flatMap Ending.pins :=
    List.mem_append_right _ (List.mem_flatMap.2 ⟨e, he, mem_pinsOf hg⟩)
  exact h.pool.not_used hu _ huse (h.pool.frame_inj (h.frame_of_pinned he hg) hf)

/-- The invariant with a change of the uses that is nothing to the pages. -/
theorem reuse {s' : Store} (h : Standing endings s₀ uses s)
    (h' : Invariant s₀ (uses' ++ endings.flatMap Ending.pins) (Parted endings s.mode? uses) s')
    (hmode : s'.mode? = s.mode?) (haway : ∀ e ∈ endings, ∀ u ∈ uses', ∀ m, u.holder ≠ some (e.txn, m))
    (hw : ∀ page t, WorksOn uses' page t ↔ WorksOn uses page t) : Standing endings s₀ uses' s' :=
  ⟨h'.mono fun page hp => hmode ▸ hp.rebusy (hw page), haway, h.proper, hmode ▸ h.held, h.distinct⟩

/-- The invariant where neither locks nor uses have changed. -/
theorem same {s' : Store} (h : Standing endings s₀ uses s)
    (h' : Invariant s₀ (uses ++ endings.flatMap Ending.pins) (Parted endings s.mode? uses) s')
    (hmode : s'.mode? = s.mode?) : Standing endings s₀ uses s' :=
  h.reuse h' hmode h.away fun _ _ => Iff.rfl

theorem perm (h : Standing endings s₀ uses s) (e : uses.Perm uses') : Standing endings s₀ uses' s :=
  h.reuse (h.toInvariant.perm (e.append_right _)) rfl (fun e' he' u hu => h.away e' he' u (e.mem_iff.2 hu))
    fun page t => worksOn_perm e.symm page t

/-- The order of the transactions that end does not matter. -/
theorem reorder {endings' : List Ending} (h : Standing endings s₀ uses s) (e : endings.Perm endings') :
    Standing endings' s₀ uses s :=
  ⟨((h.toInvariant.perm ((e.flatMap_right _).append_left uses)).mono fun _ hp => hp.congr fun _ => e.mem_iff.symm),
    fun o ho => h.away o (e.mem_iff.2 ho), fun o ho => h.proper o (e.mem_iff.2 ho),
    fun o ho => h.held o (e.mem_iff.2 ho), (e.map _).nodup_iff.1 h.distinct⟩

/-- A page pinned for somebody who has it locked. -/
theorem pin (h : Standing endings s₀ uses s) (hf : (s.pool.frame f).page = some page) (hc : Covered (s.mode? t page) m)
    (ht : ∀ e ∈ endings, e.txn ≠ t) :
    Standing endings s₀ (⟨f, page, some (t, m), false⟩ :: uses) (s.modifyPool fun p => p.pin f) := by
  refine h.reuse (Invariant.pin (u := ⟨f, page, some (t, m), false⟩) h.toInvariant hf fun t' m' hh => ?_) rfl
    (fun e he v hv m' hh => ?_) (worksOn_cons_of_unchanged rfl uses)
  · cases hh
    exact hc
  · rcases List.mem_cons.1 hv with rfl | hv
    · cases hh
      exact ht e he rfl
    · exact h.away e he v hv m' hh

/-- Nobody works on a page that is not cached. -/
theorem idle_of_uncached (h : Standing endings s₀ uses s) (hp : s.pool.find? page = none) (t : TxnId) :
    ¬WorksOn uses page t := by
  rintro ⟨u, hu, hpage, -, -⟩
  have hf := h.pool.used u (List.mem_append_left _ hu)
  rw [hpage, ← h.pool.mapped, hp] at hf
  cases hf

end Standing

end TupleStore
