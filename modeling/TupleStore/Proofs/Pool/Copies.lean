import TupleStore.Proofs.Ledger.Account

/-!
# Copies of a page

A page can be in a frame of the cache, have a before-image there or kept aside, and is in its file. This
module says how these copies stand to the account of the page (`Copies.Agrees`), and that they keep standing
so when the page is read, written, opened, changed and given back. All of this is about one page.

* `Agrees.load`, `Agrees.evict`, `Agrees.write` : the cache moves the page to and from its file;
* `Agrees.openFor`, `Agrees.setBytes`, `Agrees.markDirty` : a transaction changes it;
* `Agrees.rewrite` : the owner of the file writes it past the cache;
* `Owned`, `Taken`, `Restored`, `Bare` : how the copies stand while a transaction commits or is rolled back, and
  `Taken.complete`, `Restored.complete` how they stand once it has ended.
-/

namespace TupleStore

set_option autoImplicit false

/-- What a frame keeps of its page. -/
structure Copy where
  bytes : Bytes
  dirtyBy : Option TxnId
  before : Option BeforeImage

/-- The copy in a frame. -/
def Frame.copy (f : Frame) : Copy := ⟨f.bytes, f.dirtyBy, f.before⟩

/-- Where the bytes of a page are. -/
structure Copies where
  cached : Option Copy
  /-- The before-image that was kept when the page left the cache. -/
  kept : Option BeforeImage
  file : Bytes

namespace Copies

/-- The before-image, wherever it is. -/
def before (x : Copies) : Option BeforeImage :=
  match x.cached with
  | none => x.kept
  | some c => c.before

/-- How the copies of a page stand to its account, for the locks on the page and the transactions that are
at work on it. -/
structure Agrees (mode : TxnId → Option LockMode) (busy : TxnId → Prop) (x : Copies) (a : Account) :
    Prop where
  opener : a.opener = x.before.map BeforeImage.owner
  image : ∀ b, x.before = some b → b.bytes = a.committed
  locked : ∀ t, a.opener = some t → mode t = some .write
  own : ∀ t, a.own t ≠ none → a.opener = some t
  working : ∀ t, busy t → a.opener = some t
  apart : ∀ c, x.cached = some c → x.kept = none
  content : ∀ c, x.cached = some c → c.bytes = a.current
  dirty : ∀ c t, x.cached = some c → c.dirtyBy = some t → a.opener = some t
  /-- Changed content is in the file if it is not in a dirty frame or about to be. -/
  settled : (∀ c, x.cached = some c → c.dirtyBy = none) → (∀ t, ¬ busy t) →
    ∀ b, x.before = some b → b.onDisk = true ∧ x.file = a.outside.getD a.current
  clean : (∀ t, a.own t = none) → x.file = a.outside.getD a.committed
  unstolen : ∀ b, x.before = some b → b.onDisk = false → x.file = a.outside.getD a.committed

namespace Agrees

variable {mode mode' : TxnId → Option LockMode} {busy busy' : TxnId → Prop} {x : Copies} {a : Account}
  {t : TxnId} {c : Copy}

theorem own_of_none (h : Agrees mode busy x a) (ho : a.opener = none) (t : TxnId) : a.own t = none := by
  refine Classical.byContradiction fun hn => ?_
  have := h.own t hn
  rw [ho] at this
  cases this

theorem own_of_ne (h : Agrees mode busy x a) {u : TxnId} (ho : a.opener = some t) (hu : u ≠ t) :
    a.own u = none := by
  refine Classical.byContradiction fun hn => ?_
  have := h.own u hn
  rw [ho] at this
  exact hu (Option.some.inj this).symm

/-- Who holds a page sees what the cache holds of it. -/
theorem current_eq_view (h : Agrees mode busy x a) (hx : ∀ u, mode u = some .write → u = t) : a.current = a.view t := by
  cases ho : a.opener with
  | none => rw [Account.current_of_none ho, Account.view_of_own_none (h.own_of_none ho t)]
  | some u => rw [Account.current_of_opener ho, hx u (h.locked u ho)]

/-- Locks that are no weaker for the transaction that has the page open. -/
theorem relock (h : Agrees mode busy x a) (hm : ∀ t, a.opener = some t → mode' t = some .write) :
    Agrees mode' busy x a :=
  { h with locked := hm }

theorem rebusy (h : Agrees mode busy x a) (hb : ∀ t, busy' t ↔ busy t) : Agrees mode busy' x a :=
  { h with
    working := fun t ht => h.working t ((hb t).1 ht)
    settled := fun hc hn => h.settled hc fun t ht => hn t ((hb t).2 ht) }

/-! ### To and from the file -/

/-- What a page that is not cached has in its file. -/
theorem file_of_uncached (h : Agrees mode busy x a) (hc : x.cached = none) (hb : ∀ t, ¬ busy t) :
    x.file = a.outside.getD a.current := by
  have hbefore : x.before = x.kept := by rw [before, hc]
  cases hk : x.kept with
  | none =>
    have ho : a.opener = none := by rw [h.opener, hbefore, hk, Option.map_none]
    rw [Account.current_of_none ho]
    exact h.clean (h.own_of_none ho)
  | some b =>
    refine (h.settled (fun c hc' => ?_) hb b (hbefore.trans hk)).2
    rw [hc] at hc'
    cases hc'

theorem load (h : Agrees mode busy x a) (hc : x.cached = none) (hb : ∀ t, ¬ busy t) :
    Agrees mode busy ⟨some ⟨x.file, none, x.kept⟩, none, x.file⟩ a.load := by
  have hbefore : x.before = x.kept := by rw [before, hc]
  have hfile : x.file = a.load.current := by rw [Account.current_load, h.file_of_uncached hc hb]
  have hdisk : ∀ b, x.kept = some b → b.onDisk = true := fun b hk =>
    (h.settled (fun c hc' => by rw [hc] at hc'; cases hc') hb b (hbefore.trans hk)).1
  refine ⟨?_, fun b hk => ?_, fun t ht => ?_, fun t ht => ?_, fun t ht => absurd ht (hb t), fun _ _ => rfl,
    fun c hc => ?_, fun c t hc hd => ?_, fun _ _ b hk => ⟨hdisk b hk, ?_⟩, fun hown => ?_, fun b hk hd => ?_⟩
  · rw [Account.opener_load, h.opener, hbefore]
    rfl
  · have ho : a.opener = some b.owner := by rw [h.opener, hbefore, show x.kept = some b from hk, Option.map_some]
    rw [Account.committed_load ho]
    exact h.image b (hbefore.trans hk)
  · rw [Account.opener_load] at ht
    exact h.locked t ht
  · rw [Account.opener_load]
    by_cases ho : a.opener = some t
    · exact ho
    · rw [Account.own_load ho] at ht
      exact h.own t ht
  · cases hc
    exact hfile
  · cases hc
    cases hd
  · rw [Account.outside_load]
    exact hfile
  · rw [Account.outside_load, ← Account.current_of_own_none hown]
    exact hfile
  · rw [hdisk b hk] at hd
    cases hd

theorem evict (h : Agrees mode busy x a) (hc : x.cached = some c) (hd : c.dirtyBy = none) :
    Agrees mode busy ⟨none, c.before, x.file⟩ a := by
  have hbefore : x.before = c.before := by rw [before, hc]
  obtain ⟨opener, image, locked, own, hbusy, -, -, -, settled, clean, unstolen⟩ := h
  rw [hbefore] at opener image settled unstolen
  refine ⟨opener, image, locked, own, hbusy, nofun, nofun,
    nofun, fun _ hn => settled (fun c' hc' => ?_) hn, clean, unstolen⟩
  rw [hc] at hc'
  cases hc'
  exact hd

theorem write (h : Agrees mode busy x a) (hc : x.cached = some c) (hd : c.dirtyBy = some t) :
    Agrees mode busy
      ⟨some ⟨c.bytes, none, c.before.map fun b => { b with onDisk := true }⟩, x.kept, c.bytes⟩
      { a with outside := none } := by
  have hbefore : x.before = c.before := by rw [before, hc]
  have ho := h.dirty c t hc hd
  have hcontent := h.content c hc
  obtain ⟨opener, image, locked, own, hbusy, apart, -, -, -, -, -⟩ := h
  rw [hbefore] at opener image
  refine ⟨?_, fun b hb => ?_, locked, own, hbusy, fun _ _ => apart c hc, fun c' hc' => ?_,
    fun c' t' hc' hd' => ?_, fun _ _ b hb => ?_, fun hown => ?_, fun b hb hd' => ?_⟩
  · show a.opener = (c.before.map _).map BeforeImage.owner
    rw [opener, Option.map_map]
    rfl
  · obtain ⟨b', hb', rfl⟩ := Option.map_eq_some_iff.1 hb
    exact image b' hb'
  · cases hc'
    exact hcontent
  · cases hc'
    cases hd'
  · obtain ⟨b', hb', rfl⟩ := Option.map_eq_some_iff.1 hb
    exact ⟨rfl, hcontent⟩
  · show c.bytes = a.committed
    rw [hcontent]
    exact Account.current_of_own_none hown
  · obtain ⟨b', hb', rfl⟩ := Option.map_eq_some_iff.1 hb
    cases hd'

theorem rewrite (h : Agrees mode busy x a) (bytes : Bytes) :
    Agrees mode busy { x with file := bytes } { a with outside := some bytes } :=
  { h with
    settled := fun hc hn b hb => ⟨(h.settled hc hn b hb).1, rfl⟩
    clean := fun _ => rfl
    unstolen := fun _ _ _ => rfl }

/-! ### Changes -/

theorem openFor {f : Frame} (h : Agrees mode busy x a) (hc : x.cached = some f.copy)
    (ht : mode t = some .write) (hx : ∀ u, mode u = some .write → u = t) (hb : busy' t)
    (hb' : ∀ u, busy' u → u = t ∨ busy u) :
    Agrees mode busy' ⟨some (f.capture t).copy, x.kept, x.file⟩ { a with opener := some t } := by
  have hbefore : x.before = f.before := by rw [before, hc]; rfl
  have hbusy : ∀ u, busy' u → u = t := fun u hu => by
    rcases hb' u hu with e | hu
    · exact e
    · exact hx u (h.locked u (h.working u hu))
  have hopener : a.opener = f.before.map BeforeImage.owner := hbefore ▸ h.opener
  cases hf : f.before with
  | some b =>
    rw [hf] at hopener
    have howner : b.owner = t := hx _ (h.locked _ hopener)
    have ho : a.opener = some t := by rw [hopener, Option.map_some, howner]
    have hcap : f.capture t = f := by
      unfold Frame.capture Frame.beforeOf?
      simp [hf, Option.filter, howner]
    have ha : { a with opener := some t } = a := by
      rw [← ho]
    rw [hcap, ha, ← hc]
    exact { h with
      working := fun u hu => by rw [hbusy u hu, ho]
      settled := fun _ hn => absurd hb (hn t) }
  | none =>
    rw [hf] at hopener
    have hown := h.own_of_none hopener
    have hclean := h.clean hown
    have hcap : (f.capture t).copy = ⟨f.bytes, f.dirtyBy, some { owner := t, bytes := f.bytes }⟩ := by
      unfold Frame.capture Frame.beforeOf?
      simp [hf, Frame.copy]
    have hbytes : f.bytes = a.committed := by
      rw [← Account.current_of_none hopener]
      exact h.content _ hc
    rw [hcap]
    refine ⟨rfl, fun b hb => ?_, fun u hu => ?_, fun u hu => absurd (hown u) hu, fun u hu => ?_,
      fun _ _ => h.apart _ hc, fun c hc => ?_, fun c u hc' hd => ?_, fun _ hn => absurd hb (hn t),
      fun _ => hclean, fun _ _ _ => hclean⟩
    · cases hb
      exact hbytes
    · cases hu
      exact ht
    · rw [hbusy u hu]
    · cases hc
      show f.bytes = _
      rw [Account.current_of_opener (a := { a with opener := some t }) rfl,
        Account.view_of_own_none (a := { a with opener := some t }) (hown t)]
      exact hbytes
    · cases hc'
      have := h.dirty _ u hc hd
      rw [hopener] at this
      cases this

theorem setBytes (h : Agrees mode busy x a) (hc : x.cached = some c) (hb : busy t) (bytes : Bytes) :
    Agrees mode busy ⟨some { c with bytes }, x.kept, x.file⟩ (a.setOwn t (some bytes)) := by
  have hbefore : x.before = c.before := by rw [before, hc]
  have ho := h.working t hb
  refine ⟨hbefore ▸ h.opener, fun b hb => h.image b (hbefore.trans hb), h.locked, fun u hu => ?_, h.working,
    fun _ _ => h.apart c hc, fun c' hc' => ?_, fun c' u hc' hd => ?_, fun _ hn => absurd hb (hn t),
    fun hown => ?_, fun b hb hd => h.unstolen b (hbefore.trans hb) hd⟩
  · by_cases e : u = t
    · rw [e]
      exact ho
    · rw [Account.own_setOwn, if_neg e] at hu
      exact h.own u hu
  · cases hc'
    rw [Account.current_of_opener (a := a.setOwn t (some bytes)) ho, Account.view, Account.own_setOwn, if_pos rfl, Option.getD_some]
  · cases hc'
    exact h.dirty c u hc hd
  · have := hown t
    rw [Account.own_setOwn, if_pos rfl] at this
    cases this

theorem markDirty (h : Agrees mode busy x a) (hc : x.cached = some c) (ho : a.opener = some t)
    (hb : ∀ u, busy' u → busy u) : Agrees mode busy' ⟨some { c with dirtyBy := some t }, x.kept, x.file⟩ a := by
  have hbefore : x.before = c.before := by rw [before, hc]
  refine ⟨hbefore ▸ h.opener, fun b hb => h.image b (hbefore.trans hb), h.locked, h.own,
    fun u hu => h.working u (hb u hu), fun _ _ => h.apart c hc, fun c' hc' => ?_, fun c' u hc' hd => ?_,
    fun hn => ?_, h.clean, fun b hb hd => h.unstolen b (hbefore.trans hb) hd⟩
  · cases hc'
    exact h.content c hc
  · cases hc'
    cases hd
    exact ho
  · cases hn _ rfl

end Agrees

/-! ## Ends of transactions -/

variable {mode : TxnId → Option LockMode} {busy : TxnId → Prop} {x : Copies} {a : Account}
  {t : TxnId} {c : Copy}

/-- A transaction has the page open, and no other has anything in it. -/
structure Closing (t : TxnId) (a : Account) : Prop where
  opener : a.opener = some t
  own : ∀ u, u ≠ t → a.own u = none

theorem Agrees.closing (h : Agrees mode busy x a) (ho : a.opener = some t) : Closing t a :=
  ⟨ho, fun _ hu => h.own_of_ne ho hu⟩

/-- Once the transaction has ended, a page that holds its committed bytes wherever it is agrees with its
account. -/
theorem Closing.agrees (h : Closing t a) (commits : Bool) (bytes : Bytes)
    (hbytes : bytes = if commits then a.view t else a.committed) (hbusy : ∀ u, ¬ busy u) (hk : x.kept = none)
    (hc : ∀ c, x.cached = some c → c = ⟨bytes, none, none⟩) (hf : x.file = a.outside.getD bytes) :
    Agrees mode busy x (a.complete t commits) := by
  have hopener : (a.complete t commits).opener = none := by rw [Account.complete, if_pos h.opener]
  have hown : ∀ u, (a.complete t commits).own u = none := fun u => by
    show (if u = t then none else a.own u) = none
    split
    · rfl
    · rename_i e
      exact h.own u e
  have hcommitted : (a.complete t commits).committed = bytes := hbytes.symm
  have hbefore : x.before = none := by
    unfold Copies.before
    split
    · exact hk
    · rename_i c hc'
      rw [hc c hc']
  refine ⟨?_, fun b hb => ?_, fun u hu => ?_, fun u hu => absurd (hown u) hu, fun u hu => absurd hu (hbusy u),
    fun _ _ => hk, fun c hc' => ?_, fun c u hc' hd => ?_, fun _ _ b hb => ?_, fun _ => ?_, fun b hb => ?_⟩
  · rw [hopener, hbefore]
    rfl
  · rw [hbefore] at hb
    cases hb
  · rw [hopener] at hu
    cases hu
  · rw [hc c hc', Account.current_of_none hopener, hcommitted]
  · rw [hc c hc'] at hd
    cases hd
  · rw [hbefore] at hb
    cases hb
  · rw [hcommitted]
    exact hf
  · rw [hbefore] at hb
    cases hb

theorem Agrees.filter_kept_of_ne (h : Agrees mode busy x a) (ho : a.opener ≠ some t) :
    x.kept.filter (fun b => b.owner ≠ t) = x.kept := by
  cases hk : x.kept with
  | none => rfl
  | some b =>
    refine Option.filter_eq_some_iff.2 ⟨rfl, decide_eq_true fun e => ho ?_⟩
    cases hc : x.cached with
    | some c =>
      have := h.apart c hc
      rw [hk] at this
      cases this
    | none => rw [h.opener, before, hc, hk, Option.map_some, e]

theorem Agrees.filter_kept (h : Agrees mode busy x a) (hc : x.cached = none) (ho : a.opener = some t) :
    x.kept.filter (fun b => b.owner ≠ t) = none := by
  rw [h.opener, before, hc] at ho
  obtain ⟨b, hb, howner⟩ := Option.map_eq_some_iff.1 ho
  rw [show x.kept = some b from hb, Option.filter_some, if_neg]
  simp [howner]

/-- The page is as its transaction has left it, which works on it no more. -/
structure Owned (t : TxnId) (x : Copies) (a : Account) : Prop where
  opener : a.opener = some t
  agrees : Agrees (fun u => if u = t then some .write else none) (fun _ => False) x a

theorem Agrees.owned (h : Agrees mode busy x a) (hb : ∀ u, ¬ busy u) (ho : a.opener = some t) : Owned t x a := by
  refine ⟨ho, (h.relock fun u hu => ?_).rebusy fun u => ⟨False.elim, hb u⟩⟩
  exact if_pos (Option.some.inj (hu.symm.trans ho))

namespace Owned

theorem toAgrees (h : Owned t x a) (hm : mode t = some .write) (hb : ∀ u, ¬ busy u) : Agrees mode busy x a := by
  refine (h.agrees.relock fun u hu => ?_).rebusy fun u => ⟨hb u, False.elim⟩
  rwa [← Option.some.inj (h.opener.symm.trans hu)]

theorem closing (h : Owned t x a) : Closing t a := h.agrees.closing h.opener

/-- In its frame it has a before-image. -/
theorem before_ne_none (h : Owned t x a) (hc : x.cached = some c) : c.before ≠ none := by
  have ho := h.agrees.opener.symm.trans h.opener
  rw [before, hc] at ho
  obtain ⟨b, hb, -⟩ := Option.map_eq_some_iff.1 ho
  rw [show c.before = some b from hb]
  exact Option.some_ne_none b

theorem write (h : Owned t x a) {u : TxnId} (hc : x.cached = some c) (hd : c.dirtyBy = some u) :
    Owned t ⟨some ⟨c.bytes, none, c.before.map fun b => { b with onDisk := true }⟩, x.kept, c.bytes⟩
      { a with outside := none } :=
  ⟨h.opener, h.agrees.write hc hd⟩

theorem rewrite (h : Owned t x a) (bytes : Bytes) :
    Owned t { x with file := bytes } { a with outside := some bytes } :=
  ⟨h.opener, h.agrees.rewrite bytes⟩

end Owned

/-- The before-image of a page has been given up for a commit. -/
structure Taken (t : TxnId) (x : Copies) (a : Account) : Prop extends Closing t a where
  kept : x.kept = none
  cached : ∀ c, x.cached = some c → c.before = none ∧ c.bytes = a.view t
  file : (∀ c, x.cached = some c → c.dirtyBy = none) → x.file = a.outside.getD (a.view t)

theorem Owned.take (h : Owned t x a) (hc : x.cached = some c) :
    Taken t ⟨some { c with before := none }, x.kept, x.file⟩ a := by
  have hcurrent : a.current = a.view t := Account.current_of_opener h.opener
  refine ⟨h.closing, h.agrees.apart c hc, fun c' hc' => ?_, fun hd => ?_⟩
  · cases hc'
    exact ⟨rfl, (h.agrees.content c hc).trans hcurrent⟩
  · obtain ⟨b, hb', -⟩ := Option.map_eq_some_iff.1 (h.agrees.opener.symm.trans h.opener)
    rw [← hcurrent]
    refine (h.agrees.settled (fun c' hc' => ?_) (fun _ => id) b hb').2
    rw [hc] at hc'
    cases hc'
    exact (hd { c with before := none } rfl :)

namespace Taken

theorem write (h : Taken t x a) (hc : x.cached = some c) :
    Taken t ⟨some ⟨c.bytes, none, none⟩, x.kept, c.bytes⟩ { a with outside := none } := by
  have hbytes := (h.cached c hc).2
  refine ⟨⟨h.opener, h.own⟩, h.kept, fun c' hc' => ?_, fun _ => hbytes⟩
  cases hc'
  exact ⟨rfl, hbytes⟩

theorem rewrite (h : Taken t x a) (bytes : Bytes) :
    Taken t { x with file := bytes } { a with outside := some bytes } :=
  ⟨⟨h.opener, h.own⟩, h.kept, h.cached, fun _ => rfl⟩

theorem evict (h : Taken t x a) (hc : x.cached = some c) (hd : c.dirtyBy = none) : Taken t ⟨none, none, x.file⟩ a := by
  refine ⟨h.toClosing, rfl, nofun, fun _ => h.file fun c' hc' => ?_⟩
  rw [hc] at hc'
  cases hc'
  exact hd

theorem complete (h : Taken t x a) (hb : ∀ u, ¬ busy u) (hd : ∀ c, x.cached = some c → c.dirtyBy = none) :
    Agrees mode busy x (a.complete t true) := by
  refine h.toClosing.agrees true (a.view t) rfl hb h.kept (fun c hc => ?_) (h.file hd)
  obtain ⟨hbefore, hbytes⟩ := h.cached c hc
  have hdirty := hd c hc
  obtain ⟨bytes, dirtyBy, before⟩ := c
  cases hbefore
  cases hbytes
  cases hdirty
  rfl

end Taken

/-- A page that has left the cache has its final bytes in its file already. -/
theorem Agrees.completeKept (h : Agrees mode busy x a) (hb : ∀ u, ¬ busy u) (hc : x.cached = none)
    (ho : a.opener = some t) : Agrees mode busy ⟨none, none, x.file⟩ (a.complete t true) := by
  refine (h.closing ho).agrees true _ rfl hb rfl (fun _ hc' => by cases hc') ?_
  rw [if_pos rfl, ← Account.current_of_opener ho]
  exact h.file_of_uncached hc hb

/-- A rollback has given the page its committed bytes. -/
structure Restored (t : TxnId) (x : Copies) (a : Account) : Prop extends Closing t a where
  kept : x.kept = none
  cached : ∀ c, x.cached = some c → c = ⟨a.committed, none, none⟩
  file : x.file = a.outside.getD a.committed

namespace Restored

theorem rewrite (h : Restored t x a) (bytes : Bytes) :
    Restored t { x with file := bytes } { a with outside := some bytes } :=
  ⟨⟨h.opener, h.own⟩, h.kept, h.cached, rfl⟩

theorem evict (h : Restored t x a) : Restored t ⟨none, none, x.file⟩ a :=
  ⟨h.toClosing, rfl, nofun, h.file⟩

theorem complete (h : Restored t x a) (hb : ∀ u, ¬ busy u) : Agrees mode busy x (a.complete t false) :=
  h.toClosing.agrees false _ rfl hb h.kept h.cached h.file

end Restored

/-- The before-image of a page that has left the cache has been taken away for a rollback, which is to write it. -/
structure Bare (t : TxnId) (x : Copies) (a : Account) : Prop extends Closing t a where
  cached : x.cached = none
  kept : x.kept = none

theorem Bare.rewrite (h : Bare t x a) (bytes : Bytes) :
    Bare t { x with file := bytes } { a with outside := some bytes } :=
  ⟨⟨h.opener, h.own⟩, h.cached, h.kept⟩

end Copies

end TupleStore
