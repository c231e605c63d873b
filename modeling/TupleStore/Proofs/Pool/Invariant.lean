import TupleStore.Proofs.File.Tables
import TupleStore.Proofs.Ledger.Records
import TupleStore.Proofs.Lock.Holders
import TupleStore.Proofs.Outcome
import TupleStore.Proofs.Pool.Copies
import TupleStore.Proofs.Pool.Frames

/-!
# The invariant of a store

What holds of a store whenever no operation is in the middle of a step: the parts of its pool agree, its
locks and its files are in order, every use of a page is covered by a lock, the copies of every page agree
with the account that the trace gives of it, changes that are not in the log are in the cache, the trace
keeps the rules, and the log holds the records that the trace has put into it.

* `Invariant` : all this, for the uses there are. What is asked of the copies of a page is a parameter,
  because a commit and a rollback take pages out of agreement for a while;
* `Stands` : the invariant between steps, where all copies agree with their accounts;
* `Invariant.off`, `Invariant.on` : one page left out while it is worked on, and taken in again;
* `Invariant.modifyFrame`, `Invariant.putPage`, `Invariant.note` and the like : what a single change of
  the store does to it.
-/

namespace TupleStore

set_option autoImplicit false

/-! ## Definitions -/

namespace Store

/-- The bytes that pages have in their files. -/
def onFile (s : Store) (page : PageId) : Bytes := s.volume.pageBytes s.catalog page

/-- Where the bytes of a page are. -/
def copies (s : Store) (page : PageId) : Copies where
  cached := (s.pool.find? page).map fun f => (s.pool.frame f).copy
  kept := s.pool.retained[page]?
  file := s.onFile page

/-- The lock of a transaction on a page. -/
def mode? (s : Store) (t : TxnId) (page : PageId) : Option LockMode := s.pool.locks.mode? t page

theorem mode?_congr {s s' : Store} (h : s'.pool.locks = s.pool.locks) : s'.mode? = s.mode? := by
  unfold mode?
  rw [h]

end Store

/-- A transaction has opened a page for change and holds it still. -/
def WorksOn (uses : List Use) (page : PageId) (t : TxnId) : Prop :=
  ∃ u ∈ uses, u.page = page ∧ u.changed = true ∧ u.holder = some (t, .write)

/-- What is held is enough for what is asked. -/
def Covered (held : Option LockMode) (mode : LockMode) : Prop := ∃ m, held = some m ∧ m.covers mode = true

/-- A copy is as long as a page, and so is its before-image. -/
def Copy.Fits (size : Nat) (c : Copy) : Prop :=
  c.bytes.length = size ∧ ∀ b, c.before = some b → b.bytes.length = size

/-- The copies of a page are as long as a page, and there are some only of pages that there are. -/
structure Copies.Fit (size : Nat) (there : Prop) (x : Copies) : Prop where
  cached : ∀ c, x.cached = some c → there ∧ c.Fits size
  kept : ∀ b, x.kept = some b → there ∧ b.bytes.length = size

/-- The tables of a store as they are since a first store: the same ones, and in order. -/
structure Grounded (s₀ : Store) (v : Volume) (c : Catalog) (config : Config) : Prop where
  files : v.Registered c
  grown : s₀.volume.Extends v
  catalog : c = s₀.catalog
  config : config = s₀.pool.config

/-- A change of a page waits in its frame to be logged: it will be, as there is the before-image, and the frame
is dirty or will be when the work on it is done. -/
def Copies.Pending (uses : List Use) (page : PageId) (x : Copies) : Prop :=
  ∃ c, x.cached = some c ∧ c.before ≠ none ∧ (c.dirtyBy ≠ none ∨ ∃ t, WorksOn uses page t)

/-- The invariant of a store, with a condition on the copies of each page and their account. -/
structure Invariant (s₀ : Store) (uses : List Use) (ok : PageId → Copies → Account → Prop) (s : Store) :
    Prop where
  pool : s.pool.Sound uses
  locks : s.pool.locks.Sound
  ground : Grounded s₀ s.volume s.catalog s.pool.config
  covered : ∀ u ∈ uses, ∀ t m, u.holder = some (t, m) → Covered (s.pool.locks.mode? t u.page) m
  touched : ∀ t page, Touched t page s.trace → s.pool.locks.mode? t page ≠ none
  unlogged : ∀ t page, Unlogged t page s.trace → (s.copies page).Pending uses page
  fit : ∀ page, (s.copies page).Fit s.pool.config.pageSize
    (s.volume.HasPage s.catalog s.pool.config.pageSize page)
  pages : ∀ page, ok page (s.copies page) (account s₀.onFile s.trace page)
  lawful : Lawful s₀.onFile s.trace
  log : s₀.log.Holds [] → s.log.Holds (recorded s.trace)

/-- The copies of a page agree with its account. -/
def Agree (mode? : TxnId → PageId → Option LockMode) (uses : List Use) (page : PageId) (x : Copies)
    (a : Account) : Prop :=
  x.Agrees (fun t => mode? t page) (WorksOn uses page) a

/-- The invariant of a store between steps. -/
def Stands (s₀ : Store) (uses : List Use) (s : Store) : Prop := Invariant s₀ uses (Agree s.mode? uses) s

/-- A condition for all pages but one. -/
def Off (page : PageId) (ok : PageId → Copies → Account → Prop) (q : PageId) (x : Copies) (a : Account) :
    Prop := q ≠ page → ok q x a

/-! ## Locks and uses -/

theorem Covered.ne_none {held : Option LockMode} {mode : LockMode} (h : Covered held mode) : held ≠ none := by
  obtain ⟨m, hm, -⟩ := h
  rw [hm]
  exact Option.some_ne_none _

theorem Covered.write {held : Option LockMode} (h : Covered held .write) : held = some .write := by
  obtain ⟨m, hm, hc⟩ := h
  rw [hm]
  cases m with
  | read => cases hc
  | write => rfl

theorem covered_of_write {held : Option LockMode} (h : held = some .write) (mode : LockMode) :
    Covered held mode := by
  refine ⟨.write, h, ?_⟩
  cases mode <;> rfl

theorem worksOn_cons {u : Use} {uses : List Use} {page : PageId} {t : TxnId} :
    WorksOn (u :: uses) page t ↔
      (u.page = page ∧ u.changed = true ∧ u.holder = some (t, .write)) ∨ WorksOn uses page t := by
  unfold WorksOn
  simp only [List.mem_cons, exists_eq_or_imp]

theorem WorksOn.append {uses : List Use} {page : PageId} {t : TxnId} (h : WorksOn uses page t) (uses' : List Use) :
    WorksOn (uses ++ uses') page t :=
  h.imp fun _ hu => ⟨List.mem_append_left _ hu.1, hu.2⟩

theorem worksOn_perm {uses uses' : List Use} (e : uses.Perm uses') (page : PageId) (t : TxnId) :
    WorksOn uses page t ↔ WorksOn uses' page t := by
  unfold WorksOn
  simp only [e.mem_iff]

/-- A use that was not opened for change does not count as work. -/
theorem worksOn_cons_of_unchanged {u : Use} (hu : u.changed = false) (uses : List Use) (page : PageId)
    (t : TxnId) : WorksOn (u :: uses) page t ↔ WorksOn uses page t := by
  rw [worksOn_cons, hu]
  simp

theorem Copies.Pending.mono {uses uses' : List Use} {page : PageId} {x : Copies} (h : x.Pending uses page)
    (hworks : (∃ t, WorksOn uses page t) → (∃ t, WorksOn uses' page t) ∨
      ∀ c, x.cached = some c → c.dirtyBy ≠ none) : x.Pending uses' page := by
  obtain ⟨c, hc, hb, hd⟩ := h
  refine ⟨c, hc, hb, hd.elim Or.inl fun hw => ?_⟩
  exact (hworks hw).symm.imp_left fun hd => hd c hc

/-! ## Copies under changes of the pool -/

namespace Store

variable {s : Store} {f : FrameId} {page : PageId}

theorem copies_eq (hm : s.pool.Maps) (hf : (s.pool.frame f).page = some page) :
    s.copies page = ⟨some (s.pool.frame f).copy, s.pool.retained[page]?, s.onFile page⟩ := by
  rw [copies, (hm page f).2 hf, Option.map_some]

theorem cached_eq (hm : s.pool.Maps) (hf : (s.pool.frame f).page = some page) :
    (s.copies page).cached = some (s.pool.frame f).copy := by
  rw [copies_eq hm hf]

/-- A change of the pool that leaves all frames, the page table and the retained before-images alone. -/
theorem copies_congr {p : Pool} (hframe : ∀ f, (p.frame f).copy = (s.pool.frame f).copy)
    (hfind : ∀ page, p.find? page = s.pool.find? page) (hkept : p.retained = s.pool.retained) (page : PageId) :
    Store.copies { s with pool := p } page = s.copies page := by
  unfold copies
  rw [show ({ s with pool := p } : Store).pool = p from rfl, hfind, hkept]
  simp only [hframe]
  rfl

/-- A frame that is changed in its place leaves the copies of other pages alone. -/
theorem copies_modifyFrame_of_ne (hm : s.pool.Maps) (hf : (s.pool.frame f).page = some page)
    (c : Frame → Frame) {q : PageId} (hq : q ≠ page) :
    (s.modifyPool fun p => p.modifyFrame f c).copies q = s.copies q := by
  unfold copies modifyPool
  have hfind : (s.pool.modifyFrame f c).find? q = s.pool.find? q := rfl
  simp only [hfind]
  cases hg : s.pool.find? q with
  | none => rfl
  | some g =>
    have hne : g ≠ f := by
      rintro rfl
      rw [hm, hf] at hg
      exact hq (Option.some.inj hg).symm
    rw [Option.map_some, Option.map_some, Pool.frame_modifyFrame_of_ne hne]
    rfl

theorem copies_modifyFrame (hm : s.pool.Maps) (hf : (s.pool.frame f).page = some page)
    (c : Frame → Frame) :
    (s.modifyPool fun p => p.modifyFrame f c).copies page =
      { s.copies page with cached := some (c (s.pool.frame f)).copy } := by
  unfold copies modifyPool
  have hfind : (s.pool.modifyFrame f c).find? page = some f := (hm page f).2 hf
  simp only [hfind, Option.map_some, Pool.frame_modifyFrame_self hf]
  rfl

/-- A page that goes leaves its before-image behind. -/
theorem copies_unmap (hm : s.pool.Maps) (hf : (s.pool.frame f).page = some page) :
    (s.modifyPool fun p => p.unmap f page).copies page =
        ⟨none, (s.pool.frame f).before.or s.pool.retained[page]?, s.onFile page⟩ ∧
      ∀ q, q ≠ page → (s.modifyPool fun p => p.unmap f page).copies q = s.copies q := by
  refine ⟨?_, fun q hq => ?_⟩
  · unfold copies modifyPool
    simp only [Pool.find?_unmap, Pool.retained_unmap, if_pos, Option.map_none]
    rfl
  · rw [← copies_modifyFrame_of_ne hm hf Frame.reset hq]
    unfold copies modifyPool
    simp only [Pool.find?_unmap, Pool.retained_unmap, if_neg hq]
    rfl

/-- A page that comes brings its before-image with it. -/
theorem copies_install (hm : s.pool.Maps) (hlt : f < s.pool.frames.length) (hf : (s.pool.frame f).page = none)
    (page : PageId) (bytes : Bytes) :
    (s.modifyPool fun p => p.install f page bytes).copies page =
        ⟨some ⟨bytes, none, (s.copies page).kept⟩, none, s.onFile page⟩ ∧
      ∀ q, q ≠ page → (s.modifyPool fun p => p.install f page bytes).copies q = s.copies q := by
  refine ⟨?_, fun q hq => ?_⟩
  · unfold copies modifyPool
    have hframe : ((s.pool.install f page bytes).frame f).copy = ⟨bytes, none, s.pool.retained[page]?⟩ := by
      unfold Pool.install Pool.frame Pool.modifyFrame
      simp [hlt, Frame.copy]
    simp only [Pool.find?_install, Pool.retained_install, if_pos, Option.map_some, hframe]
    rfl
  · unfold copies modifyPool
    simp only [Pool.find?_install, Pool.retained_install, if_neg hq]
    cases hg : s.pool.find? q with
    | none => rfl
    | some g =>
      have hne : g ≠ f := by
        rintro rfl
        rw [hm, hf] at hg
        cases hg
      rw [Option.map_some, Option.map_some,
        show (s.pool.install f page bytes).frame g = s.pool.frame g from Pool.frame_modifyFrame_of_ne hne _]
      rfl

end Store

namespace Invariant

variable {s₀ s : Store} {uses : List Use} {ok ok' : PageId → Copies → Account → Prop} {f : FrameId}
  {page : PageId}

theorem mono (h : Invariant s₀ uses ok s)
    (hok : ∀ page, ok page (s.copies page) (account s₀.onFile s.trace page) →
      ok' page (s.copies page) (account s₀.onFile s.trace page)) : Invariant s₀ uses ok' s :=
  { h with pages := fun page => hok page (h.pages page) }

theorem off (h : Invariant s₀ uses ok s) (page : PageId) : Invariant s₀ uses (Off page ok) s :=
  h.mono fun _ hq _ => hq

theorem on (h : Invariant s₀ uses (Off page ok) s)
    (hp : ok page (s.copies page) (account s₀.onFile s.trace page)) : Invariant s₀ uses ok s := by
  refine h.mono fun q hq => ?_
  by_cases e : q = page
  · subst e
    exact hp
  · exact hq e

theorem perm (h : Invariant s₀ uses ok s) {uses' : List Use} (e : uses.Perm uses') :
    Invariant s₀ uses' ok s :=
  { h with
    pool := h.pool.perm e
    covered := fun u hu => h.covered u (e.mem_iff.2 hu)
    unlogged := fun t page hu =>
      (h.unlogged t page hu).mono fun ⟨v, hv⟩ => Or.inl ⟨v, (worksOn_perm e page v).1 hv⟩ }

/-! ## Changes of the pool -/

/-- A change of what the invariant does not speak of. -/
theorem congr (h : Invariant s₀ uses ok s) {p : Pool} (hframes : p.frames = s.pool.frames)
    (htable : p.pageTable = s.pool.pageTable) (hfree : p.free = s.pool.free)
    (hpending : p.pendingFree = s.pool.pendingFree) (hclock : p.clock = s.pool.clock)
    (hkept : p.retained = s.pool.retained) (hlocks : p.locks = s.pool.locks)
    (hconfig : p.config = s.pool.config) : Invariant s₀ uses ok { s with pool := p } := by
  have hcopies : ∀ page, Store.copies { s with pool := p } page = s.copies page :=
    Store.copies_congr (fun f => by rw [Pool.frame, hframes]; rfl) (fun q => by rw [Pool.find?, htable]; rfl)
      hkept
  refine ⟨h.pool.congr hframes htable hfree hpending hclock, ?_, ?_, ?_, ?_, fun t page hu => ?_, fun page => ?_,
    fun page => ?_, h.lawful, h.log⟩
  · show p.locks.Sound
    rw [hlocks]
    exact h.locks
  · show Grounded s₀ s.volume s.catalog p.config
    rw [hconfig]
    exact h.ground
  · show ∀ u ∈ uses, ∀ t m, u.holder = some (t, m) → Covered (p.locks.mode? t u.page) m
    rw [hlocks]
    exact h.covered
  · show ∀ t page, Touched t page s.trace → p.locks.mode? t page ≠ none
    rw [hlocks]
    exact h.touched
  · rw [hcopies]
    exact h.unlogged t page hu
  · rw [hcopies]
    show (s.copies page).Fit p.config.pageSize (s.volume.HasPage s.catalog p.config.pageSize page)
    rw [hconfig]
    exact h.fit page
  · rw [hcopies]
    exact h.pages page

/-- A change of a frame that its copy does not show, such as a pin. A page that is no longer worked on is dirty. -/
theorem modifyFrame_of_copy (h : Invariant s₀ uses ok s) {uses' : List Use} {c : Frame → Frame}
    (hpool : (s.pool.modifyFrame f c).Sound uses') (hcopy : ∀ x, (c x).copy = x.copy)
    (hcovered : ∀ u ∈ uses', ∀ t m, u.holder = some (t, m) → Covered (s.pool.locks.mode? t u.page) m)
    (hworks : ∀ page t, WorksOn uses page t → WorksOn uses' page t ∨
      ∀ c, (s.copies page).cached = some c → c.dirtyBy ≠ none) :
    Invariant s₀ uses' ok (s.modifyPool fun p => p.modifyFrame f c) := by
  have hcopies : ∀ page, (s.modifyPool fun p => p.modifyFrame f c).copies page = s.copies page :=
    Store.copies_congr (fun g => Pool.modifyFrame_keeps s.pool f g Frame.copy hcopy) (fun _ => rfl) rfl
  refine ⟨hpool, h.locks, h.ground, hcovered, h.touched, fun t page hu => ?_, fun page => ?_, fun page => ?_,
    h.lawful, h.log⟩
  · rw [hcopies]
    exact (h.unlogged t page hu).mono fun ⟨v, hv⟩ => (hworks page v hv).imp_left fun hv => ⟨v, hv⟩
  · rw [hcopies]
    exact h.fit page
  · rw [hcopies]
    exact h.pages page

theorem pin (h : Invariant s₀ uses ok s) {u : Use} (hu : (s.pool.frame u.frame).page = some u.page)
    (hc : ∀ t m, u.holder = some (t, m) → Covered (s.pool.locks.mode? t u.page) m) :
    Invariant s₀ (u :: uses) ok (s.modifyPool fun p => p.pin u.frame) := by
  refine h.modifyFrame_of_copy (h.pool.pin hu) (fun _ => rfl) (fun v hv => ?_)
    fun page t hw => Or.inl (worksOn_cons.2 (Or.inr hw))
  rcases List.mem_cons.1 hv with rfl | hv
  · exact hc
  · exact h.covered v hv

theorem unpin {u : Use} (h : Invariant s₀ (u :: uses) ok s)
    (hdirty : u.changed = true → ∀ c, (s.copies u.page).cached = some c → c.dirtyBy ≠ none) :
    Invariant s₀ uses ok (s.modifyPool fun p => p.unpin u.frame) := by
  refine h.modifyFrame_of_copy h.pool.unpin (fun _ => rfl) (fun v hv => h.covered v (List.mem_cons_of_mem _ hv))
    fun page t hw => ?_
  rcases worksOn_cons.1 hw with ⟨rfl, hc, -⟩ | hw
  · exact Or.inr (hdirty hc)
  · exact Or.inl hw

theorem touch (h : Invariant s₀ uses ok s) (hf : (s.pool.frame f).page = some page) :
    Invariant s₀ uses ok (s.modifyPool fun p => p.touch f) :=
  { h with pool := h.pool.touch hf }

/-- A frame changed in its place. It keeps its before-image and stays dirty if a change of its page has not been
logged. -/
theorem modifyFrame (h : Invariant s₀ uses (Off page ok) s) (hf : (s.pool.frame f).page = some page)
    {c : Frame → Frame} (hpage : ∀ x, (c x).page = x.page) (hpins : ∀ x, (c x).pins = x.pins)
    (hfits : (c (s.pool.frame f)).copy.Fits s.pool.config.pageSize)
    (hkeeps : (∀ t, ¬Unlogged t page s.trace) ∨
      ((s.pool.frame f).before ≠ none → (c (s.pool.frame f)).before ≠ none) ∧
        ((s.pool.frame f).dirtyBy ≠ none → (c (s.pool.frame f)).dirtyBy ≠ none)) :
    Invariant s₀ uses (Off page ok) (s.modifyPool fun p => p.modifyFrame f c) := by
  refine ⟨h.pool.modifyFrame f hpage hpins, h.locks, h.ground, h.covered, h.touched, fun t q hu => ?_,
    fun q => ?_, fun q hq => ?_, h.lawful, h.log⟩
  · by_cases e : q = page
    · subst e
      rcases hkeeps with hnone | ⟨hbefore, hdirty⟩
      · exact absurd hu (hnone t)
      · obtain ⟨c', hc, hb, hd⟩ := h.unlogged t q hu
        rw [Store.cached_eq h.pool.mapped hf] at hc
        cases hc
        rw [Store.copies_modifyFrame h.pool.mapped hf]
        exact ⟨_, rfl, hbefore hb, hd.imp_left hdirty⟩
    · rw [Store.copies_modifyFrame_of_ne h.pool.mapped hf c e]
      exact h.unlogged t q hu
  · by_cases e : q = page
    · subst e
      rw [Store.copies_modifyFrame h.pool.mapped hf]
      refine ⟨fun c' hc => ?_, (h.fit q).kept⟩
      cases hc
      exact ⟨((h.fit q).cached _ (Store.cached_eq h.pool.mapped hf)).1, hfits⟩
    · rw [Store.copies_modifyFrame_of_ne h.pool.mapped hf c e]
      exact h.fit q
  · rw [Store.copies_modifyFrame_of_ne h.pool.mapped hf c hq]
    exact h.pages q hq

/-! ## Pages put in and taken out -/

theorem unmap (h : Invariant s₀ uses (Off page ok) s) (hf : (s.pool.frame f).page = some page)
    (hu : s.pool.isPinned f = false) (ht : s.pool.clock.tracks f = false)
    (hk : s.pool.retained[page]? = none) (hd : (s.pool.frame f).dirtyBy = none) :
    Invariant s₀ uses (Off page ok) (s.modifyPool fun p => p.unmap f page) ∧
      (s.modifyPool fun p => p.unmap f page).copies page = ⟨none, (s.pool.frame f).before, s.onFile page⟩ ∧
      ∀ q, q ≠ page → (s.modifyPool fun p => p.unmap f page).copies q = s.copies q := by
  have hpool := h.pool.unmap hf (h.pool.not_used hu) ht
  obtain ⟨hself, hother⟩ := Store.copies_unmap h.pool.mapped hf
  rw [hk, Option.or_none] at hself
  refine ⟨⟨hpool.1, h.locks, h.ground, h.covered, h.touched, fun t q hun => ?_, fun q => ?_, fun q hq => ?_,
    h.lawful, h.log⟩, hself, hother⟩
  · by_cases e : q = page
    · subst e
      obtain ⟨c, hc, -, hdirty⟩ := h.unlogged t q hun
      rw [Store.cached_eq h.pool.mapped hf] at hc
      cases hc
      rcases hdirty with hdirty | ⟨v, u, hin, hpage, -⟩
      · exact absurd hd hdirty
      · exact absurd (h.pool.frame_inj (hpage ▸ h.pool.used u hin) hf) (h.pool.not_used hu u hin)
    · rw [hother q e]
      exact h.unlogged t q hun
  · by_cases e : q = page
    · subst e
      rw [hself]
      have hcached := (h.fit q).cached _ (Store.cached_eq h.pool.mapped hf)
      exact ⟨nofun, fun b hb => ⟨hcached.1, hcached.2.2 b hb⟩⟩
    · rw [hother q e]
      exact h.fit q
  · rw [hother q hq]
    exact h.pages q hq

theorem install (h : Invariant s₀ uses (Off page ok) s) (bytes : Bytes) (hs : s.pool.Spare f)
    (hp : s.pool.find? page = none) (hl : bytes.length = s.pool.config.pageSize)
    (hthere : s.volume.HasPage s.catalog s.pool.config.pageSize page) :
    Invariant s₀ uses (Off page ok) (s.modifyPool fun p => p.install f page bytes) ∧
      (s.modifyPool fun p => p.install f page bytes).copies page =
        ⟨some ⟨bytes, none, (s.copies page).kept⟩, none, s.onFile page⟩ := by
  have hpool := h.pool.install hs hp bytes
  obtain ⟨hself, hother⟩ := Store.copies_install h.pool.mapped hs.lt hs.empty page bytes
  refine ⟨⟨hpool.1, h.locks, h.ground, h.covered, h.touched, fun t q hu => ?_, fun q => ?_, fun q hq => ?_,
    h.lawful, h.log⟩, hself⟩
  · by_cases e : q = page
    · subst e
      obtain ⟨c, hc, -⟩ := h.unlogged t q hu
      rw [Store.copies, hp] at hc
      cases hc
    · rw [hother q e]
      exact h.unlogged t q hu
  · by_cases e : q = page
    · subst e
      rw [hself]
      refine ⟨fun c hc => ?_, fun b hb => by cases hb⟩
      cases hc
      exact ⟨hthere, hl, fun b hb => ((h.fit q).kept b hb).2⟩
    · rw [hother q e]
      exact h.fit q
  · rw [hother q hq]
    exact h.pages q hq

theorem takeFree (h : Invariant s₀ uses ok s) {rest : List FrameId} (hf : s.pool.free = f :: rest) :
    Invariant s₀ uses ok (s.modifyPool fun p => { p with free := rest }) ∧
      (s.modifyPool fun p => { p with free := rest }).pool.Spare f :=
  ⟨{ h with pool := (h.pool.takeFree hf).1 }, (h.pool.takeFree hf).2⟩

theorem takeVictim (h : Invariant s₀ uses ok s) (isPinned : FrameId → Bool) :
    Invariant s₀ uses ok (s.modifyPool fun p => { p with clock := (s.pool.clock.evict isPinned).2 }) :=
  { h with pool := h.pool.takeVictim }

/-! ## Changes of locks, trace and files -/

/-- Other locks, by which uses and touched pages are covered still. -/
theorem relock (h : Invariant s₀ uses ok s) {p : Pool} {locks : LockTable} (hp : p = { s.pool with locks })
    (hl : locks.Sound) (hcovered : ∀ u ∈ uses, ∀ t m, u.holder = some (t, m) → Covered (locks.mode? t u.page) m)
    (htouched : ∀ t page, Touched t page s.trace → locks.mode? t page ≠ none) :
    Invariant s₀ uses ok { s with pool := p } := by
  subst hp
  exact { h with
    pool := h.pool.congr rfl rfl rfl rfl rfl
    locks := hl
    covered := hcovered
    touched := htouched }

/-- One more event. -/
theorem note (h : Invariant s₀ uses ok s) {e : Effect} (log : Log) (hlaw : e.Lawful s₀.onFile s.trace)
    (htouched : ∀ t page, Touched t page (e :: s.trace) →
      Touched t page s.trace ∨ s.pool.locks.mode? t page ≠ none)
    (hok : ∀ page, ok page (s.copies page) (account s₀.onFile s.trace page) →
      ok' page (s.copies page) ((account s₀.onFile s.trace page).record page e))
    (hunlogged : ∀ t page, Unlogged t page (e :: s.trace) →
      Unlogged t page s.trace ∨ (s.copies page).Pending uses page := by exact fun _ _ hu => Or.inl hu)
    (hlog : s.log.Holds (recorded s.trace) → log.Holds (recorded (e :: s.trace)) := by exact id) :
    Invariant s₀ uses ok' { s with log, trace := e :: s.trace } :=
  { h with
    touched := fun t page ht => (htouched t page ht).elim (h.touched t page) id
    unlogged := fun t page hu => (hunlogged t page hu).elim (h.unlogged t page) id
    pages := fun page => hok page (h.pages page)
    lawful := ⟨hlaw, h.lawful⟩
    log := fun hl => hlog (h.log hl) }

/-- Other files with the same bytes in their pages. -/
theorem revolume (h : Invariant s₀ uses ok s) {v : Volume} (hreg : v.Registered s.catalog)
    (hgrown : s.volume.Extends v) (hbytes : ∀ q, v.pageBytes s.catalog q = s.onFile q) :
    Invariant s₀ uses ok { s with volume := v } := by
  have hcopies : ∀ q, Store.copies { s with volume := v } q = s.copies q := fun q =>
    congrArg (fun bytes => { s.copies q with file := bytes }) (hbytes q)
  refine ⟨h.pool, h.locks, ⟨hreg, h.ground.grown.trans hgrown, h.ground.catalog, h.ground.config⟩, h.covered,
    h.touched, fun t q hu => ?_, fun q => ?_, fun q => ?_, h.lawful, h.log⟩
  · rw [hcopies]
    exact h.unlogged t q hu
  · have hfit := h.fit q
    rw [hcopies]
    exact ⟨fun c hc => ⟨(hfit.cached c hc).1.extends hgrown, (hfit.cached c hc).2⟩,
      fun b hb => ⟨(hfit.kept b hb).1.extends hgrown, (hfit.kept b hb).2⟩⟩
  · rw [hcopies]
    exact h.pages q

theorem append (h : Invariant s₀ uses ok s) (r : LogRecord) (hlaw : Effect.Lawful s₀.onFile s.trace (.logged r)) :
    Invariant s₀ uses ok { s with log := s.log.append r, trace := .logged r :: s.trace } :=
  h.note (s.log.append r) hlaw (fun _ _ ht => Or.inl ht) (fun _ hp => hp) (fun _ _ hu => Or.inl hu.of_logged)
    fun hl => hl.append r

theorem force (h : Invariant s₀ uses ok s) :
    Invariant s₀ uses ok { s with log := s.log.force, trace := .forced :: s.trace } :=
  h.note s.log.force trivial (fun _ _ ht => Or.inl ht) (fun _ hp => hp) (fun _ _ hu => Or.inl hu) Log.Holds.force

/-- A page written to its file. -/
theorem putPage (h : Invariant s₀ uses (Off page ok) s) {hd : HandleId} {file : HeapFile} (bytes : Bytes)
    (hfile : s.volume.handles[hd]? = some file) (ht : page.table = file.id)
    (hl : bytes.length = file.pages.pageSize) {e : Effect} (hlaw : e.Lawful s₀.onFile s.trace)
    (htouched : ∀ t q, Touched t q (e :: s.trace) → Touched t q s.trace)
    (hunlogged : ∀ t q, Unlogged t q (e :: s.trace) → Unlogged t q s.trace)
    (hrecord : ∀ (q : PageId) (a : Account), q ≠ page → a.record q e = a)
    (hrecorded : recorded (e :: s.trace) = recorded s.trace := by exact rfl) :
    ∃ v, Action.putPage hd page bytes s = .ok () { s with volume := v } ∧ s.volume.Extends v ∧
      Invariant s₀ uses (Off page ok) { s with volume := v, trace := e :: s.trace } ∧
      Store.copies { s with volume := v, trace := e :: s.trace } page = { s.copies page with file := bytes } ∧
      ∀ q, q ≠ page → Store.copies { s with volume := v, trace := e :: s.trace } q = s.copies q := by
  obtain ⟨v, hv, hreg, hgrown, -, hbytes⟩ := h.ground.files.writePage hfile ht hl
  have hfileOf : ∀ q, Store.onFile { s with volume := v, trace := e :: s.trace } q =
      if q = page then bytes else s.onFile q := hbytes
  have hself : Store.copies { s with volume := v, trace := e :: s.trace } page =
      { s.copies page with file := bytes } := by
    unfold Store.copies
    rw [hfileOf, if_pos rfl]
  have hother : ∀ q, q ≠ page → Store.copies { s with volume := v, trace := e :: s.trace } q = s.copies q := by
    intro q hq
    unfold Store.copies
    rw [hfileOf, if_neg hq]
  refine ⟨v, ?_, hgrown, ⟨h.pool, h.locks, ⟨hreg, h.ground.grown.trans hgrown, h.ground.catalog, h.ground.config⟩,
    h.covered, fun t q hq => h.touched t q (htouched t q hq), fun t q hu => ?_, fun q => ?_, fun q hq => ?_,
    ⟨hlaw, h.lawful⟩, fun hl => hrecorded ▸ h.log hl⟩, hself, hother⟩
  · unfold Action.putPage
    rw [Action.bind_of_ok (Action.file_of_some (s := s) hfile), Action.bind_of_ok (Action.run_get s), hv]
    rfl
  · obtain ⟨c, hc, hp⟩ := h.unlogged t q (hunlogged t q hu)
    refine ⟨c, ?_, hp⟩
    by_cases e : q = page
    · rw [e, hself, ← e]
      exact hc
    · rw [hother q e]
      exact hc
  · have hfit := h.fit q
    by_cases e : q = page
    · subst e
      rw [hself]
      exact ⟨fun c hc => ⟨(hfit.cached c hc).1.extends hgrown, (hfit.cached c hc).2⟩,
        fun b hb => ⟨(hfit.kept b hb).1.extends hgrown, (hfit.kept b hb).2⟩⟩
    · rw [hother q e]
      exact ⟨fun c hc => ⟨(hfit.cached c hc).1.extends hgrown, (hfit.cached c hc).2⟩,
        fun b hb => ⟨(hfit.kept b hb).1.extends hgrown, (hfit.kept b hb).2⟩⟩
  · rw [hother q hq]
    show ok q (s.copies q) ((account s₀.onFile s.trace q).record q e)
    rw [hrecord q _ hq]
    exact h.pages q hq

end Invariant

/-! ## Uses begun and ended -/

namespace Stands

variable {s₀ s : Store} {uses uses' : List Use} {u : Use} {page : PageId}

theorem reuse {mode? : TxnId → PageId → Option LockMode}
    (h : Invariant s₀ uses' (Agree mode? uses) s) (hw : ∀ page t, WorksOn uses' page t ↔ WorksOn uses page t) :
    Invariant s₀ uses' (Agree mode? uses') s :=
  h.mono fun page hp => hp.rebusy (hw page)

theorem perm (h : Stands s₀ uses s) (e : uses.Perm uses') : Stands s₀ uses' s :=
  reuse (Invariant.perm h e) fun page t => worksOn_perm e.symm page t

end Stands

end TupleStore
