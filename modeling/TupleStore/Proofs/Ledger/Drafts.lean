import TupleStore.Proofs.Pool.Copies

/-!
# Pages that can be discarded

A page that is dropped from the cache goes back to what its file has. What it is to hold then is not the account of
its changes any more: changes that have not reached the file are gone, and a change made in a frame that the page has
left is none. A `Draft` keeps what it is to hold instead: the content for whoever is given the page next, and the one
that comes back if the transaction that changes it is rolled back.

* `Draft.record`, `Draft.discard` : what changes of pages, ends of transactions and discards do to a draft;
* `Copies.flush`, `Copies.leave`, `Copies.load`, `Copies.discard`, `Copies.commit`, `Copies.rollback` : what the cache
  does to the copies of a page;
* `Copies.Drafted` : how the copies stand to the draft of the page. The moves of the cache keep it, as long as nobody
  changes the page when it leaves (`Drafted.shift`), changes keep it (`Drafted.openFor`, `Drafted.setBytes`), and so
  do discards at any moment (`Drafted.discard`) and ends of transactions (`Drafted.commit`, `Drafted.rollback`).
-/

namespace TupleStore

set_option autoImplicit false

/-! ## Drafts -/

/-- What a page is to hold. -/
structure Draft where
  /-- The content that comes back if the page is rolled back. -/
  committed : Bytes
  /-- The content for whoever is given the page next. -/
  current : Bytes
  /-- The transaction that has opened the page. -/
  owner : Option TxnId := none
  /-- All contents that the page has been given, the newest first. -/
  given : List Bytes

namespace Draft

def ofBytes (bytes : Bytes) : Draft where
  committed := bytes
  current := bytes
  given := [bytes]

/-- The draft once a transaction has ended. -/
def complete (d : Draft) (t : TxnId) (commits : Bool) : Draft :=
  if d.owner = some t then
    let bytes := if commits then d.current else d.committed
    { d with committed := bytes, current := bytes, owner := none }
  else d

/-- The draft of a page after an event. -/
def record (page : PageId) (d : Draft) : Effect → Draft
  | .opened t q => if q = page then { d with owner := some t } else d
  | .changed t q bytes => if q = page then ⟨d.committed, bytes, some t, bytes :: d.given⟩ else d
  | .completed t commits => d.complete t commits
  | _ => d

/-- The draft of a page that is discarded while its file has some bytes. -/
def discard (d : Draft) (file : Bytes) : Draft := { d with current := file }

end Draft

/-- The drafts of all pages after a trace, whose newest event is first. -/
def drafts (first : PageId → Draft) : List Effect → PageId → Draft
  | [], page => first page
  | e :: past, page => (drafts first past page).record page e

/-! ## Moves of a page -/

/-- The copy once the file has its bytes. -/
def Copy.written (c : Copy) : Copy := ⟨c.bytes, none, c.before.map fun b => { b with onDisk := true }⟩

namespace Copies

/-- The page written to its file, if it is dirty. -/
def flush (x : Copies) : Copies :=
  match x.cached with
  | none => x
  | some c => if c.dirtyBy = none then x else ⟨some c.written, x.kept, c.bytes⟩

/-- The page out of the cache. -/
def leave (x : Copies) : Copies :=
  match x.cached with
  | none => x
  | some c => ⟨none, c.before.or x.kept, x.file⟩

/-- The page in the cache. -/
def load (x : Copies) : Copies :=
  match x.cached with
  | none => ⟨some ⟨x.file, none, x.kept⟩, none, x.file⟩
  | some _ => x

/-- The page dropped from the cache. -/
def discard (x : Copies) : Copies :=
  match x.cached with
  | none => x
  | some c => ⟨none, (c.before.filter BeforeImage.onDisk).or x.kept, x.file⟩

/-- The before-image of a transaction given up, in the frame of the page. -/
def take (t : TxnId) (x : Copies) : Copies :=
  { x with cached := x.cached.map fun c => { c with before := c.before.filter fun b => b.owner ≠ t } }

/-- The before-image of a transaction given up that was kept when the page left the cache. -/
def forget (t : TxnId) (x : Copies) : Copies := { x with kept := x.kept.filter fun b => b.owner ≠ t }

/-- The before-image of a transaction put back in the frame of the page, and in the file if it is needed there. -/
def restore (t : TxnId) (x : Copies) : Copies :=
  match x.cached with
  | none => x
  | some c =>
    match c.before.filter fun b => b.owner = t with
    | none => x
    | some b => ⟨some ⟨b.bytes, none, none⟩, x.kept, if b.onDisk then b.bytes else x.file⟩

/-- The kept before-image of a transaction put back in the file. -/
def restoreKept (t : TxnId) (x : Copies) : Copies :=
  match x.kept.filter fun b => b.owner = t with
  | none => x
  | some b => { x with kept := none, file := b.bytes }

/-- The page after a commit. A page that was not locked stays as it is in the cache. -/
def commit (t : TxnId) (locked : Prop) [Decidable locked] (x : Copies) : Copies :=
  (if locked then (x.take t).flush else x).forget t

/-- The page after a rollback. -/
def rollback (t : TxnId) (locked : Prop) [Decidable locked] (x : Copies) : Copies :=
  (if locked then x.restore t else x).restoreKept t

/-- The page after the end of a transaction. -/
def complete (t : TxnId) (commits : Bool) (locked : Prop) [Decidable locked] (x : Copies) : Copies :=
  if commits then x.commit t locked else x.rollback t locked

/-- What the cache does to a page of its own accord. A page comes and leaves only if nobody works on it. -/
inductive Shift (idle : Prop) (x : Copies) : Copies → Prop where
  | stay : Shift idle x x
  | flush {y : Copies} (h : Shift idle x y) : Shift idle x y.flush
  | leave {y : Copies} (h : Shift idle x y) (hclean : ∀ c, y.cached = some c → c.dirtyBy = none) (hi : idle) :
    Shift idle x y.leave
  | load {y : Copies} (h : Shift idle x y) (hi : idle) : Shift idle x y.load

theorem Shift.trans {idle : Prop} {x y z : Copies} (h : x.Shift idle y) (h' : y.Shift idle z) : x.Shift idle z := by
  induction h' with
  | stay => exact h
  | flush _ ih => exact ih.flush
  | leave _ hclean hi ih => exact ih.leave hclean hi
  | load _ hi ih => exact ih.load hi

theorem Shift.mono {idle idle' : Prop} {x y : Copies} (h : x.Shift idle y) (hi : idle → idle') : x.Shift idle' y := by
  induction h with
  | stay => exact .stay
  | flush _ ih => exact ih.flush
  | leave _ hclean h ih => exact ih.leave hclean (hi h)
  | load _ h ih => exact ih.load (hi h)

/-! ## Copies and drafts -/

/-- How the copies of a page stand to its draft, for the locks on the page, the transactions that are at work on it,
and those that have gone astray: they had the page in use when it was discarded. -/
structure Drafted (mode : TxnId → Option LockMode) (busy stray : TxnId → Prop) (x : Copies) (d : Draft) : Prop where
  owned : ∀ b, x.before = some b → d.owner = some b.owner
  image : ∀ b, x.before = some b → b.bytes = d.committed
  locked : ∀ t, d.owner = some t → mode t = some .write
  working : ∀ t, busy t → ∃ b, x.before = some b ∧ b.owner = t
  apart : ∀ c, x.cached = some c → x.kept = none
  content : ∀ c, x.cached = some c → c.bytes = d.current
  /-- Without a before-image there is nothing to be undone. -/
  plain : x.before = none → d.current = d.committed ∧ x.file = d.committed
  /-- Changed content is in the file if it is not in a dirty frame or about to be. -/
  settled : (∀ c, x.cached = some c → c.dirtyBy = none) → (∀ t, ¬ busy t) → x.file = d.current
  /-- Then the file has been written since the page was opened. -/
  stolen : (∀ c, x.cached = some c → c.dirtyBy = none) → (∀ t, ¬ busy t) → ∀ b, x.before = some b → b.onDisk = true
  unstolen : ∀ b, x.before = some b → b.onDisk = false → x.file = d.committed
  /-- A mark comes with a before-image, or from a transaction that has gone astray. -/
  marked : ∀ c t, x.cached = some c → c.dirtyBy = some t → stray t ∨ ∃ b, c.before = some b ∧ b.owner = t
  given : d.committed ∈ d.given ∧ d.current ∈ d.given ∧ x.file ∈ d.given

namespace Drafted

variable {mode mode' : TxnId → Option LockMode} {busy busy' stray : TxnId → Prop} {x : Copies} {d : Draft}
  {t : TxnId} {c : Copy}

theorem ofBytes (bytes : Bytes) : Drafted mode (fun _ => False) stray ⟨none, none, bytes⟩ (.ofBytes bytes) where
  owned := nofun
  image := nofun
  locked := nofun
  working _ h := h.elim
  apart := nofun
  content := nofun
  plain _ := ⟨rfl, rfl⟩
  settled _ _ := rfl
  stolen _ _ := nofun
  unstolen := nofun
  marked := nofun
  given := ⟨List.mem_singleton_self _, List.mem_singleton_self _, List.mem_singleton_self _⟩

/-- Locks that are no weaker for the transaction that has the page open. -/
theorem relock (h : Drafted mode busy stray x d) (hm : ∀ t, d.owner = some t → mode' t = some .write) :
    Drafted mode' busy stray x d :=
  { h with locked := hm }

theorem rebusy (h : Drafted mode busy stray x d) (hb : ∀ t, busy' t ↔ busy t) : Drafted mode busy' stray x d :=
  { h with
    working := fun t ht => h.working t ((hb t).1 ht)
    settled := fun hc hn => h.settled hc fun t ht => hn t ((hb t).2 ht)
    stolen := fun hc hn => h.stolen hc fun t ht => hn t ((hb t).2 ht) }

theorem owner_of_before (h : Drafted mode busy stray x d) {b : BeforeImage} (hb : x.before = some b) :
    mode b.owner = some .write :=
  h.locked _ (h.owned b hb)

/-- A page that is not cached has its content in its file. -/
theorem file_of_uncached (h : Drafted mode busy stray x d) (hc : x.cached = none) (hb : ∀ t, ¬ busy t) :
    x.file = d.current :=
  h.settled (fun _ hc' => absurd (hc.symm.trans hc') nofun) hb

/-! ### The cache at work -/

theorem flush (h : Drafted mode busy stray x d) : Drafted mode busy stray x.flush d := by
  obtain ⟨_ | c, kept, file⟩ := x
  · exact h
  by_cases hd : c.dirtyBy = none
  · rw [show Copies.flush ⟨some c, kept, file⟩ = ⟨some c, kept, file⟩ from if_pos hd]
    exact h
  rw [show Copies.flush ⟨some c, kept, file⟩ = ⟨some c.written, kept, c.bytes⟩ from if_neg hd]
  have hcontent := h.content c rfl
  have hbefore : ∀ b, c.written.before = some b → ∃ b', c.before = some b' ∧ { b' with onDisk := true } = b :=
    fun b hb => Option.map_eq_some_iff.1 hb
  exact {
    owned := fun b hb => by
      obtain ⟨b', hb', rfl⟩ := hbefore b hb
      exact h.owned b' hb'
    image := fun b hb => by
      obtain ⟨b', hb', rfl⟩ := hbefore b hb
      exact h.image b' hb'
    locked := h.locked
    working := fun t ht => by
      obtain ⟨b, hb, ho⟩ := h.working t ht
      have hb : c.before = some b := hb
      refine ⟨{ b with onDisk := true }, ?_, ho⟩
      show c.before.map _ = _
      rw [hb, Option.map_some]
    apart := fun _ _ => h.apart c rfl
    content := fun c' hc' => by
      cases hc'
      exact hcontent
    plain := fun hn => by
      obtain ⟨hcurrent, -⟩ := h.plain (Option.map_eq_none_iff.1 hn)
      exact ⟨hcurrent, hcontent.trans hcurrent⟩
    settled := fun _ _ => hcontent
    stolen := fun _ _ b hb => by
      obtain ⟨b', -, rfl⟩ := hbefore b hb
      rfl
    unstolen := fun b hb hdisk => by
      obtain ⟨b', -, rfl⟩ := hbefore b hb
      cases hdisk
    marked := fun c' v hc' hv => by
      cases hc'
      cases hv
    given := ⟨h.given.1, h.given.2.1, hcontent ▸ h.given.2.1⟩ }

theorem clean_flush (x : Copies) : ∀ c, x.flush.cached = some c → c.dirtyBy = none := by
  obtain ⟨_ | c, kept, file⟩ := x
  · exact nofun
  intro c' hc'
  unfold Copies.flush at hc'
  dsimp only at hc'
  split at hc'
  · cases hc'
    assumption
  · cases hc'
    rfl

theorem kept_flush (x : Copies) : x.flush.kept = x.kept := by
  obtain ⟨_ | c, kept, file⟩ := x
  · rfl
  unfold Copies.flush
  dsimp only
  split <;> rfl

theorem leave (h : Drafted mode busy stray x d) (hclean : ∀ c, x.cached = some c → c.dirtyBy = none)
    (hidle : ∀ t, ¬ busy t) :
    Drafted mode busy stray x.leave d := by
  obtain ⟨_ | c, kept, file⟩ := x
  · exact h
  have hkept : (c.before.or kept) = c.before := by
    rw [show kept = none from h.apart c rfl, Option.or_none]
  rw [show Copies.leave ⟨some c, kept, file⟩ = ⟨none, c.before.or kept, file⟩ from rfl, hkept]
  exact {
    owned := h.owned
    image := h.image
    locked := h.locked
    working := h.working
    apart := nofun
    content := nofun
    plain := h.plain
    settled := fun _ _ => h.settled hclean hidle
    stolen := fun _ _ => h.stolen hclean hidle
    unstolen := h.unstolen
    marked := nofun
    given := h.given }

theorem load (h : Drafted mode busy stray x d) (hidle : x.cached = none → ∀ t, ¬ busy t) :
    Drafted mode busy stray x.load d := by
  obtain ⟨_ | c, kept, file⟩ := x
  · have hfile := h.file_of_uncached rfl (hidle rfl)
    exact {
      owned := h.owned
      image := h.image
      locked := h.locked
      working := h.working
      apart := fun _ _ => rfl
      content := fun c hc => by
        cases hc
        exact hfile
      plain := h.plain
      settled := fun _ _ => hfile
      stolen := fun _ => h.stolen nofun
      unstolen := h.unstolen
      marked := fun c v hc hv => by
        cases hc
        cases hv
      given := h.given }
  · exact h

/-- What the cache does of its own accord leaves the draft as it is. -/
theorem shift {idle : Prop} {x' : Copies} (h : Drafted mode busy stray x d) (hs : x.Shift idle x')
    (hidle : idle → ∀ t, ¬ busy t) : Drafted mode busy stray x' d := by
  induction hs with
  | stay => exact h
  | flush _ ih => exact ih.flush
  | leave _ hclean hi ih => exact ih.leave hclean (hidle hi)
  | load _ hi ih => exact ih.load fun _ => hidle hi

/-! ### Changes -/

theorem openFor {f : Frame} (h : Drafted mode busy stray x d) (hc : x.cached = some f.copy) (ht : mode t = some .write)
    (halone : ∀ u, mode u = some .write → u = t) (hb : ∀ u, busy' u → u = t ∨ busy u) (hb' : busy' t) :
    Drafted mode busy' stray { x with cached := some (f.capture t).copy } { d with owner := some t } := by
  have hbefore : x.before = f.before := by
    rw [before, hc]
    rfl
  have hworking : ∀ u, busy' u → u = t := fun u hu => (hb u hu).elim id fun hu => by
    obtain ⟨b, hb, rfl⟩ := h.working u hu
    exact halone _ (h.owner_of_before hb)
  cases hf : f.before with
  | some b =>
    rw [hf] at hbefore
    have howner : b.owner = t := halone _ (h.owner_of_before hbefore)
    have hcap : f.capture t = f := by
      unfold Frame.capture Frame.beforeOf?
      simp [hf, Option.filter, howner]
    have hx : { x with cached := some (f.capture t).copy } = x := by rw [hcap, ← hc]
    rw [hx]
    exact { h with
      owned := fun b' hb' => by
        cases hbefore.symm.trans hb'
        rw [howner]
      locked := fun u hu => Option.some.inj hu ▸ ht
      working := fun u hu => ⟨b, hbefore, howner.trans (hworking u hu).symm⟩
      settled := fun _ hn => absurd hb' (hn t)
      stolen := fun _ hn => absurd hb' (hn t) }
  | none =>
    obtain ⟨hcurrent, hfile⟩ := h.plain (hbefore.trans hf)
    have hbytes : f.bytes = d.committed := (h.content _ hc).trans hcurrent
    have hcap : (f.capture t).copy = ⟨f.bytes, f.dirtyBy, some { owner := t, bytes := f.bytes }⟩ := by
      unfold Frame.capture Frame.beforeOf?
      simp [hf, Frame.copy]
    rw [hcap]
    exact {
      owned := fun b hb => by
        cases hb
        rfl
      image := fun b hb => by
        cases hb
        exact hbytes
      locked := fun u hu => Option.some.inj hu ▸ ht
      working := fun u hu => ⟨_, rfl, (hworking u hu).symm⟩
      apart := fun _ _ => h.apart _ hc
      content := fun c' hc' => by
        cases hc'
        exact h.content f.copy hc
      plain := fun hn => absurd hn (Option.some_ne_none _)
      settled := fun _ hn => absurd hb' (hn t)
      stolen := fun _ hn => absurd hb' (hn t)
      unstolen := fun _ _ _ => hfile
      marked := fun c' v hc' hv => by
        cases hc'
        refine (h.marked f.copy v hc hv).imp_right fun hbefore => ?_
        obtain ⟨b, hb, -⟩ := hbefore
        cases hf.symm.trans hb
      given := h.given }

theorem setBytes (h : Drafted mode busy stray x d) (hc : x.cached = some c) (hb : busy t) (bytes : Bytes) :
    Drafted mode busy stray { x with cached := some { c with bytes } } ⟨d.committed, bytes, some t, bytes :: d.given⟩ := by
  obtain ⟨b, hbefore, howner⟩ := h.working t hb
  have hsame : Copies.before { x with cached := some { c with bytes } } = x.before := by
    unfold before
    rw [hc]
  exact {
    owned := fun b' hb' => by
      cases hbefore.symm.trans (hsame ▸ hb')
      rw [howner]
    image := fun b' hb' => h.image b' (hsame ▸ hb')
    locked := fun u hu => by
      cases hu
      exact howner ▸ h.owner_of_before hbefore
    working := fun u hu => hsame ▸ h.working u hu
    apart := fun _ _ => h.apart c hc
    content := fun c' hc' => by
      cases hc'
      rfl
    plain := fun hn => by
      rw [hsame, hbefore] at hn
      cases hn
    settled := fun _ hn => absurd hb (hn t)
    stolen := fun _ hn => absurd hb (hn t)
    unstolen := fun b' hb' => h.unstolen b' (hsame ▸ hb')
    marked := fun c' v hc' hv => by
      cases hc'
      exact h.marked c v hc hv
    given := ⟨List.mem_cons_of_mem _ h.given.1, List.mem_cons_self .., List.mem_cons_of_mem _ h.given.2.2⟩ }

/-- A mark says nothing that its frame does not bear out. Work that ends has marked its page. -/
theorem markDirty (h : Drafted mode busy stray x d) (hc : x.cached = some c)
    (hm : stray t ∨ ∃ b, c.before = some b ∧ b.owner = t) (hb : ∀ u, busy' u → busy u) :
    Drafted mode busy' stray { x with cached := some { c with dirtyBy := some t } } d := by
  have hsame : Copies.before { x with cached := some { c with dirtyBy := some t } } = x.before := by
    unfold before
    rw [hc]
  exact {
    owned := fun b' hb' => h.owned b' (hsame ▸ hb')
    image := fun b' hb' => h.image b' (hsame ▸ hb')
    locked := h.locked
    working := fun u hu => hsame ▸ h.working u (hb u hu)
    apart := fun _ _ => h.apart c hc
    content := fun c' hc' => by
      cases hc'
      exact h.content c hc
    plain := fun hn => h.plain (hsame ▸ hn)
    settled := fun hn => nomatch hn _ rfl
    stolen := fun hn => nomatch hn _ rfl
    unstolen := fun b' hb' => h.unstolen b' (hsame ▸ hb')
    marked := fun c' v hc' hv => by
      cases hc'
      cases hv
      exact hm
    given := h.given }

/-! ### Discards -/

/-- Whoever worked on the page has lost it. -/
theorem discard (h : Drafted mode busy stray x d) (hb : ∀ t, ¬ busy' t) (hidle : x.cached = none → ∀ t, ¬ busy t) :
    Drafted mode busy' stray x.discard (d.discard x.file) := by
  obtain ⟨_ | c, kept, file⟩ := x
  · have hfile : file = d.current := h.file_of_uncached rfl (hidle rfl)
    rw [show d.discard file = d from congrArg (fun bytes => { d with current := bytes }) hfile]
    exact { h with
      working := fun t ht => absurd ht (hb t)
      settled := fun _ _ => hfile
      stolen := fun _ _ => h.stolen nofun (hidle rfl) }
  · have hkept : (c.before.filter BeforeImage.onDisk).or kept = c.before.filter BeforeImage.onDisk := by
      rw [show kept = none from h.apart c rfl, Option.or_none]
    rw [show Copies.discard ⟨some c, kept, file⟩ = ⟨none, (c.before.filter BeforeImage.onDisk).or kept, file⟩ from rfl,
      hkept]
    have hbefore : ∀ b, c.before.filter BeforeImage.onDisk = some b → c.before = some b ∧ b.onDisk = true :=
      fun b hb => Option.filter_eq_some_iff.1 hb
    exact {
      owned := fun b hb => h.owned b (hbefore b hb).1
      image := fun b hb => h.image b (hbefore b hb).1
      locked := h.locked
      working := fun t ht => absurd ht (hb t)
      apart := nofun
      content := nofun
      plain := fun hn => by
        have hfile : file = d.committed := by
          cases hc : c.before with
          | none => exact (h.plain hc).2
          | some b =>
            refine h.unstolen b hc (Bool.eq_false_iff.2 fun hdisk => ?_)
            have hn : c.before.filter BeforeImage.onDisk = none := hn
            rw [hc, Option.filter_some, if_pos hdisk] at hn
            cases hn
        exact ⟨hfile, hfile⟩
      settled := fun _ _ => rfl
      stolen := fun _ _ b hb => (hbefore b hb).2
      unstolen := fun b hb hdisk => absurd (hbefore b hb).2 (Bool.eq_false_iff.1 hdisk)
      marked := nofun
      given := ⟨h.given.1, h.given.2.2, h.given.2.2⟩ }

/-! ### Ends of transactions -/

/-- A page with the same content everywhere, which nobody has open. -/
theorem ended {bytes : Bytes} (hd : d.owner = none) (hcommitted : d.committed = bytes) (hcurrent : d.current = bytes)
    (hgiven : bytes ∈ d.given) (hk : x.kept = none) (hc : ∀ c, x.cached = some c → c.bytes = bytes ∧ c.before = none)
    (hm : ∀ c v, x.cached = some c → c.dirtyBy = some v → stray v) (hf : x.file = bytes) (hb : ∀ t, ¬ busy t) :
    Drafted mode busy stray x d := by
  have hbefore : x.before = none := by
    unfold before
    split
    · exact hk
    · exact (hc _ (by assumption)).2
  exact {
    owned := fun b hb => absurd (hbefore.symm.trans hb) nofun
    image := fun b hb => absurd (hbefore.symm.trans hb) nofun
    locked := fun t ht => absurd (hd.symm.trans ht) nofun
    working := fun t ht => absurd ht (hb t)
    apart := fun _ _ => hk
    content := fun c hc' => (hc c hc').1.trans hcurrent.symm
    plain := fun _ => ⟨hcurrent.trans hcommitted.symm, hf.trans hcommitted.symm⟩
    settled := fun _ _ => hf.trans hcurrent.symm
    stolen := fun _ _ b hb => absurd (hbefore.symm.trans hb) nofun
    unstolen := fun b hb => absurd (hbefore.symm.trans hb) nofun
    marked := fun c v hc' hv => .inl (hm c v hc' hv)
    given := ⟨hcommitted ▸ hgiven, hcurrent ▸ hgiven, hf ▸ hgiven⟩ }

/-- Before-images of others are not looked for. -/
theorem filter_before (h : Drafted mode busy stray x d) (hd : d.owner ≠ some t) :
    (∀ c, x.cached = some c → ∀ b, c.before = some b → b.owner ≠ t) ∧ ∀ b, x.kept = some b → b.owner ≠ t := by
  have hbefore : ∀ b, x.before = some b → b.owner ≠ t := fun b hb e => hd ((h.owned b hb).trans (congrArg some e))
  obtain ⟨_ | c, kept, file⟩ := x
  · exact ⟨nofun, hbefore⟩
  · exact ⟨fun c' hc' => by cases hc'; exact hbefore, fun b hb => absurd ((h.apart c rfl).symm.trans hb) nofun⟩

theorem filter_ne {o : Option BeforeImage} (h : ∀ b, o = some b → b.owner ≠ t) :
    o.filter (fun b => b.owner ≠ t) = o ∧ o.filter (fun b => b.owner = t) = none := by
  cases o with
  | none => exact ⟨rfl, rfl⟩
  | some b => simp [Option.filter, h b rfl]

theorem filter_eq {o : Option BeforeImage} (h : ∀ b, o = some b → b.owner = t) :
    o.filter (fun b => b.owner ≠ t) = none ∧ o.filter (fun b => b.owner = t) = o := by
  cases o with
  | none => exact ⟨rfl, rfl⟩
  | some b => simp [Option.filter, h b rfl]

/-- A page that a transaction has not open is at most written when the transaction commits, -/
theorem commit_of_ne (h : Drafted mode busy stray x d) (hd : d.owner ≠ some t) (locked : Prop) [Decidable locked] :
    x.commit t locked = if locked then x.flush else x := by
  obtain ⟨hcached, hkept⟩ := h.filter_before hd
  have htake : x.take t = x := by
    obtain ⟨_ | c, kept, file⟩ := x
    · rfl
    · unfold take
      rw [Option.map_some, (filter_ne (hcached c rfl)).1]
  have hforget : ∀ y : Copies, y.kept = x.kept → y.forget t = y := fun y hy => by
    unfold forget
    rw [hy, (filter_ne hkept).1, ← hy]
  unfold commit
  rw [htake]
  split
  · exact hforget _ (kept_flush x)
  · exact hforget x rfl

/-- and stays as it is when it is rolled back. -/
theorem rollback_of_ne (h : Drafted mode busy stray x d) (hd : d.owner ≠ some t) (locked : Prop) [Decidable locked] :
    x.rollback t locked = x := by
  obtain ⟨hcached, hkept⟩ := h.filter_before hd
  have hrestore : x.restore t = x := by
    obtain ⟨_ | c, kept, file⟩ := x
    · rfl
    · unfold restore
      dsimp only
      rw [(filter_ne (hcached c rfl)).2]
  unfold rollback
  rw [hrestore, ite_self]
  unfold restoreKept
  rw [(filter_ne hkept).2]

/-- The page of a transaction that commits has its content everywhere. -/
theorem commit_self (h : Drafted mode busy stray x d) (hd : d.owner = some t) {locked : Prop} [Decidable locked]
    (hl : locked)
    (hidle : ∀ u, ¬ busy u) :
    (x.commit t locked).kept = none ∧ (x.commit t locked).file = d.current ∧
      ∀ c, (x.commit t locked).cached = some c → c = ⟨d.current, none, none⟩ := by
  have howner : ∀ b, x.before = some b → b.owner = t := fun b hb => Option.some.inj ((h.owned b hb).symm.trans hd)
  unfold commit
  rw [if_pos hl]
  obtain ⟨_ | c, kept, file⟩ := x
  · exact ⟨(filter_eq (o := kept) howner).1, h.file_of_uncached rfl hidle, nofun⟩
  · have hkept : kept = none := h.apart c rfl
    have hcontent : c.bytes = d.current := h.content c rfl
    subst hkept
    have htake : Copies.take t ⟨some c, none, file⟩ = ⟨some ⟨c.bytes, c.dirtyBy, none⟩, none, file⟩ := by
      unfold take
      rw [Option.map_some, (filter_eq (o := c.before) howner).1]
    rw [htake]
    by_cases hdirty : c.dirtyBy = none
    · have hfile : file = d.current := h.settled (fun c' hc' => by cases hc'; exact hdirty) hidle
      rw [show Copies.flush ⟨some ⟨c.bytes, c.dirtyBy, none⟩, none, file⟩ = _ from if_pos hdirty]
      exact ⟨rfl, hfile, fun c' hc' => by cases hc'; rw [hdirty, hcontent]⟩
    · rw [show Copies.flush ⟨some ⟨c.bytes, c.dirtyBy, none⟩, none, file⟩ = _ from if_neg hdirty]
      exact ⟨rfl, hcontent, fun c' hc' => by cases hc'; rw [← hcontent]; rfl⟩

/-- The page of a transaction that is rolled back has its content from before everywhere. A mark can stay in its
frame, if there was nothing to be put back. Then it comes from a transaction that has gone astray. -/
theorem rollback_self (h : Drafted mode busy stray x d) (hd : d.owner = some t) {locked : Prop} [Decidable locked]
    (hl : locked) :
    (x.rollback t locked).kept = none ∧ (x.rollback t locked).file = d.committed ∧
      ∀ c, (x.rollback t locked).cached = some c → c.bytes = d.committed ∧ c.before = none ∧
        ∀ v, c.dirtyBy = some v → stray v := by
  have howner : ∀ b, x.before = some b → b.owner = t := fun b hb => Option.some.inj ((h.owned b hb).symm.trans hd)
  unfold rollback
  rw [if_pos hl]
  obtain ⟨_ | c, kept, file⟩ := x
  · rw [show restore t ⟨none, kept, file⟩ = ⟨none, kept, file⟩ from rfl]
    unfold restoreKept
    dsimp only
    rw [(filter_eq (o := kept) howner).2]
    cases hk : kept with
    | none => exact ⟨rfl, (h.plain hk).2, nofun⟩
    | some b => exact ⟨rfl, h.image b hk, nofun⟩
  · have hkept : kept = none := h.apart c rfl
    subst hkept
    unfold restore
    dsimp only
    rw [(filter_eq (o := c.before) howner).2]
    cases hb : c.before with
    | none =>
      obtain ⟨hcurrent, hfile⟩ := h.plain hb
      refine ⟨rfl, hfile, fun c' hc' => ?_⟩
      cases hc'
      refine ⟨(h.content c rfl).trans hcurrent, hb, fun v hv => (h.marked c v rfl hv).resolve_right fun ⟨b, hb', _⟩ => ?_⟩
      cases hb.symm.trans hb'
    | some b =>
      have himage : b.bytes = d.committed := h.image b hb
      refine ⟨rfl, ?_, fun c' hc' => by cases hc'; exact ⟨himage, rfl, nofun⟩⟩
      show (if b.onDisk then b.bytes else file) = d.committed
      split
      · exact himage
      · exact h.unstolen b hb (Bool.eq_false_iff.2 (by assumption))

theorem commit (h : Drafted mode busy stray x d) {locked : Prop} [Decidable locked] (hlocked : d.owner = some t → locked)
    (hidle : d.owner = some t → ∀ u, ¬ busy u) (hmode : ∀ u, u ≠ t → mode u = some .write → mode' u = some .write) :
    Drafted mode' busy stray (x.commit t locked) (d.complete t true) := by
  by_cases hd : d.owner = some t
  · obtain ⟨hk, hf, hc⟩ := h.commit_self hd (hlocked hd) (hidle hd)
    rw [Draft.complete, if_pos hd]
    exact ended rfl rfl rfl h.given.2.1 hk (fun c hc' => by rw [hc c hc']; exact ⟨rfl, rfl⟩)
      (fun c v hc' hv => by rw [hc c hc'] at hv; cases hv) hf (hidle hd)
  · rw [h.commit_of_ne hd, Draft.complete, if_neg hd]
    have hrelock : ∀ u, d.owner = some u → mode' u = some .write := fun u hu =>
      hmode u (fun e => hd (e ▸ hu)) (h.locked u hu)
    split
    · exact h.flush.relock hrelock
    · exact h.relock hrelock

theorem rollback (h : Drafted mode busy stray x d) {locked : Prop} [Decidable locked] (hlocked : d.owner = some t → locked)
    (hidle : d.owner = some t → ∀ u, ¬ busy u) (hmode : ∀ u, u ≠ t → mode u = some .write → mode' u = some .write) :
    Drafted mode' busy stray (x.rollback t locked) (d.complete t false) := by
  by_cases hd : d.owner = some t
  · obtain ⟨hk, hf, hc⟩ := h.rollback_self hd (hlocked hd)
    rw [Draft.complete, if_pos hd]
    exact ended rfl rfl rfl h.given.1 hk (fun c hc' => ⟨(hc c hc').1, (hc c hc').2.1⟩) (fun c v hc' => (hc c hc').2.2 v) hf
      (hidle hd)
  · rw [h.rollback_of_ne hd, Draft.complete, if_neg hd]
    exact h.relock fun u hu => hmode u (fun e => hd (e ▸ hu)) (h.locked u hu)

theorem complete (h : Drafted mode busy stray x d) (commits : Bool) {locked : Prop} [Decidable locked]
    (hlocked : d.owner = some t → locked) (hidle : d.owner = some t → ∀ u, ¬ busy u)
    (hmode : ∀ u, u ≠ t → mode u = some .write → mode' u = some .write) :
    Drafted mode' busy stray (x.complete t commits locked) (d.complete t commits) := by
  cases commits with
  | true => exact h.commit hlocked hidle hmode
  | false => exact h.rollback hlocked hidle hmode

end Drafted

end Copies

end TupleStore
