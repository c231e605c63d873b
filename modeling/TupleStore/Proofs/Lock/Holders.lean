import Mathlib.Logic.Basic
import TupleStore.Lock.Table

/-!
# Who holds which page

The lock table is a map from transactions and pages to modes (`mode?`), in which a writer is alone.

* `PageLock.Sound`, `LockTable.Sound` : a page with a writer has no readers; the pages that are listed
  under a transaction are those that it holds; no page is listed that nobody holds;
* `PageLock.Sound.eq_of_write` : whoever holds a page beside a writer is the writer;
* `PageLock.mem_blockers` : who stands in the way of a request, in terms of the map;
* `LockTable.mode?_acquire_granted`, `mode?_acquire_of_ne_granted`, `mode?_release`, `mode?_releaseAll` : what
  requests and releases do to the map;
* `Sound.acquire`, `Sound.release`, `Sound.releaseAll` : they keep the table sound;
* `LockTable.Keeps` : no lock is lost or weakened, as by a request (`keeps_acquire`).
-/

namespace TupleStore

set_option autoImplicit false

/-- The mode that a transaction holds once a request is granted on top of what it held. -/
def LockMode.raise (held : Option LockMode) (mode : LockMode) : LockMode :=
  if held = some .write then .write else mode

theorem LockMode.covers_self (m : LockMode) : m.covers m = true := by cases m <;> rfl

theorem LockMode.covers_trans {m m' m'' : LockMode} (h : m''.covers m' = true) (h' : m'.covers m = true) :
    m''.covers m = true :=
  decide_eq_true (Nat.le_trans (of_decide_eq_true h') (of_decide_eq_true h))

/-! ## One page -/

namespace PageLock

/-- A page with a writer has no readers. -/
def Sound (l : PageLock) : Prop := ∀ t, l.exclusive = some t → ∀ u, u ∉ l.shared

theorem sound_empty : Sound {} := fun _ h => by cases h

theorem mode?_eq_write {l : PageLock} {t : TxnId} : l.mode? t = some .write ↔ l.exclusive = some t := by
  unfold mode?
  split
  · simp_all
  · split <;> simp_all

theorem mode?_eq_none {l : PageLock} {t : TxnId} :
    l.mode? t = none ↔ l.exclusive ≠ some t ∧ t ∉ l.shared := by
  unfold mode?
  split
  · simp_all
  · split <;> simp_all

/-- A writer is alone. -/
theorem Sound.eq_of_write {l : PageLock} (h : l.Sound) {t u : TxnId} (ht : l.mode? t = some .write)
    (hu : l.mode? u ≠ none) : u = t := by
  rw [mode?_eq_write] at ht
  rw [Ne, mode?_eq_none, not_and_or, not_not, not_not] at hu
  rcases hu with hu | hu
  · rw [ht] at hu
    exact (Option.some.inj hu).symm
  · exact absurd hu (h t ht u)

theorem isFree_iff {l : PageLock} : l.isFree = true ↔ ∀ t, l.mode? t = none := by
  simp only [isFree, Bool.and_eq_true, Std.TreeSet.isEmpty_iff_forall_not_mem, Option.isNone_iff_eq_none,
    mode?_eq_none]
  constructor
  · rintro ⟨hs, he⟩ t
    exact ⟨by simp [he], hs t⟩
  · intro h
    exact ⟨fun t => (h t).2, Option.eq_none_iff_forall_ne_some.2 fun t => (h t).1⟩

/-- Nobody stands in the way of a request if nobody else holds the page in a mode that excludes it. -/
theorem blockers_isEmpty_iff {l : PageLock} (h : l.Sound) {t : TxnId} {mode : LockMode} :
    (l.blockers t mode).isEmpty = true ↔
      ∀ u, u ≠ t → l.mode? u = none ∨ l.mode? u = some .read ∧ mode = .read := by
  unfold blockers
  cases he : l.exclusive with
  | some holder =>
    have hw : l.mode? holder = some .write := mode?_eq_write.2 he
    by_cases heq : holder = t
    · subst heq
      simp only [if_true, Std.TreeSet.isEmpty_emptyc, true_iff]
      intro u hu
      exact .inl (by_contra fun hn => hu (h.eq_of_write hw hn))
    · simp only [if_neg heq, Std.TreeSet.ofList_singleton, Std.TreeSet.isEmpty_insert, Bool.false_eq_true,
        false_iff]
      intro hall
      rcases hall holder heq with hn | hn <;> simp [hw] at hn
  | none =>
    have hne : ∀ u, l.mode? u ≠ some .write := fun u hu => by simp [mode?_eq_write.1 hu] at he
    have hmem : ∀ u, l.mode? u = some .read ↔ u ∈ l.shared := by
      intro u
      unfold mode?
      simp only [he, reduceCtorEq, if_false]
      split <;> simp_all
    cases mode with
    | read =>
      simp only [Std.TreeSet.isEmpty_emptyc, and_true, true_iff]
      intro u _
      cases hu : l.mode? u with
      | none => exact .inl rfl
      | some m =>
        cases m with
        | read => exact .inr rfl
        | write => exact absurd hu (hne u)
    | write =>
      simp only [Std.TreeSet.isEmpty_iff_forall_not_mem, Std.TreeSet.mem_erase, ne_eq,
        Std.LawfulEqCmp.compare_eq_iff_eq, not_and, reduceCtorEq, and_false, or_false]
      constructor
      · intro hall u hu
        rw [mode?_eq_none]
        exact ⟨by simp [he], hall u (fun e => hu e.symm)⟩
      · intro hall u hu hs
        have := hall u (fun e => hu e.symm)
        rw [(hmem u).2 hs] at this
        cases this

/-- Whoever stands in the way of a request holds the page, and one of the two modes is to write. -/
theorem mem_blockers {l : PageLock} (h : l.Sound) {t b : TxnId} {mode : LockMode} :
    b ∈ l.blockers t mode ↔ b ≠ t ∧ (l.mode? b = some .write ∨ l.mode? b = some .read ∧ mode = .write) := by
  unfold blockers
  cases he : l.exclusive with
  | some holder =>
    have hw : l.mode? holder = some .write := mode?_eq_write.2 he
    have hread : l.mode? b ≠ some .read := fun hr => by
      have e : b = holder := h.eq_of_write hw (by rw [hr]; simp)
      rw [e, hw] at hr
      cases hr
    have hwrite : l.mode? b = some .write ↔ holder = b := by
      rw [mode?_eq_write, he, Option.some.injEq]
    by_cases hs : holder = t
    · subst hs
      simp only [if_true, hread, hwrite, false_and, or_false]
      exact ⟨fun hm => absurd hm Std.TreeSet.not_mem_emptyc, fun hm => absurd hm.2.symm hm.1⟩
    · simp only [if_neg hs, Std.TreeSet.ofList_singleton, Std.TreeSet.mem_insert,
        Std.LawfulEqCmp.compare_eq_iff_eq, Std.TreeSet.not_mem_emptyc, or_false, hread, hwrite, false_and]
      exact ⟨fun e => ⟨e ▸ hs, e⟩, And.right⟩
  | none =>
    have hwrite : l.mode? b ≠ some .write := by simp [mode?_eq_write, he]
    have hread : l.mode? b = some .read ↔ b ∈ l.shared := by
      unfold mode?
      simp only [he, reduceCtorEq, if_false]
      split <;> simp_all
    cases mode with
    | read => simp [hwrite]
    | write =>
      simp only [Std.TreeSet.mem_erase, ne_eq, Std.LawfulEqCmp.compare_eq_iff_eq, hwrite, hread, and_true,
        false_or, eq_comm (a := b)]

theorem Sound.grant {l : PageLock} (h : l.Sound) {t : TxnId} {mode : LockMode}
    (hb : (l.blockers t mode).isEmpty = true) : (l.grant t mode).Sound := by
  rw [blockers_isEmpty_iff h] at hb
  cases mode with
  | read =>
    intro holder he u hu
    simp only [PageLock.grant] at he hu
    split at he
    · rename_i hw
      rw [if_pos hw] at hu
      exact h t hw u hu
    · rename_i hw
      have hne : holder ≠ t := fun e => hw (e ▸ he)
      have hm : l.mode? holder = some .write := mode?_eq_write.2 he
      rcases hb holder hne with hn | ⟨hn, -⟩ <;> rw [hm] at hn <;> cases hn
  | write =>
    intro holder _ u hu
    simp only [PageLock.grant, Std.TreeSet.mem_erase, ne_eq, Std.LawfulEqCmp.compare_eq_iff_eq] at hu
    rcases hb u (fun e => hu.1 e.symm) with hn | hn
    · exact (mode?_eq_none.1 hn).2 hu.2
    · cases hn.2

/-- Who writes a page stands in the way of all others. -/
theorem exclusive_of_granted {l : PageLock} {t u : TxnId} {mode : LockMode} (hb : (l.blockers t mode).isEmpty = true)
    (hu : u ≠ t) : l.exclusive ≠ some u := by
  intro hw
  simp [blockers, hw, hu] at hb

/-- A granted request raises the mode of its transaction, and changes no other. -/
theorem mode?_grant {l : PageLock} {t : TxnId} {mode : LockMode} (hb : (l.blockers t mode).isEmpty = true)
    (u : TxnId) :
    (l.grant t mode).mode? u = if u = t then some (LockMode.raise (l.mode? t) mode) else l.mode? u := by
  cases mode with
  | read =>
    by_cases hw : l.exclusive = some t
    · simp only [grant, if_pos hw, LockMode.raise, mode?_eq_write.2 hw, if_true]
      split
      · rename_i e
        rw [e, mode?_eq_write.2 hw]
      · rfl
    · have hn : l.mode? t ≠ some .write := fun e => hw (mode?_eq_write.1 e)
      simp only [grant, if_neg hw, LockMode.raise, if_neg hn]
      unfold mode?
      simp only [Std.TreeSet.mem_insert, Std.LawfulEqCmp.compare_eq_iff_eq]
      by_cases e : u = t
      · simp [e, hw]
      · simp [e, Ne.symm e]
  | write =>
    have hr : LockMode.raise (l.mode? t) .write = .write := by simp [LockMode.raise]
    simp only [grant, hr]
    unfold mode?
    simp only [Std.TreeSet.mem_erase, ne_eq, Std.LawfulEqCmp.compare_eq_iff_eq, Option.some.injEq]
    by_cases e : u = t
    · simp [e]
    · simp [e, Ne.symm e, exclusive_of_granted hb e]

/-- Whoever holds the page holds it still once a request is granted, and in no weaker mode. -/
theorem covers_grant {l : PageLock} {t u : TxnId} {mode m : LockMode} (hb : (l.blockers t mode).isEmpty = true)
    (hu : l.mode? u = some m) : ∃ m', (l.grant t mode).mode? u = some m' ∧ m'.covers m = true := by
  by_cases hw : l.exclusive = some u
  · obtain rfl : m = .write := Option.some.inj (hu.symm.trans (mode?_eq_write.2 hw))
    have hkept : (l.grant t mode).exclusive = some u := by
      cases mode with
      | read =>
        simp only [grant]
        split
        · exact hw
        · exact hw
      | write =>
        by_cases e : u = t
        · rw [e, grant]
        · exact absurd hw (exclusive_of_granted hb e)
    exact ⟨.write, mode?_eq_write.2 hkept, rfl⟩
  · have hs : u ∈ l.shared ∧ m = .read := by
      unfold mode? at hu
      rw [if_neg hw] at hu
      split at hu
      · exact ⟨by assumption, (Option.some.inj hu).symm⟩
      · cases hu
    obtain ⟨hs, rfl⟩ := hs
    cases mode with
    | read =>
      simp only [grant]
      split
      · exact ⟨_, hu, rfl⟩
      · refine ⟨.read, ?_, rfl⟩
        unfold mode?
        rw [if_neg hw, if_pos (Std.TreeSet.mem_insert.2 (Or.inr hs))]
    | write =>
      by_cases e : u = t
      · exact ⟨.write, mode?_eq_write.2 (by rw [grant, e]), rfl⟩
      · have hmem : u ∈ l.shared.erase t := by
          simp only [Std.TreeSet.mem_erase, ne_eq, Std.LawfulEqCmp.compare_eq_iff_eq]
          exact ⟨Ne.symm e, hs⟩
        refine ⟨.read, ?_, rfl⟩
        unfold mode? grant
        rw [if_neg fun ht => e (Option.some.inj ht).symm, if_pos hmem]

theorem Sound.drop {l : PageLock} (h : l.Sound) (t : TxnId) : (l.drop t).Sound := by
  intro holder he u hu
  unfold PageLock.drop at he hu
  split at he
  · cases he
  · rename_i hw
    rw [if_neg hw] at hu
    exact h holder he u (Std.TreeSet.mem_of_mem_erase hu)

/-- A transaction that gives a page up holds it no more, and all others still do. -/
theorem mode?_drop {l : PageLock} (h : l.Sound) (t u : TxnId) :
    (l.drop t).mode? u = if u = t then none else l.mode? u := by
  by_cases hw : l.exclusive = some t
  · have hs := h t hw
    simp only [drop, if_pos hw]
    unfold mode?
    by_cases e : u = t
    · simp [e, hs]
    · simp [e, hs, hw, Ne.symm e]
  · simp only [drop, if_neg hw]
    unfold mode?
    simp only [Std.TreeSet.mem_erase, ne_eq, Std.LawfulEqCmp.compare_eq_iff_eq]
    by_cases e : u = t
    · simp [e, hw]
    · simp [e, Ne.symm e]

end PageLock

/-! ## All pages -/

namespace LockTable

/-- A page with a writer has no readers, the pages listed under a transaction are those that it holds, and
every listed page has a holder. -/
structure Sound (t : LockTable) : Prop where
  lock : ∀ page, (t.lock page).Sound
  held : ∀ txn page, page ∈ t.held.getD txn ∅ ↔ t.mode? txn page ≠ none
  listed : ∀ page, page ∈ t.pages → ∃ txn, t.mode? txn page ≠ none

theorem sound_empty : Sound {} where
  lock _ := by simpa [LockTable.lock] using PageLock.sound_empty
  held txn page := by simp [mode?, LockTable.lock, PageLock.mode?]
  listed page h := by simp at h

theorem mem_lockedBy {t : LockTable} (h : t.Sound) {txn : TxnId} {page : PageId} :
    page ∈ t.lockedBy txn ↔ t.mode? txn page ≠ none := by
  rw [lockedBy, Std.TreeSet.mem_toList, h.held]

/-- A writer is alone. -/
theorem Sound.eq_of_write {t : LockTable} (h : t.Sound) {a b : TxnId} {page : PageId}
    (ha : t.mode? a page = some .write) (hb : t.mode? b page ≠ none) : b = a :=
  (h.lock page).eq_of_write ha hb

/-! ### Requests -/

theorem lock_grant (t : LockTable) (txn : TxnId) (page q : PageId) (mode : LockMode) :
    (t.grant txn page mode).lock q = if q = page then (t.lock page).grant txn mode else t.lock q := by
  simp only [LockTable.lock, grant, Std.TreeMap.getD_insert, Std.LawfulEqCmp.compare_eq_iff_eq]
  simp only [eq_comm]

theorem mode?_grant {t : LockTable} {txn : TxnId} {page : PageId} {mode : LockMode}
    (hb : (t.blockers txn page mode).isEmpty = true) (u : TxnId) (q : PageId) :
    (t.grant txn page mode).mode? u q =
      if u = txn ∧ q = page then some (LockMode.raise (t.mode? txn page) mode) else t.mode? u q := by
  rw [mode?, lock_grant]
  by_cases e : q = page
  · subst e
    rw [if_pos rfl, PageLock.mode?_grant hb]
    by_cases hu : u = txn <;> simp [hu, mode?]
  · simp [e, mode?]

theorem Sound.grant {t : LockTable} (h : t.Sound) {txn : TxnId} {page : PageId} {mode : LockMode}
    (hb : (t.blockers txn page mode).isEmpty = true) : (t.grant txn page mode).Sound where
  lock q := by
    rw [lock_grant]
    split
    · exact (h.lock page).grant hb
    · exact h.lock q
  held u q := by
    rw [mode?_grant hb]
    have hu := h.held u q
    simp only [LockTable.grant, Std.TreeMap.getD_insert, Std.LawfulEqCmp.compare_eq_iff_eq]
    by_cases e : txn = u
    · subst e
      by_cases eq : q = page
      · simp [eq]
      · simp [eq, Ne.symm eq, hu]
    · simp [e, Ne.symm e, hu]
  listed q hq := by
    simp only [LockTable.grant, Std.TreeMap.mem_insert, Std.LawfulEqCmp.compare_eq_iff_eq] at hq
    by_cases e : q = page
    · refine ⟨txn, ?_⟩
      rw [mode?_grant hb, if_pos ⟨rfl, e⟩]
      simp
    · obtain ⟨u, hu⟩ := h.listed q (hq.resolve_left (Ne.symm e))
      refine ⟨u, ?_⟩
      rw [mode?_grant hb, if_neg fun hh => e hh.2]
      exact hu

theorem Sound.congr {t t' : LockTable} (h : t.Sound) (hp : t'.pages = t.pages) (hh : t'.held = t.held) :
    t'.Sound := by
  obtain ⟨pages, held, waiting⟩ := t
  obtain ⟨pages', held', waiting'⟩ := t'
  subst hp hh
  exact ⟨h.lock, h.held, h.listed⟩

/-- A request that is not granted changes no lock. -/
theorem locks_acquire_of_ne_granted {t : LockTable} {txn : TxnId} {page : PageId} {mode : LockMode}
    (h : (t.acquire txn page mode).1 ≠ .granted) :
    (t.acquire txn page mode).2.pages = t.pages ∧ (t.acquire txn page mode).2.held = t.held := by
  unfold acquire at h ⊢
  split
  · rename_i hb
    rw [if_pos hb] at h
    exact absurd rfl h
  · dsimp only
    split <;> exact ⟨rfl, rfl⟩

theorem mode?_acquire_of_ne_granted {t : LockTable} {txn : TxnId} {page : PageId} {mode : LockMode}
    (h : (t.acquire txn page mode).1 ≠ .granted) (u : TxnId) (q : PageId) :
    (t.acquire txn page mode).2.mode? u q = t.mode? u q := by
  rw [mode?, LockTable.lock, (locks_acquire_of_ne_granted h).1]
  rfl

theorem acquire_granted {t : LockTable} {txn : TxnId} {page : PageId} {mode : LockMode}
    (h : (t.acquire txn page mode).1 = .granted) :
    (t.blockers txn page mode).isEmpty = true ∧
      (t.acquire txn page mode).2 = (t.grant txn page mode).stopWaiting txn := by
  unfold acquire at h ⊢
  split
  · rename_i hb
    exact ⟨hb, rfl⟩
  · rename_i hb
    rw [if_neg hb] at h
    dsimp only at h
    split at h <;> cases h

/-- A granted request raises one mode and leaves all others. -/
theorem mode?_acquire_granted {t : LockTable} {txn : TxnId} {page : PageId} {mode : LockMode}
    (hg : (t.acquire txn page mode).1 = .granted) (u : TxnId) (q : PageId) :
    (t.acquire txn page mode).2.mode? u q =
      if u = txn ∧ q = page then some (LockMode.raise (t.mode? txn page) mode) else t.mode? u q := by
  obtain ⟨hb, he⟩ := acquire_granted hg
  rw [he, ← mode?_grant hb]
  rfl

theorem Sound.acquire {t : LockTable} (h : t.Sound) (txn : TxnId) (page : PageId) (mode : LockMode) :
    (t.acquire txn page mode).2.Sound := by
  by_cases hg : (t.acquire txn page mode).1 = .granted
  · obtain ⟨hb, he⟩ := acquire_granted hg
    rw [he]
    exact (h.grant hb).congr rfl rfl
  · obtain ⟨hp, hh⟩ := locks_acquire_of_ne_granted hg
    exact h.congr hp hh

/-! ### Locks kept -/

/-- Every lock of the one table is in the other, in a mode that is no weaker. -/
def Keeps (t t' : LockTable) : Prop :=
  ∀ txn page m, t.mode? txn page = some m → ∃ m', t'.mode? txn page = some m' ∧ m'.covers m = true

namespace Keeps

variable {t t' t'' : LockTable}

theorem of_mode?_eq (h : ∀ txn page, t'.mode? txn page = t.mode? txn page) : t.Keeps t' := fun txn page m hm =>
  ⟨m, (h txn page).trans hm, m.covers_self⟩

theorem refl (t : LockTable) : t.Keeps t := of_mode?_eq fun _ _ => rfl

theorem trans (h : t.Keeps t') (h' : t'.Keeps t'') : t.Keeps t'' := by
  intro txn page m hm
  obtain ⟨m', hm', hc⟩ := h txn page m hm
  obtain ⟨m'', hm'', hc'⟩ := h' txn page m' hm'
  exact ⟨m'', hm'', LockMode.covers_trans hc' hc⟩

theorem ne_none (h : t.Keeps t') {txn : TxnId} {page : PageId} (hm : t.mode? txn page ≠ none) :
    t'.mode? txn page ≠ none := by
  obtain ⟨m, hm⟩ := Option.ne_none_iff_exists'.1 hm
  obtain ⟨m', hm', -⟩ := h txn page m hm
  rw [hm']
  exact Option.some_ne_none m'

end Keeps

/-- A request takes no lock away. -/
theorem keeps_acquire (t : LockTable) (txn : TxnId) (page : PageId) (mode : LockMode) :
    t.Keeps (t.acquire txn page mode).2 := by
  by_cases hg : (t.acquire txn page mode).1 = .granted
  · obtain ⟨hb, he⟩ := acquire_granted hg
    intro u q m hm
    rw [he]
    show ∃ m', ((t.grant txn page mode).lock q).mode? u = some m' ∧ _
    rw [lock_grant]
    split
    · rename_i hq
      subst hq
      exact PageLock.covers_grant hb hm
    · exact Keeps.refl t u q m hm
  · exact .of_mode?_eq fun u q => mode?_acquire_of_ne_granted hg u q

/-! ### Releases -/

theorem lock_dropLock (t : LockTable) (txn : TxnId) (page q : PageId) :
    (t.dropLock txn page).lock q =
      if q = page then
        if ((t.lock page).drop txn).isFree then {} else (t.lock page).drop txn
      else t.lock q := by
  have hpages : (t.dropLock txn page).pages =
      if ((t.lock page).drop txn).isFree then t.pages.erase page
      else t.pages.insert page ((t.lock page).drop txn) := rfl
  rw [LockTable.lock, hpages]
  by_cases e : page = q
  · subst e
    cases ((t.lock page).drop txn).isFree <;> simp
  · cases ((t.lock page).drop txn).isFree <;>
      simp [Std.TreeMap.getD_erase, Std.TreeMap.getD_insert, e, Ne.symm e, LockTable.lock]

theorem mode?_dropLock {t : LockTable} (h : ∀ page, (t.lock page).Sound) (txn u : TxnId) (page q : PageId) :
    (t.dropLock txn page).mode? u q = if u = txn ∧ q = page then none else t.mode? u q := by
  rw [mode?, lock_dropLock]
  by_cases e : q = page
  · subst e
    have hd := PageLock.mode?_drop (h q) txn u
    rw [if_pos rfl]
    simp only [and_true, mode?, ← hd]
    split
    · rename_i hf
      exact (PageLock.isFree_iff.1 hf u).symm
    · rfl
  · simp [e, mode?]

theorem sound_lock_dropLock {t : LockTable} (h : ∀ page, (t.lock page).Sound) (txn : TxnId) (page q : PageId) :
    ((t.dropLock txn page).lock q).Sound := by
  rw [lock_dropLock]
  split
  · split
    · exact PageLock.sound_empty
    · exact (h page).drop txn
  · exact h q

theorem listed_dropLock {t : LockTable} (h : ∀ page, (t.lock page).Sound)
    (hl : ∀ page, page ∈ t.pages → ∃ txn, t.mode? txn page ≠ none) (txn : TxnId) (page q : PageId)
    (hq : q ∈ (t.dropLock txn page).pages) : ∃ u, (t.dropLock txn page).mode? u q ≠ none := by
  by_cases e : q = page
  · subst e
    unfold dropLock at hq
    dsimp only at hq
    split at hq
    · simp at hq
    · rename_i hf
      rw [Bool.not_eq_true, ← Bool.not_eq_true, PageLock.isFree_iff, not_forall] at hf
      obtain ⟨u, hu⟩ := hf
      refine ⟨u, ?_⟩
      rw [PageLock.mode?_drop (h q)] at hu
      rw [mode?_dropLock h]
      simpa [mode?] using hu
  · have hmem : q ∈ t.pages := by
      unfold dropLock at hq
      dsimp only at hq
      split at hq
      · exact Std.TreeMap.mem_of_mem_erase hq
      · exact (Std.TreeMap.mem_insert.1 hq).resolve_left fun hh => e (Std.LawfulEqCmp.eq_of_compare hh).symm
    obtain ⟨u, hu⟩ := hl q hmem
    refine ⟨u, ?_⟩
    rw [mode?_dropLock h, if_neg fun hh => e hh.2]
    exact hu

theorem locks_release {t : LockTable} {txn : TxnId} {page : PageId} (hm : t.mode? txn page ≠ none) :
    (t.release txn page).1 = true ∧ (t.release txn page).2.pages = (t.dropLock txn page).pages := by
  have hh : t.holds txn page = true := by
    rw [holds, Option.isSome_iff_ne_none]
    exact hm
  unfold release
  rw [if_pos hh]
  exact ⟨rfl, rfl⟩

theorem release_of_mode?_eq_none {t : LockTable} {txn : TxnId} {page : PageId} (hm : t.mode? txn page = none) :
    t.release txn page = (false, t) := by
  unfold release holds
  rw [hm]
  rfl

/-- A transaction that gives up one page holds that page no more, and nothing else changes. -/
theorem mode?_release {t : LockTable} (h : t.Sound) (txn u : TxnId) (page q : PageId) :
    (t.release txn page).2.mode? u q = if u = txn ∧ q = page then none else t.mode? u q := by
  by_cases hm : t.mode? txn page = none
  · rw [release_of_mode?_eq_none hm]
    split
    · rename_i e
      rw [e.1, e.2, hm]
    · rfl
  · rw [mode?, LockTable.lock, (locks_release hm).2]
    exact mode?_dropLock h.lock txn u page q

theorem Sound.release {t : LockTable} (h : t.Sound) (txn : TxnId) (page : PageId) :
    (t.release txn page).2.Sound := by
  by_cases hm : t.mode? txn page = none
  · rw [release_of_mode?_eq_none hm]
    exact h
  have hp := (locks_release hm).2
  have hheld : ∀ u q, q ∈ (t.release txn page).2.held.getD u ∅ ↔
      q ∈ t.held.getD u ∅ ∧ ¬(u = txn ∧ q = page) := by
    intro u q
    unfold LockTable.release
    rw [if_pos (show t.holds txn page = true from Option.isSome_iff_ne_none.2 hm)]
    dsimp only
    by_cases hu : u = txn
    · subst hu
      have hmem : q ∈ (t.held.getD u ∅).erase page ↔ q ∈ t.held.getD u ∅ ∧ ¬(u = u ∧ q = page) := by
        simp only [Std.TreeSet.mem_erase, ne_eq, Std.LawfulEqCmp.compare_eq_iff_eq, true_and]
        rw [and_comm, eq_comm]
      rw [← hmem]
      split
      · rename_i he
        rw [Std.TreeMap.getD_erase_self]
        exact ⟨fun hq => absurd hq Std.TreeSet.not_mem_emptyc,
          fun hq => absurd hq (Std.TreeSet.isEmpty_iff_forall_not_mem.1 he q)⟩
      · rw [Std.TreeMap.getD_insert_self]
    · have hsame : ¬(u = txn ∧ q = page) := fun hh => hu hh.1
      split
      · rw [Std.TreeMap.getD_erase]
        simp [Ne.symm hu, hsame, dropLock]
      · rw [Std.TreeMap.getD_insert]
        simp [Ne.symm hu, hsame, dropLock]
  refine ⟨fun q => ?_, fun u q => ?_, fun q hq => ?_⟩
  · rw [LockTable.lock, hp]
    exact sound_lock_dropLock h.lock txn page q
  · rw [mode?_release h, hheld, h.held]
    split
    · rename_i e
      simp [e]
    · rename_i e
      simp [e]
  · rw [hp] at hq
    obtain ⟨u, hu⟩ := listed_dropLock h.lock h.listed txn page q hq
    refine ⟨u, ?_⟩
    rwa [mode?, LockTable.lock, hp]

/-- The locks after a transaction has given up some pages. -/
theorem foldl_dropLock (txn : TxnId) (pages : List PageId) {t : LockTable} (h : ∀ page, (t.lock page).Sound)
    (hl : ∀ page, page ∈ t.pages → ∃ txn, t.mode? txn page ≠ none) :
    let t' := pages.foldl (fun t page => t.dropLock txn page) t
    (∀ page, (t'.lock page).Sound) ∧ (∀ page, page ∈ t'.pages → ∃ u, t'.mode? u page ≠ none) ∧
      t'.held = t.held ∧
      ∀ u q, t'.mode? u q = if u = txn ∧ q ∈ pages then none else t.mode? u q := by
  induction pages generalizing t with
  | nil => exact ⟨h, hl, rfl, fun u q => by simp⟩
  | cons page pages ih =>
    obtain ⟨h₁, h₂, h₃, h₄⟩ := ih (sound_lock_dropLock h txn page) (listed_dropLock h hl txn page)
    refine ⟨h₁, h₂, h₃, fun u q => ?_⟩
    rw [List.foldl_cons, h₄, mode?_dropLock h]
    by_cases hu : u = txn <;> by_cases hq : q = page <;> simp [hu, hq]

/-- A transaction that gives up everything holds nothing, and all others hold what they held. -/
theorem mode?_releaseAll {t : LockTable} (h : t.Sound) (txn u : TxnId) (q : PageId) :
    (t.releaseAll txn).mode? u q = if u = txn then none else t.mode? u q := by
  have hf := (foldl_dropLock txn (t.lockedBy txn) h.lock h.listed).2.2.2 u q
  rw [show (t.releaseAll txn).mode? u q = _ from hf]
  by_cases hu : u = txn
  · subst hu
    by_cases hm : t.mode? u q = none
    · simp [hm]
    · simp [(mem_lockedBy h).2 hm]
  · simp [hu]

theorem Sound.releaseAll {t : LockTable} (h : t.Sound) (txn : TxnId) : (t.releaseAll txn).Sound where
  lock := (foldl_dropLock txn (t.lockedBy txn) h.lock h.listed).1
  held u q := by
    rw [mode?_releaseAll h]
    have hheld : (t.releaseAll txn).held = t.held.erase txn :=
      congrArg (·.erase txn) (foldl_dropLock txn (t.lockedBy txn) h.lock h.listed).2.2.1
    rw [hheld, Std.TreeMap.getD_erase]
    by_cases hu : txn = u
    · simp [hu]
    · simp [hu, Ne.symm hu, h.held]
  listed := (foldl_dropLock txn (t.lockedBy txn) h.lock h.listed).2.1

/-- A transaction that has given up everything has no page locked. -/
theorem lockedBy_releaseAll (t : LockTable) (txn : TxnId) : (t.releaseAll txn).lockedBy txn = [] := by
  have hheld : (t.releaseAll txn).held.getD txn ∅ = ∅ := Std.TreeMap.getD_erase_self
  rw [lockedBy, hheld]
  rfl

end LockTable

end TupleStore
