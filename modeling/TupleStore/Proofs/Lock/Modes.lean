import TupleStore.Proofs.Lock.Holders

/-!
# The table as a map

Whatever is asked of a lock table, and in whatever order, the table is a map from transactions and pages to
modes in which a writer is alone.

* `LockTable.Op`, `LockTable.apply`, `LockTable.run` : requests and releases, one after another, from an
  empty table. A transaction that waits asks again by the same `acquire`, and nothing keeps it from giving
  locks back meanwhile;
* `LockMap`, `LockMap.Exclusive`, `LockMap.Step` : the map alone, and what each operation does to it;
* `LockTable.Shows` : all questions about a table are answered from one map;
* `LockTable.run_shows_map` : the table after any operations shows a map, and each further operation is a step of it.

`LockTable.Sound` is what the operations preserve.
-/

namespace TupleStore

set_option autoImplicit false

theorem LockMode.rank_raise (held : Option LockMode) (mode : LockMode) :
    (LockMode.raise held mode).rank = max (held.elim 0 rank) mode.rank := by
  cases held with
  | none => simp [raise]
  | some m => cases m <;> cases mode <;> rfl

/-! ## Operations -/

namespace LockTable

inductive Op where
  /-- A request, also one that is made again by a transaction that waits. -/
  | acquire (txn : TxnId) (page : PageId) (mode : LockMode)
  | release (txn : TxnId) (page : PageId)
  | releaseAll (txn : TxnId)

inductive Answer where
  | lock (answer : LockAnswer)
  /-- Whether there was a lock to give back. -/
  | released (wasHeld : Bool)
  | done

def apply (t : LockTable) : Op → Answer × LockTable
  | .acquire txn page mode => (.lock (t.acquire txn page mode).1, (t.acquire txn page mode).2)
  | .release txn page => (.released (t.release txn page).1, (t.release txn page).2)
  | .releaseAll txn => (.done, t.releaseAll txn)

def run (ops : List Op) : LockTable := ops.foldl (fun t op => (t.apply op).2) {}

theorem Sound.apply {t : LockTable} (h : t.Sound) (op : Op) : (t.apply op).2.Sound := by
  cases op with
  | acquire txn page mode => exact h.acquire txn page mode
  | release txn page => exact h.release txn page
  | releaseAll txn => exact h.releaseAll txn

theorem sound_run (ops : List Op) : (run ops).Sound := by
  suffices hall : ∀ t : LockTable, t.Sound → (ops.foldl (fun t op => (t.apply op).2) t).Sound from
    hall {} sound_empty
  induction ops with
  | nil =>
    intro t h
    exact h
  | cons op ops ih =>
    intro t h
    exact ih _ (h.apply op)

end LockTable

/-! ## The map -/

/-- Which mode each transaction holds of each page. -/
abbrev LockMap := TxnId → PageId → Option LockMode

namespace LockMap

/-- A page that is written has no other holder. -/
def Exclusive (m : LockMap) : Prop :=
  ∀ a b page, m a page = some .write → m b page ≠ none → b = a

/-- Whether the locks of all others allow a request. -/
def Admits (m : LockMap) (txn : TxnId) (page : PageId) (mode : LockMode) : Prop :=
  ∀ u, u ≠ txn → m u page = none ∨ m u page = some .read ∧ mode = .read

def set (m : LockMap) (txn : TxnId) (page : PageId) (mode : Option LockMode) : LockMap := fun u q =>
  if u = txn ∧ q = page then mode else m u q

def forget (m : LockMap) (txn : TxnId) : LockMap := fun u q => if u = txn then none else m u q

/-- What an operation does to the map, and how it is answered. -/
inductive Step (m : LockMap) : LockTable.Op → LockTable.Answer → LockMap → Prop
  /-- The request is granted in the stronger of the mode that is held and the mode that is asked for. -/
  | granted {txn page mode strongest} (admits : m.Admits txn page mode)
      (max : strongest.rank = Nat.max ((m txn page).elim 0 LockMode.rank) mode.rank) :
      Step m (.acquire txn page mode) (.lock .granted) (m.set txn page (some strongest))
  | waits {txn page mode} (admits : ¬m.Admits txn page mode) :
      Step m (.acquire txn page mode) (.lock .waits) m
  | refused {txn page mode} (admits : ¬m.Admits txn page mode) :
      Step m (.acquire txn page mode) (.lock .refused) m
  | released {txn page} (held : m txn page ≠ none) :
      Step m (.release txn page) (.released true) (m.set txn page none)
  | notHeld {txn page} (held : m txn page = none) : Step m (.release txn page) (.released false) m
  | forgotten {txn} : Step m (.releaseAll txn) .done (m.forget txn)

end LockMap

/-! ## The table shows the map -/

namespace LockTable

variable {t : LockTable}

/-- All that can be asked about a table is answered from one map. A page has an entry if somebody holds it. -/
structure Shows (t : LockTable) (m : LockMap) : Prop where
  mode : ∀ txn page, t.mode? txn page = m txn page
  holds : ∀ txn page, t.holds txn page = true ↔ m txn page ≠ none
  readers : ∀ txn page, txn ∈ (t.holders page).1 ↔ m txn page = some .read
  readers_nodup : ∀ page, (t.holders page).1.Nodup
  writer : ∀ txn page, (t.holders page).2 = some txn ↔ m txn page = some .write
  lockedBy : ∀ txn page, page ∈ t.lockedBy txn ↔ m txn page ≠ none
  lockedBy_nodup : ∀ txn, (t.lockedBy txn).Nodup
  listed : ∀ page, page ∈ t.pages ↔ ∃ txn, m txn page ≠ none

theorem mem_readers (h : t.Sound) {txn : TxnId} {page : PageId} :
    txn ∈ (t.holders page).1 ↔ t.mode? txn page = some .read := by
  rw [holders, Std.TreeSet.mem_toList, mode?, PageLock.mode?]
  constructor
  · intro hr
    have hw : (t.lock page).exclusive ≠ some txn := fun he => h.lock page txn he txn hr
    rw [if_neg hw, if_pos hr]
  · intro hr
    split at hr
    · cases hr
    · split at hr
      · assumption
      · cases hr

theorem mem_pages (h : t.Sound) {page : PageId} : page ∈ t.pages ↔ ∃ txn, t.mode? txn page ≠ none := by
  refine ⟨h.listed page, fun ⟨txn, hm⟩ => ?_⟩
  refine Classical.byContradiction fun hp => hm ?_
  rw [mode?, LockTable.lock, Std.TreeMap.getD_eq_fallback hp]
  rfl

theorem nodup_toList {α : Type} [Ord α] [Std.TransOrd α] (s : Std.TreeSet α) : s.toList.Nodup := by
  refine s.distinct_toList.imp fun {a b} hne e => hne ?_
  rw [e]
  exact Std.ReflCmp.compare_self

theorem Sound.shows (h : t.Sound) : t.Shows t.mode? where
  mode _ _ := rfl
  holds _ _ := Option.isSome_iff_ne_none
  readers _ _ := mem_readers h
  readers_nodup _ := nodup_toList _
  writer _ _ := PageLock.mode?_eq_write.symm
  lockedBy _ _ := mem_lockedBy h
  lockedBy_nodup _ := nodup_toList _
  listed _ := mem_pages h

theorem Sound.exclusive (h : t.Sound) : LockMap.Exclusive t.mode? := fun _ _ _ ha hb => h.eq_of_write ha hb

/-! ## Each operation is a step of the map -/

/-- A request is granted if, and only if, the locks of all others allow it. -/
theorem acquire_granted_iff (h : t.Sound) {txn : TxnId} {page : PageId} {mode : LockMode} :
    (t.acquire txn page mode).1 = .granted ↔ LockMap.Admits t.mode? txn page mode := by
  have hb : (t.blockers txn page mode).isEmpty = true ↔ LockMap.Admits t.mode? txn page mode :=
    PageLock.blockers_isEmpty_iff (h.lock page)
  rw [← hb]
  refine ⟨fun hg => (acquire_granted hg).1, fun he => ?_⟩
  rw [acquire, if_pos he]

theorem Sound.step_acquire (h : t.Sound) (txn : TxnId) (page : PageId) (mode : LockMode) :
    LockMap.Step t.mode? (.acquire txn page mode) (.lock (t.acquire txn page mode).1)
      (t.acquire txn page mode).2.mode? := by
  have hiff : (t.acquire txn page mode).1 = .granted ↔ LockMap.Admits t.mode? txn page mode :=
    acquire_granted_iff h
  have hkept : (t.acquire txn page mode).1 ≠ .granted → (t.acquire txn page mode).2.mode? = t.mode? := by
    intro hne
    funext u q
    exact mode?_acquire_of_ne_granted hne u q
  cases ha : (t.acquire txn page mode).1 with
  | granted =>
    have hset : (t.acquire txn page mode).2.mode? =
        LockMap.set t.mode? txn page (some (LockMode.raise (t.mode? txn page) mode)) := by
      funext u q
      exact mode?_acquire_granted ha u q
    rw [hset]
    exact .granted (hiff.1 ha) (LockMode.rank_raise _ _)
  | waits =>
    rw [hkept (by simp [ha])]
    refine .waits fun hadm => ?_
    simp [hiff.2 hadm] at ha
  | refused =>
    rw [hkept (by simp [ha])]
    refine .refused fun hadm => ?_
    simp [hiff.2 hadm] at ha

theorem Sound.step_release (h : t.Sound) (txn : TxnId) (page : PageId) :
    LockMap.Step t.mode? (.release txn page) (.released (t.release txn page).1)
      (t.release txn page).2.mode? := by
  by_cases hm : t.mode? txn page = none
  · rw [release_of_mode?_eq_none hm]
    exact .notHeld hm
  · have hset : (t.release txn page).2.mode? = LockMap.set t.mode? txn page none := by
      funext u q
      exact mode?_release h txn u page q
    rw [hset, (locks_release hm).1]
    exact .released hm

theorem Sound.step (h : t.Sound) (op : Op) : LockMap.Step t.mode? op (t.apply op).1 (t.apply op).2.mode? := by
  cases op with
  | acquire txn page mode => exact h.step_acquire txn page mode
  | release txn page => exact h.step_release txn page
  | releaseAll txn =>
    have hforget : (t.releaseAll txn).mode? = LockMap.forget t.mode? txn := by
      funext u q
      exact mode?_releaseAll h txn u q
    show LockMap.Step _ _ .done (t.releaseAll txn).mode?
    rw [hforget]
    exact .forgotten

/-- After any operations the table shows a map in which a writer is alone, and the next operation is a step
from that map to the map that the table shows then. -/
theorem run_shows_map (ops : List Op) :
    ∃ m : LockMap, (run ops).Shows m ∧ m.Exclusive ∧
      ∀ op, ∃ m', (run (ops ++ [op])).Shows m' ∧ LockMap.Step m op ((run ops).apply op).1 m' := by
  have h := sound_run ops
  refine ⟨(run ops).mode?, h.shows, h.exclusive, fun op => ⟨(run (ops ++ [op])).mode?, ?_, ?_⟩⟩
  · exact (sound_run (ops ++ [op])).shows
  · have hrun : run (ops ++ [op]) = ((run ops).apply op).2 := by
      rw [run, List.foldl_append]
      rfl
    rw [hrun]
    exact h.step op

end LockTable

end TupleStore
