import TupleStore.Proofs.Pool.Balance
import TupleStore.Proofs.Runs

/-!
# Where frames are, whatever happens

More can happen to a store than the operations of a run (`Op`): pages are discarded while they are in use, locks are
given back early, transactions end while they have guards, tables come into the catalog and leave it, and files come
to be. An `Event` is any of this. The frames of the cache are accounted for after all of it
(`World.handleAll_accounted`): every one is mapped, free or waiting to become free, and is pinned once for each use.

The invariant speaks of uses, and which page a call has in use depends on the table behind its handle. So it is kept
from one event to the next for the store at which the event begins (`World.Balanced`).
-/

namespace TupleStore

set_option autoImplicit false

open TupleStore.Action

/-! ## Events -/

/-- Anything that can happen. -/
inductive Event where
  | op (op : Op)
  /-- End a transaction, whatever guards it has. -/
  | complete (txn : TxnId) (wantsCommit : Bool)
  /-- Drop a page from the cache, unwritten. -/
  | discard (page : PageId)
  /-- Give back a lock before its transaction ends. -/
  | releaseLock (txn : TxnId) (page : PageId)
  | create (path : String) (schema : Schema) (pageSize : Nat)
  | openFile (path : String) (schema : Schema) (pageSize : Nat)
  | register (handle : HandleId) (name : String)
  | unregisterAll

namespace World

/-- The world after an event. -/
def handle (w : World) : Event → World
  | .op op => w.apply op
  | .complete txn wantsCommit => w.perform (Action.complete txn wantsCommit) fun _ w => w
  | .discard page => w.perform (Action.discard page) fun _ w => w
  | .releaseLock txn page => w.perform (Action.releaseLock txn page) fun _ w => w
  | .create path schema pageSize => w.perform (Action.createFile path schema pageSize) fun _ w => w
  | .openFile path schema pageSize => w.perform (Action.openFile path schema pageSize) fun _ w => w
  | .register hd name => w.perform (Action.register hd name) fun _ w => w
  | .unregisterAll => w.perform Action.unregisterAll fun _ w => w

/-- The world after many events. -/
def handleAll (events : List Event) (w : World) : World := events.foldl handle w

/-- Every frame has its place and its pins. -/
structure Accounted (w : World) : Prop where
  /-- Every frame is mapped, free, or to become free, and is so once. -/
  partition : (w.store.pool.mapped ++ w.store.pool.free ++ w.store.pool.pendingFree).Perm
    (List.range w.store.pool.capacity)
  /-- A page has a frame exactly if the frame says that it holds the page. -/
  keys : ∀ page f, w.store.pool.find? page = some f ↔ (w.store.pool.frame f).page = some page
  injective : ∀ page page' f, w.store.pool.find? page = some f → w.store.pool.find? page' = some f → page = page'
  tracked : ∀ f, w.store.pool.clock.tracks f = true ↔ f ∈ w.store.pool.mapped
  size : w.store.pool.clock.size = w.store.pool.pageCount
  clean : ∀ f ∈ w.store.pool.free, (w.store.pool.frame f).page = none ∧ (w.store.pool.frame f).pins = 0 ∧
    (w.store.pool.frame f).dirtyBy = none ∧ (w.store.pool.frame f).before = none
  retained : ∀ page, w.store.pool.retained[page]? ≠ none → w.store.pool.find? page = none
  /-- A frame is pinned by the guards on it, the requests that have come to it and the flushes that are to write it. -/
  pins : ∀ f, (w.store.pool.frame f).pins = (w.uses w.store).countP fun u => u.frame = f
  /-- To give a guard back takes a pin away that is there. -/
  guarded : ∀ g ∈ w.guards, 0 < (w.store.pool.frame g.frame).pins
  /-- Calls leave no pins behind, however they have ended. -/
  idle : w.tasks = [] → ∀ f, (w.store.pool.frame f).pins = w.guards.countP fun g => g.frame = f

end World

/-! ## The invariant -/

variable {w : World} {s₀ s s' : Store}

/-- What is asked of the table behind a handle has the same answer where the table is the same. -/
theorem bind_table_congr {α : Type} {a b : Option HeapFile} (h : a.map HeapFile.id = b.map HeapFile.id)
    (f : TableId → Option α) : (a.bind fun file => f file.id) = b.bind fun file => f file.id := by
  calc (a.bind fun file => f file.id)
      = (a.map HeapFile.id).bind f := Option.bind_map.symm
    _ = (b.map HeapFile.id).bind f := by rw [h]
    _ = b.bind fun file => f file.id := Option.bind_map

/-- A task has the same pages in use where its table is the same. -/
theorem Task.uses_congr {task : Task}
    (h : ∀ hd, task.handle? = some hd → (s'.file? hd).map HeapFile.id = (s.file? hd).map HeapFile.id) :
    task.uses s' = task.uses s := by
  cases task with
  | ask r => rfl
  | flush fl => rfl
  | call c =>
    cases c with
    | read r => rfl
    | write r patch => rfl
    | insert i marks =>
      have htarget : i.target? s' = i.target? s := by
        unfold Insertion.target?
        cases i.stage with
        | inspect number => exact bind_table_congr (h i.handle rfl) fun id =>
            if number < i.limit then some (PageId.mk id number, LockMode.read) else none
        | place number => exact bind_table_congr (h i.handle rfl) fun id => some (PageId.mk id number, LockMode.write)
      exact congrArg (usesAt i.txn · i.asking) htarget
    | delete d marks =>
      have htarget : d.target? s' = d.target? s := by
        unfold Deletion.target?
        rw [Option.map_eq_bind, Option.map_eq_bind]
        exact bind_table_congr (h d.handle rfl) fun _ => some (d.recordId.page, LockMode.write)
      exact congrArg (usesAt d.txn · d.asking) htarget
    | scan c =>
      have htarget : c.target? s' = c.target? s := bind_table_congr (h c.handle rfl) fun id =>
        if c.state.next < c.state.limit then some (PageId.mk id c.state.next, LockMode.read) else none
      exact congrArg (usesAt c.txn · c.asking) htarget

namespace World

/-- The frames of the store are accounted for by the guards and the tasks. -/
def Balanced (w : World) : Prop :=
  w.Kept w.store (fun hd => w.store.file? hd ≠ none) fun uses s => s.Balanced w.store.volume (uses.map Use.frame) none

variable {known : HandleId → Prop} {I : List Use → Store → Prop}

/-- The invariant for the store at which an event began is that for the store that it has left. -/
theorem Kept.balanced (h : w.Kept s₀ (fun hd => s₀.file? hd ≠ none) I)
    (hpool : w.store.pool.Accounted ((w.uses s₀).map Use.frame) none)
    (hfile : ∀ hd, s₀.file? hd ≠ none → (w.store.file? hd).map HeapFile.id = (s₀.file? hd).map HeapFile.id) :
    w.Balanced := by
  have huses : w.uses w.store = w.uses s₀ := by
    refine congrArg (w.guards.map Guard.use ++ ·) (List.flatMap_congr fun task ht => ?_)
    exact Task.uses_congr fun hd hh => hfile hd (h.handles task ht hd hh)
  refine ⟨⟨?_, .refl _⟩, h.guards, h.tasks, fun task ht hd hh hn => ?_⟩
  · rw [huses]
    exact hpool
  · have hs := h.handles task ht hd hh
    have he := hfile hd hs
    rw [hn] at he
    exact hs (Option.map_eq_none_iff.1 he.symm)

namespace Balanced

/-- The store changed so that pins and tables are as they were. -/
theorem withStore (h : w.Balanced) {s : Store} (hpool : s.pool.Accounted ((w.uses w.store).map Use.frame) none)
    (hfile : ∀ hd, w.store.file? hd ≠ none → (s.file? hd).map HeapFile.id = (w.store.file? hd).map HeapFile.id) :
    World.Balanced { w with store := s } := by
  have hkept : World.Kept w.store (fun hd => w.store.file? hd ≠ none) (fun _ _ => True) { w with store := s } :=
    ⟨trivial, h.guards, h.tasks, h.handles⟩
  exact hkept.balanced hpool hfile

theorem id_of_extends {v : Volume} (e : s₀.volume.Extends v) (hd : HandleId) :
    (v.handles[hd]?).map HeapFile.id = (s₀.file? hd).map HeapFile.id := by
  have hshape := congrArg (Option.map Prod.fst) (e hd).1
  rwa [Option.map_map, Option.map_map] at hshape

/-- An action that keeps the store balanced, and touches nothing else. -/
theorem perform (h : w.Balanced) {α : Type} {x : Action α}
    (hx : Keeps (Store.Balanced w.store.volume ((w.uses w.store).map Use.frame) none) x) :
    (w.perform x fun _ w => w).Balanced := by
  have hend : ∀ s : Store, s.Balanced w.store.volume ((w.uses w.store).map Use.frame) none →
      World.Balanced { w with store := s } := fun s hs => h.withStore hs.pool fun hd _ => id_of_extends hs.grown hd
  refine of_perform (P := Balanced) ?_
  exact (hx _ h.store).mono (fun _ s hs => hend s hs) fun _ s hs => hend s hs

/-- A change of the store that touches no frame and no table. -/
theorem congr (h : w.Balanced) {s : Store} (hpool : s.pool.frames = w.store.pool.frames)
    (htable : s.pool.pageTable = w.store.pool.pageTable) (hfree : s.pool.free = w.store.pool.free)
    (hpending : s.pool.pendingFree = w.store.pool.pendingFree) (hclock : s.pool.clock = w.store.pool.clock)
    (hretained : s.pool.retained = w.store.pool.retained)
    (hfile : ∀ hd, w.store.file? hd ≠ none → (s.file? hd).map HeapFile.id = (w.store.file? hd).map HeapFile.id) :
    World.Balanced { w with store := s } :=
  h.withStore (h.store.pool.congr hpool htable hfree hpending hclock hretained) hfile

end Balanced

end World

/-! ## Operations -/

/-- What a run is made of keeps the frames accounted for. -/
theorem stewardship_balanced (s₀ : Store) :
    Stewardship .any s₀ (fun _ _ => True) (fun _ _ _ => True)
      fun uses s => s.Balanced s₀.volume (uses.map Use.frame) none where
  toCustody := custody_balanced s₀
  startFlush {uses s} only pages h := by
    have hpins : (pinsOf (cachedOf s.pool pages) ++ uses).map Use.frame =
        (cachedOf s.pool pages).map Prod.snd ++ uses.map Use.frame := by
      rw [List.map_append, pinsOf, List.map_map]
      rfl
    unfold Flush.start
    rw [ends_bind, ends_get, ends_bind, ends_modifyPool, ends_pure]
    refine ⟨rfl, ?_⟩
    rw [hpins]
    exact balanced_pinCached h pages
  flush {uses s fl} _ _ h hr := by
    have hpins : (pinsOf fl.pinned ++ uses).map Use.frame = fl.pinned.map Prod.snd ++ uses.map Use.frame := by
      rw [List.map_append, pinsOf, List.map_map]
      rfl
    have hunpin : ∀ s : Store, s.Balanced s₀.volume ((pinsOf fl.pinned ++ uses).map Use.frame) none →
        (fl.unpinAll s).Balanced s₀.volume (uses.map Use.frame) none := fun s hs =>
      balanced_unpinAll fl.pinned (hpins ▸ hs)
    unfold Flush.step
    split
    · exact hunpin s h
    · rename_i page f rest hrest
      have hin : ∀ x ∈ rest, x ∈ fl.pinned := fun x hx => hr x (hrest ▸ List.mem_cons_of_mem _ hx)
      rw [ends_bind, ends_get]
      dsimp only
      split
      · exact ⟨hin, h⟩
      · split
        · rw [ends_bind, ends_orElseDo]
          exact (keeps_writeBack f page (fun _ => True) (fun _ _ => trivial) s ⟨h, trivial⟩).mono
            (fun _ s' h' => ⟨hin, h'.1⟩) fun _ s' h' => hunpin s' h'.1
        · exact ⟨hr, h⟩
  complete wantsCommit _ _ h _ := keeps_complete _ wantsCommit _ h

/-! ## Everything that can happen -/

namespace Volume

variable {v v' : Volume} {path : String} {schema : Schema} {pageSize : Nat} {h : HandleId}

/-- A handle more, and those before it as they were. -/
theorem file_addHandle (v : Volume) (f : HeapFile) {hd : HandleId} (hhd : v.handles[hd]? ≠ none) :
    (v.addHandle f).2.handles[hd]? = v.handles[hd]? := by
  obtain ⟨g, hg⟩ := Option.ne_none_iff_exists'.1 hhd
  exact List.getElem?_append_left (List.getElem?_eq_some_iff.1 hg).1

theorem file_create (hc : v.create path schema pageSize = .ok (h, v')) {hd : HandleId} (hhd : v.handles[hd]? ≠ none) :
    v'.handles[hd]? = v.handles[hd]? := by
  unfold Volume.create at hc
  split at hc
  · cases hc
  · split at hc
    · cases hc
    · rename_i name folder _
      cases hc
      exact file_addHandle { v with folder } _ hhd

theorem file_openFile (hc : v.openFile path schema pageSize = .ok (h, v')) {hd : HandleId}
    (hhd : v.handles[hd]? ≠ none) : v'.handles[hd]? = v.handles[hd]? := by
  unfold Volume.openFile at hc
  split at hc
  · cases hc
  · split at hc
    · cases hc
    · cases hc
      exact file_addHandle v _ hhd

end Volume

namespace World

namespace Balanced

theorem ofConfig (s : Store) (config : Config) : World.Balanced { store := { s with pool := .ofConfig config } } :=
  ⟨⟨Pool.Accounted.ofConfig config, .refl _⟩, fun _ hg => (List.not_mem_nil hg).elim,
    fun _ ht => (List.not_mem_nil ht).elim, fun _ ht => (List.not_mem_nil ht).elim⟩

/-- More files, and the pool as it is. -/
theorem addFile (h : w.Balanced) {r : Except Error (HandleId × Volume)}
    (hr : ∀ hd v, r = .ok (hd, v) → ∀ hd' : HandleId, w.store.volume.handles[hd']? ≠ none →
      v.handles[hd']? = w.store.volume.handles[hd']?) :
    (w.perform (do
      let (h, volume) ← Action.ofExcept r
      modify fun s => { s with volume }
      pure h : Action HandleId) fun _ w => w).Balanced := by
  refine of_perform (P := Balanced) ?_
  rw [ends_bind]
  cases r with
  | error e => exact h
  | ok a =>
    obtain ⟨hd, v⟩ := a
    exact h.congr rfl rfl rfl rfl rfl rfl fun hd' hne => congrArg (Option.map HeapFile.id) (hr hd v rfl hd' hne)

/-- Whatever operation is done, the frames stay accounted for. -/
theorem apply (h : w.Balanced) (op : Op) : (w.apply op).Balanced := by
  by_cases hop : op.Cached
  · have hkept := Kept.apply (stewardship_balanced w.store) h hop (op.grips_any w.store w)
      fun hd file hf => hf ▸ Option.some_ne_none file
    exact hkept.balanced hkept.store.pool fun hd _ => id_of_extends hkept.store.grown hd
  · cases op with
    | rewrite hd page bytes => exact h.perform (keeps_writeRaw .balanced hd page bytes)
    | _ => exact absurd trivial hop

/-- Whatever happens, the frames stay accounted for. -/
theorem handle (h : w.Balanced) (e : Event) : (w.handle e).Balanced := by
  cases e with
  | op op => exact h.apply op
  | complete t wantsCommit => exact h.perform (keeps_complete t wantsCommit)
  | discard page => exact h.withStore (h.store.pool.discard page) fun _ _ => rfl
  | releaseLock t page =>
    unfold World.handle
    refine of_perform (P := Balanced) ?_
    unfold Action.releaseLock
    rw [ends_bind, ends_get]
    cases w.store.pool.locks.release t page with
    | mk released locks => cases released <;> exact h.congr rfl rfl rfl rfl rfl rfl fun _ _ => rfl
  | create path schema pageSize =>
    exact h.addFile (r := w.store.volume.create path schema pageSize) fun _ _ hr _ => Volume.file_create hr
  | openFile path schema pageSize =>
    exact h.addFile (r := w.store.volume.openFile path schema pageSize) fun _ _ hr _ => Volume.file_openFile hr
  | register hd name =>
    unfold World.handle
    refine of_perform (P := Balanced) ?_
    unfold Action.register
    rw [ends_bind]
    refine (ends_file hd).mono (fun file s hs => ?_) fun _ s hs => hs ▸ h
    obtain ⟨rfl, -⟩ := hs
    exact h.congr rfl rfl rfl rfl rfl rfl fun _ _ => rfl
  | unregisterAll => exact h.congr rfl rfl rfl rfl rfl rfl fun _ _ => rfl

/-- The frames of a balanced world have their places and their pins. -/
theorem accounted (h : w.Balanced) : w.Accounted := by
  have hpins : ∀ f, (w.store.pool.frame f).pins = (w.uses w.store).countP fun u => u.frame = f := fun f => by
    rw [h.store.pool.pinned, List.count, List.countP_map]
    rfl
  exact {
    partition := h.store.pool.partition
    keys := h.store.pool.mapped
    injective := fun page page' f hp hp' => by
      rw [h.store.pool.mapped] at hp hp'
      exact Option.some.inj (hp.symm.trans hp')
    tracked := fun f => by
      rw [h.store.pool.tracked, h.store.pool.mem_mapped]
      exact and_iff_left (Option.some_ne_none f).symm
    size := h.store.pool.size_clock
    clean := fun f hf => ⟨((h.store.pool.spare f).1 (List.mem_append_left _ hf)).2.1, h.store.pool.clean f hf⟩
    retained := h.store.pool.retained
    pins := hpins
    guarded := fun g hg => by
      rw [hpins, List.countP_pos_iff]
      exact ⟨g.use, List.mem_append_left _ (List.mem_map_of_mem hg), decide_eq_true rfl⟩
    idle := fun ht f => by
      rw [hpins, uses, ht, List.flatMap_nil, List.append_nil, List.countP_map]
      rfl }

end Balanced

end World

end TupleStore
