import Mathlib.Data.List.Perm.Basic
import TupleStore.Proofs.Calling
import TupleStore.Proofs.Pool.Flushing

/-!
# Runs

Transactions work on a store side by side: they ask for pages and keep guards, and they have calls and
flushes on their way, which move on one step at a time in any order. This module says what can happen
(`Op`) and what it does (`World.apply`).

* `Stewardship` : what all this is built of keeps a property of the uses of pages and the store. So does then
  whatever happens (`World.Kept.apply`);
* `World.stands_run` : the invariant holds after every run from a store that has just been opened.

A transaction that still has a guard, or a request whose page is pinned, does not end: `Op.complete` then
does nothing. It ends all at once here, and with others in between in `Crowd`. Tables stay registered, no page is
discarded, and no lock is given back early.
-/

namespace TupleStore

set_option autoImplicit false

open TupleStore.Action

/-! ## Worlds -/

/-- An operation on its way. -/
inductive Task where
  /-- A request for a page, whose guard is kept. -/
  | ask (request : Request)
  | call (call : Call)
  | flush (flush : Flush)

/-- A call to be begun. Tuples are inserted and deleted through the handle of a table, or by its id. -/
inductive Start where
  | read (txn : TxnId) (page : PageId)
  | write (txn : TxnId) (page : PageId) (patch : Option (Nat × Bytes))
  | insert (txn : TxnId) (handle : HandleId) (tuple : Tuple)
  | insertById (txn : TxnId) (table : TableId) (tuple : Tuple)
  | delete (txn : TxnId) (handle : HandleId) (recordId : Option RecordId)
  | deleteById (txn : TxnId) (recordId : Option RecordId)
  | scan (txn : TxnId) (handle : HandleId)

/-- What can happen. Tasks and guards are named by their places in their lists. -/
inductive Op where
  | ask (txn : TxnId) (page : PageId) (mode : LockMode)
  | begin (start : Start)
  /-- Flush a page. -/
  | flushPage (page : PageId)
  | flushAll
  /-- Flush the pages that a transaction has changed. -/
  | flushTxn (txn : TxnId)
  /-- Take one step of a task. -/
  | advance (task : Nat)
  /-- Look at a page through its guard. -/
  | look (guard : Nat)
  /-- Write bytes at an offset through a guard. -/
  | patch (guard : Nat) (off : Nat) (data : Bytes)
  /-- Give a guard back. -/
  | drop (guard : Nat)
  | complete (txn : TxnId) (wantsCommit : Bool)
  /-- Append a page to a file. -/
  | allocate (handle : HandleId)
  /-- Ask a cursor for more, wherever it stands. -/
  | iterate (cursor : Cursor)
  /-- Write a page to its file past the cache. -/
  | rewrite (handle : HandleId) (page : PageId) (bytes : Bytes)

/-- A store, with the guards that are held on it and the operations that are on their way. -/
structure World where
  store : Store
  guards : List Guard := []
  tasks : List Task := []

/-! ## Steps -/

/-- The call that begins. -/
def Start.call : Start → Action Call
  | read txn page => pure (.read { txn, page, mode := .read })
  | write txn page patch => pure (.write { txn, page, mode := .write } patch)
  | insert txn handle tuple => return .insert (← Insertion.start txn handle tuple) false
  | insertById txn table tuple => Call.startInsert txn table tuple
  | delete txn handle recordId => return .delete (← Deletion.start txn handle recordId) false
  | deleteById txn recordId => Call.startDelete txn recordId
  | scan txn handle => return .scan (← Scan.start txn handle)

/-- One step of a task, which may end in a guard. -/
def Task.step : Task → Action (Progress Task (Option Guard))
  | ask r => return (← r.step).map ask some
  | call c => return (← c.step).map call fun _ => none
  | flush fl => return (← fl.step).map flush fun _ => none

/-- Bytes written at an offset through a guard, if it is one to write and they fit. -/
def Guard.write (g : Guard) (off : Nat) (data : Bytes) : Action Guard := do
  match g.mode with
  | .read => pure g
  | .write => do
    let g ← g.beginChange
    match (g.bytes (← get)).patch? off data with
    | none => pure g
    | some bytes => do
      g.setBytes bytes
      pure g

/-- Whether a task keeps a page pinned for a transaction. -/
def Task.usesFor (t : TxnId) : Task → Bool
  | ask r => r.txn = t && r.stage.isPinned
  | call c => c.txn = t && c.asking.isPinned
  | flush _ => false

namespace World

/-- The world with an action done on its store. -/
def perform {α : Type} (w : World) (x : Action α) (onOk : α → World → World) : World :=
  match x w.store with
  | .ok a store => onOk a { w with store }
  | .error _ store => { w with store }

/-- The world with one more task. -/
def addTask (task : Task) (w : World) : World := { w with tasks := task :: w.tasks }

/-- The world with one step of a task taken. A task that ends or fails is gone. -/
def advance (w : World) (i : Nat) : World :=
  match w.tasks[i]? with
  | none => w
  | some task =>
    match task.step w.store with
    | .error _ store => { w with store, tasks := w.tasks.eraseIdx i }
    | .ok (.finished guard) store => ⟨store, guard.toList ++ w.guards, w.tasks.eraseIdx i⟩
    | .ok (.moved task) store => { w with store, tasks := w.tasks.set i task }
    | .ok (.blocked task) store => { w with store, tasks := w.tasks.set i task }

/-- Whether a transaction has a page in use. -/
def uses? (w : World) (t : TxnId) : Bool :=
  w.guards.any (fun g => g.txn = t) || w.tasks.any (Task.usesFor t)

/-- The world after something has happened. -/
def apply (w : World) : Op → World
  | .ask txn page mode => w.addTask (.ask { txn, page, mode })
  | .begin start => w.perform start.call fun call => addTask (.call call)
  | .flushPage page => w.perform (Flush.start none [page]) fun flush => addTask (.flush flush)
  | .flushAll => w.perform (Flush.start none w.store.pool.cachedPages) fun flush => addTask (.flush flush)
  | .flushTxn txn =>
    w.perform (Flush.start (some txn) w.store.pool.cachedPages) fun flush => addTask (.flush flush)
  | .advance i => w.advance i
  | .look i =>
    match w.guards[i]? with
    | none => w
    | some g => w.perform g.look fun _ w => w
  | .patch i off data =>
    match w.guards[i]? with
    | none => w
    | some g => w.perform (g.write off data) fun g w => { w with guards := w.guards.set i g }
  | .drop i =>
    match w.guards[i]? with
    | none => w
    | some g => w.perform g.release fun _ w => { w with guards := w.guards.eraseIdx i }
  | .complete txn wantsCommit =>
    if w.uses? txn then w else w.perform (Action.complete txn wantsCommit) fun _ w => w
  | .allocate handle => w.perform (Action.allocatePage handle) fun _ w => w
  | .iterate cursor => w.perform cursor.hasNext fun _ w => w
  | .rewrite handle page bytes => w.perform (Action.writeRaw handle page bytes) fun _ w => w

/-- The world after a run. -/
def run (ops : List Op) (w : World) : World := ops.foldl apply w

theorem run_append (ops ops' : List Op) (w : World) : run (ops ++ ops') w = run ops' (run ops w) := List.foldl_append

end World

/-- A store that has just been opened: all tables are registered, with one handle each, and the cache is
empty. -/
structure Opening (s : Store) : Prop where
  pool : ∃ config, s.pool = .ofConfig config
  files : s.volume.Registered s.catalog
  trace : s.trace = []

/-- A store that has just been opened on one file. -/
def Store.ofFile (config : Config) (log : Log) (schema : Schema) (name : String) (content : Bytes) : Store where
  volume :=
    { folder := Folder.put {} name content
      handles := [⟨Volume.tableId name, name, schema,
        (PageFile.ofContent? content config.pageSize).getD (.empty config.pageSize)⟩] }
  catalog := Catalog.empty.add (Volume.tableId name) name 0
  log := log
  pool := .ofConfig config

theorem Opening.ofFile {config : Config} (hsize : 0 < config.pageSize) (log : Log) (schema : Schema) (name : String)
    (content : Bytes) : Opening (.ofFile config log schema name content) := by
  have hentry : ∀ id, (Catalog.empty.add (Volume.tableId name) name 0).handle id =
      if Volume.tableId name = id then .ok 0 else .error (.noSuchTable id) := by
    intro id
    simp only [Catalog.handle, Catalog.add, Catalog.removeName, Catalog.removeId, Catalog.empty,
      Std.TreeMap.getElem?_emptyc, Std.TreeMap.getElem?_insert, Std.compare_eq_iff_eq]
    split
    · rename_i h
      split at h
      · cases h
      · rw [if_neg (by assumption)]
    · rename_i h
      split at h
      · cases h
        rw [if_pos (by assumption)]
      · cases h
  have hfile : ∀ (h : HandleId) (f : HeapFile), (Store.ofFile config log schema name content).volume.handles[h]? = some f →
      h = 0 ∧ f = ⟨Volume.tableId name, name, schema,
        (PageFile.ofContent? content config.pageSize).getD (.empty config.pageSize)⟩ := by
    intro h f hf
    obtain ⟨hl, rfl⟩ := List.getElem?_eq_some_iff.1 hf
    obtain rfl : h = 0 := Nat.lt_one_iff.1 hl
    exact ⟨rfl, rfl⟩
  refine ⟨⟨config, rfl⟩, ⟨fun h f hf => ?_, fun id h hid => ?_, fun h h' f f' hf hf' _ => ?_, fun h f hf => ?_⟩, rfl⟩
  · obtain ⟨rfl, rfl⟩ := hfile h f hf
    exact (hentry _).trans (if_pos rfl)
  · have hid := (hentry id).symm.trans hid
    split at hid
    · rename_i e
      cases hid
      exact ⟨_, rfl, e⟩
    · cases hid
  · exact (hfile h f hf).1.trans (hfile h' f' hf').1.symm
  · obtain ⟨rfl, rfl⟩ := hfile h f hf
    show ((Folder.put {} name content).content name).length ≤ _
    rw [Folder.content_put_self, PageFile.ofContent?, if_neg (Nat.ne_of_gt hsize)]
    show content.length ≤ (content.length + config.pageSize - 1) / config.pageSize * config.pageSize
    have := Nat.div_add_mod (content.length + config.pageSize - 1) config.pageSize
    have := Nat.mod_lt (content.length + config.pageSize - 1) hsize
    rw [Nat.mul_comm]
    omega

/-- Nothing is written past the cache. -/
def Op.Cached : Op → Prop
  | .rewrite .. => False
  | _ => True

/-! ## Uses -/

/-- The uses behind a task. -/
def Task.uses (s₀ : Store) : Task → List Use
  | ask r => r.uses
  | call c => c.uses s₀
  | flush fl => pinsOf fl.pinned

/-- A task is well-formed: a page is written under a lock to write, and a flush writes what it has pinned. -/
def Task.Proper : Task → Prop
  | ask _ => True
  | call c => c.Proper
  | flush fl => ∀ x ∈ fl.rest, x ∈ fl.pinned

/-- The handle of the table that a task works on, if it works on one. -/
def Task.handle? : Task → Option HandleId
  | ask _ => none
  | call c => c.handle?
  | flush _ => none

/-- The uses behind all guards and tasks. -/
def World.uses (s₀ : Store) (w : World) : List Use := w.guards.map Guard.use ++ w.tasks.flatMap (Task.uses s₀)

variable {s₀ : Store} {w : World} {uses : List Use} {s : Store}

/-! ## Worlds in custody -/

/-- What the operations of a world are built of keeps `I`: besides requests and calls there are flushes and the ends
of transactions. Flushes take only steps of which `heeds` holds. -/
structure Stewardship (k : Grip) (s₀ : Store) (may : TxnId → PageId → Prop) (marks : TxnId → PageId → Store → Prop)
    (I : List Use → Store → Prop) (asks : TxnId → Prop := fun _ => True)
    (heeds : Flush → Store → Prop := fun _ _ => True) : Prop extends Custody k s₀ may marks I asks where
  startFlush : ∀ {uses : List Use} {s : Store} (only : Option TxnId) (pages : List PageId), I uses s →
    (Flush.start only pages).Ends s (fun fl s' => fl.rest = fl.pinned ∧ I (pinsOf fl.pinned ++ uses) s') fun _ _ => False
  /-- A flush goes on although frames that it has pinned have lost their pages. -/
  flush : ∀ {uses : List Use} {s : Store} {fl : Flush}, heeds fl s → k ≠ .firm → I (pinsOf fl.pinned ++ uses) s →
    (∀ x ∈ fl.rest, x ∈ fl.pinned) → fl.step.Ends s
      (fun p s' => match p with
        | .finished _ => I uses s'
        | .moved fl' => (∀ x ∈ fl'.rest, x ∈ fl'.pinned) ∧ I (pinsOf fl'.pinned ++ uses) s'
        | .blocked fl' => (∀ x ∈ fl'.rest, x ∈ fl'.pinned) ∧ I (pinsOf fl'.pinned ++ uses) s')
      fun _ s' => I uses s'
  complete : ∀ {uses : List Use} {s : Store} {t : TxnId} (wantsCommit : Bool), asks t → k ≠ .lost → I uses s →
    (∀ u ∈ uses, ∀ m, u.holder ≠ some (t, m)) →
    (Action.complete t wantsCommit).Ends s (fun _ s' => I uses s') fun _ s' => I uses s'

/-- The frames that a task works on are as they are to be, and it may mark its page. -/
def Task.Grips (k : Grip) (s₀ : Store) (may : TxnId → PageId → Prop) (s : Store) : Task → Prop
  | ask r => k.Holds s r.stage r.uses
  | call c => k.Holds s c.asking (c.uses s₀) ∧ c.May s₀ may
  | flush _ => k ≠ .firm

/-- The frames that an operation works on are as they are to be, and it may mark the pages that it marks. -/
def Op.Grips (k : Grip) (s₀ : Store) (may : TxnId → PageId → Prop) (w : World) : Op → Prop
  | advance i => ∀ task, w.tasks[i]? = some task → task.Grips k s₀ may w.store
  | patch i _ _ => ∀ g, w.guards[i]? = some g → k.On w.store g.use
  | drop i => ∀ g, w.guards[i]? = some g → k.On w.store g.use
  | complete _ _ => k ≠ .lost
  | iterate _ => k ≠ .lost
  | _ => True

theorem Op.grips_any (s₀ : Store) (w : World) (op : Op) : op.Grips .any s₀ (fun _ _ => True) w := by
  cases op with
  | advance i =>
    intro task _
    cases task with
    | ask r => exact .of_any ..
    | call c => exact ⟨.of_any .., c.may_any s₀⟩
    | flush _ => exact nofun
  | patch _ _ _ => exact fun _ _ => trivial
  | drop _ => exact fun _ _ => trivial
  | complete _ _ => exact nofun
  | iterate _ => exact nofun
  | _ => trivial

/-- A task may take its next step. -/
def Task.Heeds (asks : TxnId → Prop) (heeds : Flush → Store → Prop) (s : Store) : Task → Prop
  | ask r => asks r.txn
  | call c => asks c.txn
  | flush fl => heeds fl s

/-- An operation may be done: who is to work on pages asks for locks, and a flush may take its next step. -/
def Op.Heeds (asks : TxnId → Prop) (heeds : Flush → Store → Prop) (w : World) : Op → Prop
  | advance i => ∀ task, w.tasks[i]? = some task → task.Heeds asks heeds w.store
  | complete t _ => asks t
  | iterate cursor => asks cursor.txn
  | _ => True

theorem Op.heeds_any (w : World) (op : Op) : op.Heeds (fun _ => True) (fun _ _ => True) w := by
  cases op with
  | advance i =>
    intro task _
    cases task <;> trivial
  | _ => trivial

/-- The world keeps `I`, its guards and tasks are well-formed, and its tasks work on known tables. -/
structure World.Kept (s₀ : Store) (known : HandleId → Prop) (I : List Use → Store → Prop) (w : World) : Prop where
  store : I (w.uses s₀) w.store
  guards : ∀ g ∈ w.guards, g.changed = true → g.mode = .write
  tasks : ∀ task ∈ w.tasks, task.Proper
  handles : ∀ task ∈ w.tasks, ∀ hd, task.handle? = some hd → known hd

variable {k : Grip} {may : TxnId → PageId → Prop} {marks : TxnId → PageId → Store → Prop} {known : HandleId → Prop}
  {I : List Use → Store → Prop} {asks : TxnId → Prop} {heeds : Flush → Store → Prop}

namespace Stewardship

variable (c : Stewardship k s₀ may marks I asks heeds)

include c

theorem task {task : Task} (hk : task.Grips k s₀ may s) (h : I (task.uses s₀ ++ uses) s) (hp : task.Proper)
    (ha : task.Heeds asks heeds s) :
    task.step.Ends s
      (fun p s' => match p with
        | .finished g => (∀ x, g = some x → x.changed = false) ∧ I (g.toList.map Guard.use ++ uses) s'
        | .moved task' => task'.handle? = task.handle? ∧ task'.Proper ∧ I (task'.uses s₀ ++ uses) s'
        | .blocked task' => task'.handle? = task.handle? ∧ task'.Proper ∧ I (task'.uses s₀ ++ uses) s')
      fun _ s' => I uses s' := by
  cases task with
  | ask r =>
    unfold Task.step
    rw [ends_bind]
    refine (c.request hk h ha).mono (fun p s' h' => ?_) fun _ _ h' => h'
    cases p with
    | finished g => exact ⟨fun x hx => Option.some.inj hx ▸ h'.1.unchanged, h'.2.2⟩
    | moved r' => exact ⟨rfl, trivial, h'.2.2⟩
    | blocked r' => exact ⟨rfl, trivial, h'.2.2⟩
  | call q =>
    unfold Task.step
    rw [ends_bind]
    refine (c.call hk.1 hk.2 h hp ha).mono (fun p s' h' => ?_) fun _ _ h' => h'
    cases p with
    | finished reply => exact ⟨nofun, h'⟩
    | moved q' => exact h'
    | blocked q' => exact h'
  | flush fl =>
    unfold Task.step
    rw [ends_bind]
    refine (c.flush ha hk h hp).mono (fun p s' h' => ?_) fun _ _ h' => h'
    cases p with
    | finished _ => exact ⟨nofun, h'⟩
    | moved fl' => exact ⟨rfl, h'⟩
    | blocked fl' => exact ⟨rfl, h'⟩

theorem write {g : Guard} (h : I (g.use :: uses) s) (hon : k.On s g.use) (hg : g.changed = true → g.mode = .write)
    (off : Nat) (data : Bytes) :
    (g.write off data).Ends s
      (fun g' s' => (g'.changed = true → g'.mode = .write) ∧ I (g'.use :: uses) s') fun _ _ => False := by
  unfold Guard.write
  cases hm : g.mode with
  | read => exact ⟨hg, h⟩
  | write =>
    dsimp only
    rw [ends_bind]
    refine (c.beginChange h hon hm).mono (fun g' s₁ h₁ => ?_) fun _ _ h' => h'.elim
    obtain ⟨rfl, hon₁, h₁, -⟩ := h₁
    rw [ends_bind, ends_get]
    cases hp : (Guard.bytes { g with changed := true } s₁).patch? off data with
    | none => exact ⟨fun _ => hm, h₁⟩
    | some bytes =>
      dsimp only
      rw [ends_bind]
      exact (c.setBytes h₁ hon₁ hm rfl (Bytes.length_of_patch? hp)).mono (fun _ _ h₂ => ⟨fun _ => hm, h₂.2⟩)
        fun _ _ h' => h'.elim

end Stewardship

/-! ### Calls that begin -/

/-- How a call begins. -/
inductive Start.Begins (s : Store) : Start → Call → Prop where
  | read (txn : TxnId) (page : PageId) : Begins s (.read txn page) (.read { txn, page, mode := .read })
  | write (txn : TxnId) (page : PageId) (patch : Option (Nat × Bytes)) :
    Begins s (.write txn page patch) (.write { txn, page, mode := .write } patch)
  | insert {txn : TxnId} {handle : HandleId} {tuple : Tuple} {file : HeapFile} (hfile : s.file? handle = some file) :
    Begins s (.insert txn handle tuple) (.insert { txn, handle, tuple, limit := file.pages.pageCount } false)
  | insertById {txn : TxnId} {table : TableId} {handle : HandleId} {tuple : Tuple} {file : HeapFile}
    (hfile : s.file? handle = some file) :
    Begins s (.insertById txn table tuple) (.insert { txn, handle, tuple, limit := file.pages.pageCount } true)
  | delete {txn : TxnId} {handle : HandleId} {recordId : RecordId} {file : HeapFile} (hfile : s.file? handle = some file)
    (hin : recordId.page.table = file.id) :
    Begins s (.delete txn handle (some recordId)) (.delete { txn, handle, recordId } false)
  | deleteById {txn : TxnId} {handle : HandleId} {recordId : RecordId} {file : HeapFile}
    (hfile : s.file? handle = some file) (hin : recordId.page.table = file.id) :
    Begins s (.deleteById txn (some recordId)) (.delete { txn, handle, recordId } true)
  | scan {txn : TxnId} {handle : HandleId} {file : HeapFile} (hfile : s.file? handle = some file) :
    Begins s (.scan txn handle) (.scan { txn, handle, state := ⟨0, file.pages.pageCount, []⟩ })

namespace Start

theorem ends_startInsertion (txn : TxnId) (handle : HandleId) (tuple : Tuple) :
    (Insertion.start txn handle tuple).Ends s
      (fun i s' => s' = s ∧ ∃ file, s.file? handle = some file ∧
        i = { txn, handle, tuple, limit := file.pages.pageCount })
      fun _ s' => s' = s := by
  unfold Insertion.start
  rw [ends_bind]
  refine (ends_file handle).mono (fun file s' h' => ?_) fun _ _ h' => h'
  obtain ⟨rfl, hfile⟩ := h'
  split
  · exact ⟨rfl, file, hfile, rfl⟩
  · rfl

theorem ends_startDeletion (txn : TxnId) (handle : HandleId) (recordId : Option RecordId) :
    (Deletion.start txn handle recordId).Ends s
      (fun d s' => s' = s ∧ ∃ rid file, recordId = some rid ∧ s.file? handle = some file ∧ rid.page.table = file.id ∧
        d = { txn, handle, recordId := rid })
      fun _ s' => s' = s := by
  unfold Deletion.start
  cases recordId with
  | none => rfl
  | some rid =>
    dsimp only
    rw [ends_bind]
    refine (ends_file handle).mono (fun file s' h' => ?_) fun _ _ h' => h'
    obtain ⟨rfl, hfile⟩ := h'
    split
    · rfl
    · rename_i hin
      exact ⟨rfl, rid, file, rfl, hfile, not_not.1 (not_or.1 hin).1, rfl⟩

/-- A call that begins changes nothing. -/
theorem ends_call (start : Start) :
    start.call.Ends s (fun c s' => s' = s ∧ start.Begins s c) fun _ s' => s' = s := by
  cases start with
  | read txn page => exact ⟨rfl, .read txn page⟩
  | write txn page patch => exact ⟨rfl, .write txn page patch⟩
  | insert txn handle tuple =>
    unfold Start.call
    rw [ends_bind]
    refine (ends_startInsertion txn handle tuple).mono (fun i s' h' => ?_) fun _ _ h' => h'
    obtain ⟨rfl, file, hfile, rfl⟩ := h'
    exact ⟨rfl, .insert hfile⟩
  | insertById txn table tuple =>
    unfold Start.call Call.startInsert
    rw [ends_bind]
    refine (ends_resolve_same table).mono (fun handle s' h' => ?_) fun _ _ h' => h'
    subst h'
    rw [ends_bind]
    refine (ends_startInsertion txn handle tuple).mono (fun i s' h' => ?_) fun _ _ h' => h'
    obtain ⟨rfl, file, hfile, rfl⟩ := h'
    exact ⟨rfl, .insertById hfile⟩
  | delete txn handle recordId =>
    unfold Start.call
    rw [ends_bind]
    refine (ends_startDeletion txn handle recordId).mono (fun d s' h' => ?_) fun _ _ h' => h'
    obtain ⟨rfl, rid, file, rfl, hfile, hin, rfl⟩ := h'
    exact ⟨rfl, .delete hfile hin⟩
  | deleteById txn recordId =>
    unfold Start.call Call.startDelete
    cases recordId with
    | none => rfl
    | some rid =>
      dsimp only
      rw [ends_bind]
      refine (ends_resolve_same rid.page.table).mono (fun handle s' h' => ?_) fun _ _ h' => h'
      subst h'
      rw [ends_bind]
      refine (ends_startDeletion txn handle (some rid)).mono (fun d s' h' => ?_) fun _ _ h' => h'
      obtain ⟨rfl, rid, file, e, hfile, hin, rfl⟩ := h'
      cases e
      exact ⟨rfl, .deleteById hfile hin⟩
  | scan txn handle =>
    unfold Start.call Scan.start
    rw [ends_bind, ends_bind]
    refine (ends_file handle).mono (fun file s' h' => ?_) fun _ _ h' => h'
    obtain ⟨rfl, hfile⟩ := h'
    exact ⟨rfl, .scan hfile⟩

theorem Begins.proper {start : Start} {c : Call} (h : start.Begins s c) : c.Proper := by
  cases h with
  | write _ _ _ => rfl
  | _ => trivial

/-- A call works on a table that there is when it begins. -/
theorem Begins.file {start : Start} {c : Call} (h : start.Begins s c) {hd : HandleId} (hh : c.handle? = some hd) :
    ∃ file, s.file? hd = some file := by
  cases h with
  | read _ _ => cases hh
  | write _ _ _ => cases hh
  | insert hf => exact Option.some.inj hh ▸ ⟨_, hf⟩
  | insertById hf => exact Option.some.inj hh ▸ ⟨_, hf⟩
  | delete hf _ => exact Option.some.inj hh ▸ ⟨_, hf⟩
  | deleteById hf _ => exact Option.some.inj hh ▸ ⟨_, hf⟩
  | scan hf => exact Option.some.inj hh ▸ ⟨_, hf⟩

/-- A call that has just begun works on no page. -/
theorem Begins.uses_eq {start : Start} {c : Call} (h : start.Begins s c) : c.uses s₀ = [] := by
  cases h with
  | read _ _ => rfl
  | write _ _ _ => rfl
  | _ => exact usesAt_fresh _ _

end Start

/-! ### Worlds -/

namespace World

theorem uses_task {i : Nat} {task : Task} (hi : w.tasks[i]? = some task) :
    (w.uses s₀).Perm (task.uses s₀ ++ World.uses s₀ { w with tasks := w.tasks.eraseIdx i }) := by
  obtain ⟨hl, rfl⟩ := List.getElem?_eq_some_iff.1 hi
  have h := (List.getElem_cons_eraseIdx_perm hl).symm.flatMap_right (Task.uses s₀)
  rw [List.flatMap_cons] at h
  exact (h.append_left _).trans (List.perm_append_comm_assoc ..)

theorem uses_set_task {i : Nat} {task : Task} (hi : w.tasks[i]? = some task) (task' : Task) :
    (World.uses s₀ { w with tasks := w.tasks.set i task' }).Perm
      (task'.uses s₀ ++ World.uses s₀ { w with tasks := w.tasks.eraseIdx i }) := by
  obtain ⟨hl, -⟩ := List.getElem?_eq_some_iff.1 hi
  have h := (List.set_perm_cons_eraseIdx hl task').flatMap_right (Task.uses s₀)
  rw [List.flatMap_cons] at h
  exact (h.append_left _).trans (List.perm_append_comm_assoc ..)

theorem uses_guard {i : Nat} {g : Guard} (hi : w.guards[i]? = some g) :
    (w.uses s₀).Perm (g.use :: World.uses s₀ { w with guards := w.guards.eraseIdx i }) := by
  obtain ⟨hl, rfl⟩ := List.getElem?_eq_some_iff.1 hi
  exact ((List.getElem_cons_eraseIdx_perm hl).symm.map Guard.use).append_right _

theorem uses_set_guard {i : Nat} {g : Guard} (hi : w.guards[i]? = some g) (g' : Guard) :
    (World.uses s₀ { w with guards := w.guards.set i g' }).Perm
      (g'.use :: World.uses s₀ { w with guards := w.guards.eraseIdx i }) := by
  obtain ⟨hl, -⟩ := List.getElem?_eq_some_iff.1 hi
  exact ((List.set_perm_cons_eraseIdx hl g').map Guard.use).append_right _

theorem uses_addTask (task : Task) (w : World) :
    ((w.addTask task).uses s₀).Perm (task.uses s₀ ++ w.uses s₀) :=
  List.perm_append_comm_assoc ..

/-- A request has its page in use for its transaction once the page is pinned. -/
theorem use_of_request {r : Request} {u : Use} (hu : u ∈ r.uses) :
    u.holder = some (r.txn, r.mode) ∧ r.stage.isPinned = true := by
  unfold Request.uses at hu
  split at hu
  · exact (List.not_mem_nil hu).elim
  · exact (List.not_mem_nil hu).elim
  · rename_i hs
    rw [List.mem_singleton.1 hu, hs]
    exact ⟨rfl, rfl⟩
  · rename_i hs
    rw [List.mem_singleton.1 hu, hs]
    exact ⟨rfl, rfl⟩

/-- So has a call. -/
theorem use_of_call {c : Call} {u : Use} (hu : u ∈ c.uses s₀) :
    (∃ m, u.holder = some (c.txn, m)) ∧ c.asking.isPinned = true := by
  have hat : ∀ {v : TxnId} {target asking}, u ∈ usesAt v target asking →
      (∃ m, u.holder = some (v, m)) ∧ asking.isPinned = true := by
    intro v target asking hu
    unfold usesAt at hu
    split at hu
    · exact (List.not_mem_nil hu).elim
    · obtain ⟨hh, hs⟩ := use_of_request hu
      exact ⟨⟨_, hh⟩, hs⟩
  cases c with
  | read r => exact ⟨⟨_, (use_of_request hu).1⟩, (use_of_request hu).2⟩
  | write r _ => exact ⟨⟨_, (use_of_request hu).1⟩, (use_of_request hu).2⟩
  | insert i _ => exact hat hu
  | delete d _ => exact hat hu
  | scan c => exact hat hu

/-- Where a transaction has no page in use, no use is its own. -/
theorem away_of_uses? (s₀ : Store) {t : TxnId} (h : w.uses? t = false) : ∀ u ∈ w.uses s₀, ∀ m, u.holder ≠ some (t, m) := by
  unfold uses? at h
  rw [Bool.or_eq_false_iff, List.any_eq_false, List.any_eq_false] at h
  obtain ⟨hg, ht⟩ := h
  intro u hu m he
  rcases List.mem_append.1 hu with hu | hu
  · obtain ⟨g, hin, rfl⟩ := List.mem_map.1 hu
    cases he
    exact hg g hin (decide_eq_true rfl)
  · obtain ⟨task, hin, hu⟩ := List.mem_flatMap.1 hu
    refine ht task hin ?_
    cases task with
    | ask r =>
      obtain ⟨hh, hs⟩ := use_of_request hu
      rw [he] at hh
      cases hh
      exact Bool.and_eq_true_iff.2 ⟨decide_eq_true rfl, hs⟩
    | call c =>
      obtain ⟨⟨m', hh⟩, hs⟩ := use_of_call hu
      rw [he] at hh
      cases hh
      exact Bool.and_eq_true_iff.2 ⟨decide_eq_true rfl, hs⟩
    | flush fl =>
      obtain ⟨x, -, rfl⟩ := List.mem_map.1 hu
      cases he

/-- What an action comes to is what comes of the world. -/
theorem of_perform {α : Type} {x : Action α} {onOk : α → World → World} {P : World → Prop}
    (hx : x.Ends w.store (fun a s => P (onOk a { w with store := s })) fun _ s => P { w with store := s }) :
    P (w.perform x onOk) := by
  unfold perform
  unfold Ends at hx
  split
  · rename_i hr
    rw [hr] at hx
    exact hx
  · rename_i hr
    rw [hr] at hx
    exact hx

namespace Kept

/-- The store changed, and nothing else. -/
theorem withStore (h : w.Kept s₀ known I) {s : Store} (hs : I (w.uses s₀) s) :
    World.Kept s₀ known I { w with store := s } :=
  ⟨hs, h.guards, h.tasks, h.handles⟩

variable (c : Stewardship k s₀ may marks I asks heeds)

include c

theorem addTask (h : w.Kept s₀ known I) (task : Task) {s : Store} (hp : task.Proper)
    (hd : ∀ hd, task.handle? = some hd → known hd) (hs : I (task.uses s₀ ++ w.uses s₀) s) :
    (World.addTask task { w with store := s }).Kept s₀ known I := by
  refine ⟨c.perm hs (uses_addTask task _).symm, h.guards, fun task' ht => ?_, fun task' ht => ?_⟩
  · rcases List.mem_cons.1 ht with rfl | ht
    · exact hp
    · exact h.tasks task' ht
  · rcases List.mem_cons.1 ht with rfl | ht
    · exact hd
    · exact h.handles task' ht

theorem advance (h : w.Kept s₀ known I) (i : Nat)
    (hk : ∀ task, w.tasks[i]? = some task → task.Grips k s₀ may w.store)
    (ha : ∀ task, w.tasks[i]? = some task → task.Heeds asks heeds w.store) :
    (w.advance i).Kept s₀ known I := by
  unfold World.advance
  cases hi : w.tasks[i]? with
  | none => exact h
  | some task =>
    have hin := List.mem_of_getElem? hi
    have hstep := c.task (hk task hi) (c.perm h.store (uses_task hi)) (h.tasks task hin) (ha task hi)
    -- the other tasks stay, and this one is gone or goes on with its table
    have herase : ∀ P : Task → Prop, (∀ t ∈ w.tasks, P t) → ∀ t ∈ w.tasks.eraseIdx i, P t := fun _ hP t ht =>
      hP t (List.mem_of_mem_eraseIdx ht)
    have hset : ∀ (P : Task → Prop) (task' : Task), (∀ t ∈ w.tasks, P t) → P task' → ∀ t ∈ w.tasks.set i task', P t := by
      intro P task' hP hp t ht
      rcases List.mem_or_eq_of_mem_set ht with ht | rfl
      · exact hP t ht
      · exact hp
    have hknown : ∀ task' : Task, task'.handle? = task.handle? → ∀ hd, task'.handle? = some hd → known hd :=
      fun task' he hd hh => h.handles task hin hd (he ▸ hh)
    unfold Ends at hstep
    dsimp only
    cases hr : task.step w.store with
    | error e s =>
      rw [hr] at hstep
      exact ⟨hstep, h.guards, herase _ h.tasks, herase _ h.handles⟩
    | ok p s =>
      rw [hr] at hstep
      cases p with
      | finished guard =>
        obtain ⟨hguard, hs⟩ := hstep
        refine ⟨?_, fun g hg hc => ?_, herase _ h.tasks, herase _ h.handles⟩
        · unfold World.uses
          rw [List.map_append, List.append_assoc]
          exact hs
        · rcases List.mem_append.1 hg with hg | hg
          · rw [hguard g (Option.mem_toList.1 hg)] at hc
            cases hc
          · exact h.guards g hg hc
      | moved task' =>
        obtain ⟨he, hp, hs⟩ := hstep
        exact ⟨c.perm hs (uses_set_task hi task').symm, h.guards, hset _ task' h.tasks hp,
          hset _ task' h.handles (hknown task' he)⟩
      | blocked task' =>
        obtain ⟨he, hp, hs⟩ := hstep
        exact ⟨c.perm hs (uses_set_task hi task').symm, h.guards, hset _ task' h.tasks hp,
          hset _ task' h.handles (hknown task' he)⟩

/-- Whatever happens, `I` is kept, as long as nothing is written past the cache. -/
theorem apply (h : w.Kept s₀ known I) {op : Op} (hop : op.Cached) (hk : op.Grips k s₀ may w)
    (hknown : ∀ hd file, s₀.file? hd = some file → known hd)
    (ha : op.Heeds asks heeds w := by exact Op.heeds_any _ _) : (w.apply op).Kept s₀ known I := by
  have hflush : ∀ only pages,
      (w.perform (Flush.start only pages) fun flush => World.addTask (.flush flush)).Kept s₀ known I :=
    fun only pages => of_perform ((c.startFlush only pages h.store).mono
      (fun fl s hs => h.addTask c (.flush fl) (fun x hx => hs.1 ▸ hx) nofun hs.2) fun _ _ hs => hs.elim)
  cases op with
  | ask t page mode => exact h.addTask c (.ask { txn := t, page, mode }) trivial nofun h.store
  | begin start =>
    refine of_perform (start.ends_call.mono (fun q s hs => ?_) fun _ s hs => h.withStore (hs ▸ h.store))
    obtain ⟨rfl, hq⟩ := hs
    refine h.addTask c (.call q) hq.proper (fun hd hh => ?_) ?_
    · obtain ⟨file, hfile⟩ := hq.file hh
      obtain ⟨file₀, hfile₀, -⟩ := (c.grown h.store).file_back hfile
      exact hknown hd file₀ hfile₀
    · show I (q.uses s₀ ++ w.uses s₀) _
      rw [hq.uses_eq]
      exact h.store
  | flushPage page => exact hflush none [page]
  | flushAll => exact hflush none _
  | flushTxn t => exact hflush (some t) _
  | advance i => exact h.advance c i hk ha
  | look i =>
    simp only [World.apply]
    cases hi : w.guards[i]? with
    | none => exact h
    | some g =>
      have hin : g.use ∈ w.uses s₀ :=
        List.mem_append_left _ (List.mem_map_of_mem (List.mem_of_getElem? hi))
      exact of_perform (P := World.Kept s₀ known I) (x := g.look) (h.withStore (c.look hin h.store))
  | patch i off data =>
    simp only [World.apply]
    cases hi : w.guards[i]? with
    | none => exact h
    | some g =>
      have hwrite := c.write (c.perm h.store (uses_guard hi)) (hk g hi) (h.guards g (List.mem_of_getElem? hi)) off data
      refine of_perform (hwrite.mono (fun g' s hs => ?_) fun _ _ hs => hs.elim)
      refine ⟨c.perm hs.2 (uses_set_guard hi g').symm, fun g'' hg hc => ?_, h.tasks, h.handles⟩
      rcases List.mem_or_eq_of_mem_set hg with hg | rfl
      · exact h.guards g'' hg hc
      · exact hs.1 hc
  | drop i =>
    simp only [World.apply]
    cases hi : w.guards[i]? with
    | none => exact h
    | some g =>
      have hrelease := c.release (c.perm h.store (uses_guard hi)) (hk g hi) (h.guards g (List.mem_of_getElem? hi))
      exact of_perform (P := World.Kept s₀ known I) (x := g.release)
        ⟨hrelease.1, fun g' hg => h.guards g' (List.mem_of_mem_eraseIdx hg), h.tasks, h.handles⟩
  | complete t wantsCommit =>
    simp only [World.apply]
    split
    · exact h
    · rename_i hu
      have haway := away_of_uses? s₀ (Bool.eq_false_iff.2 hu)
      refine of_perform (P := World.Kept s₀ known I) ?_
      exact (c.complete wantsCommit ha hk h.store haway).mono (fun _ s hs => h.withStore hs) fun _ s hs => h.withStore hs
  | allocate hd =>
    simp only [World.apply]
    refine of_perform (P := World.Kept s₀ known I) ?_
    exact (c.allocatePage hd h.store).mono (fun _ s hs => h.withStore hs) fun _ s hs => h.withStore hs
  | iterate cursor =>
    simp only [World.apply]
    refine of_perform (P := World.Kept s₀ known I) ?_
    exact (c.hasNext hk h.store cursor ha).mono (fun _ s hs => h.withStore hs) fun _ s hs => h.withStore hs
  | rewrite hd page bytes => exact hop.elim

end Kept

end World

/-! ## The invariant -/

theorem Opening.stands {s : Store} (o : Opening s) : Stands s [] s := by
  obtain ⟨⟨config, hpool⟩, hfiles, htrace⟩ := o
  have hcopies : ∀ page, s.copies page = ⟨none, none, s.onFile page⟩ := by
    intro page
    unfold Store.copies
    rw [hpool]
    simp [Pool.ofConfig, Pool.find?]
  have hnone : ∀ {α : Type} {P : α → Prop} (a : α), none = some a → P a := fun a e =>
    absurd e.symm (Option.some_ne_none a)
  refine ⟨hpool ▸ Pool.Sound.ofConfig config, ?_, ⟨hfiles, Volume.Extends.refl _, rfl, rfl⟩,
    fun u hu => (List.not_mem_nil hu).elim, fun t page ht => ?_, fun t page hu => ?_, fun page => ?_, fun page => ?_,
    ?_, fun hl => ?_⟩
  · rw [hpool]
    exact LockTable.sound_empty
  · rw [htrace] at ht
    exact ht.elim
  · rw [htrace] at hu
    exact hu.elim
  · rw [hcopies]
    exact ⟨hnone, hnone⟩
  · rw [hcopies, htrace]
    exact {
      opener := rfl
      image := hnone
      locked := hnone
      own := fun t ht => absurd rfl ht
      working := fun t ht => (List.not_mem_nil ht.choose_spec.1).elim
      apart := hnone
      content := hnone
      dirty := fun c _ hc => absurd hc.symm (Option.some_ne_none c)
      settled := fun _ _ => hnone
      clean := fun _ => rfl
      unstolen := hnone }
  · rw [htrace]
    trivial
  · rw [htrace]
    exact hl

/-- The invariant of a world: that of its store for all uses, with well-formed guards and tasks. -/
structure World.Stands (s₀ : Store) (w : World) : Prop where
  store : TupleStore.Stands s₀ (w.uses s₀) w.store
  guards : ∀ g ∈ w.guards, g.changed = true → g.mode = .write
  tasks : ∀ task ∈ w.tasks, task.Proper

namespace Stands

theorem stewardship (s₀ : Store) :
    Stewardship .any s₀ (fun _ _ => True) (fun t page s => (account s₀.onFile s.trace page).opener = some t)
      (Stands s₀) where
  toCustody := custody s₀
  startFlush only pages h := h.startFlush only pages
  flush _ _ h hr := (h.flush hr).mono (fun p _ h' => by
    cases p with
    | finished _ => exact h'
    | moved fl' => exact h'.2
    | blocked fl' =>
      obtain ⟨rfl, h'⟩ := h'
      exact ⟨hr, h'⟩) fun _ _ h' => h'.elim
  complete wantsCommit _ _ h haway := (h.complete haway wantsCommit).mono (fun _ _ h' => h'.1) fun _ _ h' => h'.1

end Stands

namespace World

theorem Stands.toKept (h : w.Stands s₀) : w.Kept s₀ (fun _ => True) (TupleStore.Stands s₀) :=
  ⟨h.store, h.guards, h.tasks, fun _ _ _ _ => trivial⟩

theorem Kept.toStands (h : w.Kept s₀ known (TupleStore.Stands s₀)) : w.Stands s₀ := ⟨h.store, h.guards, h.tasks⟩

/-- Whatever happens, the invariant is kept. -/
theorem Stands.apply (h : w.Stands s₀) (op : Op) : (w.apply op).Stands s₀ := by
  by_cases hop : op.Cached
  · exact (h.toKept.apply (TupleStore.Stands.stewardship s₀) hop (op.grips_any s₀ w) fun _ _ _ => trivial).toStands
  · cases op with
    | rewrite hd page bytes =>
      simp only [World.apply]
      refine of_perform (P := World.Stands s₀) ?_
      exact (h.store.writeRaw hd page bytes).mono (fun _ s hs => (h.toKept.withStore hs).toStands)
        fun _ s hs => (h.toKept.withStore hs).toStands
    | _ => exact absurd trivial hop

/-- The invariant holds after every run. -/
theorem stands_run {s₀ : Store} (o : Opening s₀) (ops : List Op) : (World.run ops { store := s₀ }).Stands s₀ := by
  have hrun : ∀ (ops : List Op) (w : World), w.Stands s₀ → (World.run ops w).Stands s₀ := by
    intro ops
    induction ops with
    | nil => exact fun _ h => h
    | cons op ops ih => exact fun w h => ih _ (h.apply op)
  exact hrun ops _ ⟨o.stands, fun _ hg => (List.not_mem_nil hg).elim, fun _ ht => (List.not_mem_nil ht).elim⟩

end World

/-! ## A narrow store -/

/-- A page of the table in the file `t`. -/
def PageId.ofT (number : Nat) : PageId := ⟨Volume.tableId "t", number⟩

/-- A store with one frame, just opened on a file of two pages. -/
def Store.narrow : Store :=
  .ofFile { pageSize := 8, poolPages := 1 } (.memory {}) ⟨[]⟩ "t" [0, 1, 2, 3, 4, 5, 6, 7, 8, 9, 10, 11, 12, 13, 14, 15]

/-- A transaction changes a page, which goes to its file when another transaction reads the other page. Then they
end. -/
def Op.stealing (commits : Bool) : List Op :=
  [.ask ⟨1⟩ (.ofT 0) .write, .advance 0, .advance 0, .advance 0, .patch 0 0 [99], .drop 0,
    .ask ⟨2⟩ (.ofT 1) .read, .advance 0, .advance 0, .advance 0, .drop 0,
    .complete ⟨1⟩ commits, .complete ⟨2⟩ true]

theorem Opening.narrow : Opening .narrow := Opening.ofFile (by decide) ..

theorem cached_stealing (commits : Bool) : ∀ op ∈ Op.stealing commits, op.Cached := by
  simp [Op.stealing, Op.Cached]

end TupleStore
