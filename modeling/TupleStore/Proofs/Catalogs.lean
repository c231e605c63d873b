import TupleStore.Proofs.Events
import TupleStore.Proofs.File.Listing
import TupleStore.Proofs.Pool.Sizes

/-!
# Tables that the cache can use

Whatever happens to a store, its catalog lists the tables and all its pages have one length (`World.tidy_handleAll`).
So when the cache writes a page, the catalog alone tells what can go wrong: the table is not there, or it has come
back with pages of another size.

* `Store.fault?` : what stands against the use of a table, which is all that can stand against it (`Tidy.resolve`);
* `Tidy.writeBack` : a frame written to its file, or the fault of its table, and nothing done;
* `Store.obstacle?` : the same, told of a page and what is in the cache of it.
-/

namespace TupleStore

set_option autoImplicit false

open TupleStore.Action

/-! ## Tidy stores -/

/-- All that the pool has of pages is as long as they are, and the catalog lists the tables. -/
structure Store.Tidy (s : Store) : Prop where
  pool : s.pool.Sized s.pool.config.pageSize
  tables : s.volume.Lists s.catalog

/-- The one table of a store that has just been opened on a file. -/
theorem Store.lists_ofFile (config : Config) (log : Log) (schema : Schema) (name : String) (content : Bytes) :
    (ofFile config log schema name content).volume.Lists (ofFile config log schema name content).catalog := by
  have hnone : (ofFile config log schema name content).volume.Lists .empty := .of_named fun h f hf => by
    rw [List.mem_singleton.1 (List.mem_of_getElem? hf)]
  exact hnone.add (h := (0 : Nat)) (f := ⟨Volume.tableId name, name, schema, _⟩) rfl name

variable {s₀ s s' : Store} {w : World} {f : FrameId} {page : PageId} {t : TxnId}

namespace Store.Tidy

theorem sized (h : s.Tidy) : s.Sized s := ⟨h.pool, .refl _, rfl⟩

/-- What keeps the lengths and lets the tables grow keeps a store tidy. -/
theorem of_sized (h : s₀.Tidy) (hs : s₀.Sized s) : s.Tidy :=
  ⟨hs.pool.config.symm ▸ hs.pool, hs.catalog ▸ h.tables.grow hs.grown⟩

theorem ofConfig (hs : s.volume.Lists s.catalog) (config : Config) : Tidy { s with pool := .ofConfig config } :=
  ⟨Pool.Sized.ofConfig config, hs⟩

/-- An action that keeps the lengths. -/
theorem perform (h : w.store.Tidy) {α : Type} {x : Action α} (hx : Keeps w.store.Sized x) :
    (w.perform x fun _ w => w).store.Tidy :=
  World.of_perform (P := fun w => w.store.Tidy)
    ((hx _ h.sized).mono (fun _ _ hs => h.of_sized hs) fun _ _ hs => h.of_sized hs)

/-- More files, and the pool as it is. -/
theorem addFile (h : w.store.Tidy) {r : Except Error (HandleId × Volume)}
    (hr : ∀ hd v, r = .ok (hd, v) → v.Lists w.store.catalog) :
    (w.perform (do
      let (h, volume) ← Action.ofExcept r
      modify fun s => { s with volume }
      pure h : Action HandleId) fun _ w => w).store.Tidy := by
  refine World.of_perform (P := fun w => w.store.Tidy) ?_
  rw [ends_bind]
  cases r with
  | error e => exact h
  | ok a => exact ⟨h.pool, hr a.1 a.2 rfl⟩

end Store.Tidy

namespace World

theorem tidy_apply (hb : w.Balanced) (h : w.store.Tidy) (op : Op) : (w.apply op).store.Tidy := by
  by_cases hop : op.Cached
  · have hkept : World.Kept w.store (fun hd => w.store.file? hd ≠ none) (fun _ s => w.store.Sized s) w :=
      ⟨h.sized, hb.guards, hb.tasks, hb.handles⟩
    exact h.of_sized (Kept.apply (stewardship_sized w.store) hkept hop (op.grips_any w.store w)
      fun hd file hf => hf ▸ Option.some_ne_none file).store
  · cases op with
    | rewrite hd page bytes => exact h.perform (keeps_writeRaw .sized hd page bytes)
    | _ => exact absurd trivial hop

/-- Whatever happens, the store stays tidy. -/
theorem tidy_handle (hb : w.Balanced) (h : w.store.Tidy) (e : Event) : (w.handle e).store.Tidy := by
  cases e with
  | op op => exact tidy_apply hb h op
  | complete t wantsCommit => exact h.perform (sized_complete t wantsCommit)
  | discard page => exact h.perform (sized_modifyPool fun _ hp => hp.discard page)
  | releaseLock t page =>
    refine h.perform (.bind_get fun s hs => ?_)
    cases s.pool.locks.release t page with
    | mk released locks => cases released <;> exact hs.withPool (hs.pool.congr rfl rfl rfl)
  | create path schema pageSize => exact h.addFile fun _ _ hr => h.tables.create hr
  | openFile path schema pageSize => exact h.addFile fun _ _ hr => h.tables.openFile hr
  | register hd name =>
    refine of_perform (P := fun w => w.store.Tidy) ?_
    unfold Action.register
    rw [ends_bind]
    refine (ends_file hd).mono (fun file s hs => ?_) fun _ s hs => hs ▸ h
    obtain ⟨rfl, hfile⟩ := hs
    exact ⟨h.pool, h.tables.add hfile name⟩
  | unregisterAll => exact ⟨h.pool, h.tables.empty⟩

/-- Whatever happens, frames stay accounted for, and the store stays tidy. -/
theorem tidy_handleAll (events : List Event) (hb : w.Balanced) (h : w.store.Tidy) :
    (handleAll events w).Balanced ∧ (handleAll events w).store.Tidy := by
  induction events generalizing w with
  | nil => exact ⟨hb, h⟩
  | cons e events ih => exact ih (hb.handle e) (tidy_handle hb h e)

/-- So it is from the moment that the cache is empty. -/
theorem tidy_of_fresh {config : Config} (hp : s.pool = .ofConfig config) (hs : s.volume.Lists s.catalog)
    (events : List Event) :
    (handleAll events { store := s }).Balanced ∧ (handleAll events { store := s }).store.Tidy := by
  obtain ⟨volume, catalog, log, pool, trace⟩ := s
  obtain rfl : pool = .ofConfig config := hp
  exact tidy_handleAll events (Balanced.ofConfig ⟨volume, catalog, log, .ofConfig config, trace⟩ config)
    (Store.Tidy.ofConfig (s := ⟨volume, catalog, log, .ofConfig config, trace⟩) hs config)

end World

/-! ## Faults -/

/-- The length of the pages of a table. -/
def Volume.pageSize? (v : Volume) (c : Catalog) (id : TableId) : Option Nat :=
  (v.table? c id).map fun x => x.2.pages.pageSize

/-- Tables that grow keep the length of their pages. -/
theorem Volume.Extends.pageSize?_eq {v v' : Volume} (e : v.Extends v') (c : Catalog) (id : TableId) :
    v'.pageSize? c id = v.pageSize? c id := by
  unfold pageSize? table?
  cases c.handle id with
  | error _ => rfl
  | ok h =>
    have hshape := congrArg (Option.map fun x => x.2.2.2) (e h).1
    rw [Option.map_map, Option.map_map] at hshape
    dsimp only
    rw [Option.map_map, Option.map_map]
    exact hshape

/-- What stands against the use of a table by the cache, if anything does. -/
def Store.fault? (s : Store) (table : TableId) : Option Error :=
  match s.volume.pageSize? s.catalog table with
  | none => some (.noSuchTable table)
  | some size =>
    if size = s.pool.config.pageSize then none else some (.pageSizeMismatch s.pool.config.pageSize size)

/-- Tables that grow are as fit for use as before. -/
theorem Store.fault?_congr (he : s.volume.Extends s'.volume) (hc : s'.catalog = s.catalog)
    (hp : s'.pool.config.pageSize = s.pool.config.pageSize) : s'.fault? = s.fault? := by
  funext table
  unfold fault?
  rw [hc, hp, he.pageSize?_eq]

/-- A table is resolved to its handle, unless there is a fault. -/
theorem Store.Tidy.resolve (h : s.Tidy) (table : TableId) : (resolve table).Ends s
    (fun hd s' => s' = s ∧ s.fault? table = none ∧
      ∃ file, s.volume.table? s.catalog table = some (hd, file) ∧ file.pages.pageSize = s.pool.config.pageSize)
    fun e s' => s' = s ∧ s.fault? table = some e := by
  unfold Action.resolve Store.fault? Volume.pageSize?
  rw [ends_bind, ends_get, ends_bind]
  cases ht : s.volume.table? s.catalog table with
  | none =>
    rw [h.tables.handle_of_table?_eq_none ht]
    exact ⟨rfl, rfl⟩
  | some x =>
    obtain ⟨hd, file⟩ := x
    obtain ⟨hc, hf⟩ := Volume.table?_eq_some_iff.1 ht
    rw [hc, ends_ofExcept_ok, ends_bind, ends_of_ok (file_of_some (s := s) hf)]
    split
    · rename_i hsize
      exact ⟨rfl, if_pos hsize, file, rfl, hsize⟩
    · rename_i hsize
      exact ⟨rfl, if_neg hsize⟩

/-- The files of tables that the cache cannot use are as in a first store. -/
def Store.Spares (s s' : Store) : Prop :=
  ∀ (h : HandleId) (f : HeapFile), s.volume.handles[h]? = some f → s.fault? f.id ≠ none →
    s'.volume.folder.content f.name = s.volume.folder.content f.name

/-- A page as long as it is to be is written through the handle of its table. -/
theorem Store.Tidy.writePage_eq (h : s.Tidy) {hd : HandleId} {file : HeapFile}
    (ht : s.volume.table? s.catalog page.table = some (hd, file)) (hfault : s.fault? page.table = none) {bytes : Bytes}
    (hl : bytes.length = file.pages.pageSize) :
    ∃ v, writePage hd page bytes s = .ok () { s with volume := v, trace := .wrote page bytes :: s.trace } ∧
      s.volume.Extends v ∧ s.Spares { s with volume := v } ∧
      ∀ q, v.pageBytes s.catalog q = if q = page then bytes else s.onFile q := by
  have hsole := h.tables.sole ht
  have hid := h.tables.id_eq ht
  obtain ⟨v, hw, hgrown, hpages⟩ := hsole.writePage hid.symm hl
  have hvolume : ofExcept (s.volume.writePage hd file page bytes) s = .ok v s := by
    rw [hw]
    rfl
  have hput : putPage hd page bytes s = .ok () { s with volume := v } := by
    unfold putPage
    rw [bind_of_ok (file_of_some (s := s) hsole.file), bind_of_ok (run_get s), bind_of_ok hvolume]
    rfl
  refine ⟨v, ?_, hgrown, fun h' f hf hstop => Volume.content_of_writePage hw fun hname => hstop ?_, hpages⟩
  · unfold writePage
    rw [bind_of_ok hput]
    rfl
  · rw [h.tables.named h' f hf, hname, ← h.tables.named hd file hsole.file, hid]
    exact hfault

/-- A frame is written to its file if it is dirty. A fault of its table stands against it, and nothing is done then. -/
theorem Store.Tidy.writeBack (h : s.Tidy) (hf : (s.pool.frame f).page = some page) : (writeBack f page).Ends s
    (fun _ s' => (s.pool.frame f).dirtyBy = none ∧ s' = s ∨
      (s.pool.frame f).dirtyBy ≠ none ∧ s.fault? page.table = none ∧ Wrote s f page s' ∧ s.Spares s' ∧
        ∀ q, s'.onFile q = if q = page then (s.pool.frame f).bytes else s.onFile q)
    fun e s' => s' = s ∧ (s.pool.frame f).dirtyBy ≠ none ∧ s.fault? page.table = some e := by
  unfold Action.writeBack
  rw [ends_bind, ends_get]
  cases hd : (s.pool.frame f).dirtyBy with
  | none =>
    rw [if_neg fun hh => by rw [hd] at hh; cases hh.2]
    exact Or.inl ⟨rfl, rfl⟩
  | some u =>
    rw [if_pos ⟨hf, by rw [hd]; rfl⟩, ends_bind]
    refine (h.resolve page.table).mono (fun hd s₁ h₁ => ?_) fun e s₁ h₁ => ⟨h₁.1, Option.some_ne_none u, h₁.2⟩
    obtain ⟨rfl, hfault, file, ht, hsize⟩ := h₁
    have hl : (s₁.pool.frame f).bytes.length = file.pages.pageSize := (h.pool.bytes hf).trans hsize.symm
    let counters := { s₁.pool.counters with pagesWritten := s₁.pool.counters.pagesWritten + 1 }
    split
    · rename_i hb
      obtain ⟨v, hw, hgrown, hspares, hpages⟩ := h.writePage_eq ht hfault hl
      rw [ends_bind, ends_of_ok hw, ends_modifyPool]
      refine Or.inr ⟨Option.some_ne_none u, hfault, ⟨v, s₁.log, counters, hgrown, ?_⟩, hspares, hpages⟩
      rw [Frame.logs, hb]
      rfl
    · rename_i b hb
      let record := LogRecord.update b.owner page b.bytes (s₁.pool.frame f).bytes
      obtain ⟨v, hw, hgrown, hspares, hpages⟩ := writePage_eq (s := { s₁ with
        log := (s₁.log.append record).force, trace := .forced :: .logged record :: s₁.trace }) ⟨h.pool, h.tables⟩ ht hfault hl
      rw [ends_bind, ends_append, ends_bind, ends_force, ends_bind, ends_of_ok hw, ends_modifyPool]
      refine Or.inr ⟨Option.some_ne_none u, hfault, ⟨v, (s₁.log.append record).force, counters, hgrown, ?_⟩, hspares,
        hpages⟩
      rw [Frame.logs, hb]
      rfl

/-! ### Pages in the cache -/

/-- What stands against writing what the cache has of a page to its file. -/
def Store.obstacle? (s : Store) (page : PageId) : Option Error :=
  if s.pool.isDirty page then s.fault? page.table else none

/-- It shows in the copies of the page. -/
theorem Store.obstacle?_eq (s : Store) (page : PageId) :
    s.obstacle? page = if ((s.copies page).cached.bind Copy.dirtyBy).isSome then s.fault? page.table else none := by
  unfold obstacle? Pool.isDirty copies
  cases s.pool.find? page <;> rfl

theorem Store.obstacle?_of_cached (hm : s.pool.Maps) (hf : (s.pool.frame f).page = some page) :
    s.obstacle? page = if (s.pool.frame f).dirtyBy.isSome then s.fault? page.table else none := by
  rw [obstacle?_eq, cached_eq hm hf]
  rfl

end TupleStore
