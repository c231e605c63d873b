import TupleStore.Proofs.File.Tables

/-!
# Tables that come and go

Tables come into the catalog and leave it at any moment, and several handles can stand on one file. Still the catalog
has a table under the id of its handle, and a handle has the id that goes with the name of its file
(`Volume.Lists`). So no file is that of two tables in the catalog (`Lists.sole`), whichever handles they have.

* `Lists.grow`, `Lists.create`, `Lists.openFile` : pages, files and handles that are added;
* `Lists.add`, `Lists.empty` : tables that are registered, and all tables taken out.
-/

namespace TupleStore

set_option autoImplicit false

/-- A table that is found after another was registered is that one, or was there before. -/
theorem Catalog.of_handle_add {c : Catalog} {id id' : TableId} {name : String} {h h' : HandleId}
    (hh : (c.add id name h).handle id' = .ok h') : id' = id ∧ h' = h ∨ c.handle id' = .ok h' := by
  have herase : ∀ {m : Std.TreeMap TableId CatalogEntry} {k : TableId} {entry : CatalogEntry},
      (m.erase k)[id']? = some entry → m[id']? = some entry := fun {m k entry} he => by
    rw [Std.TreeMap.getElem?_erase] at he
    split at he
    · cases he
    · exact he
  have hname : ∀ {entry : CatalogEntry}, (c.removeName name).byId[id']? = some entry → c.byId[id']? = some entry := by
    unfold removeName
    split
    · exact fun he => he
    · exact herase
  have hid : ∀ {c : Catalog} {entry : CatalogEntry}, (c.removeId id).byId[id']? = some entry →
      c.byId[id']? = some entry := fun {c entry} => by
    unfold removeId
    split
    · exact fun he => he
    · exact herase
  unfold handle add at hh
  simp only [Std.TreeMap.getElem?_insert, Std.compare_eq_iff_eq] at hh
  split at hh
  · cases hh
  · rename_i entry he
    split at he
    · rename_i e
      cases he
      cases hh
      exact Or.inl ⟨e.symm, rfl⟩
    · refine Or.inr ?_
      unfold handle
      rw [hname (hid he)]
      exact hh

namespace Volume

/-- Every table of the catalog has a handle of its id, and handles have the ids of their files. -/
structure Lists (v : Volume) (c : Catalog) : Prop where
  file : ∀ (id : TableId) (h : HandleId), c.handle id = .ok h → ∃ f : HeapFile, v.handles[h]? = some f ∧ f.id = id
  named : ∀ (h : HandleId) (f : HeapFile), v.handles[h]? = some f → f.id = tableId f.name

variable {v v' : Volume} {c : Catalog} {h : HandleId} {f : HeapFile}

theorem table?_eq_some_iff {id : TableId} :
    v.table? c id = some (h, f) ↔ c.handle id = .ok h ∧ v.handles[h]? = some f := by
  unfold table?
  cases hc : c.handle id with
  | error e => exact ⟨nofun, fun hh => nomatch hh.1⟩
  | ok h' =>
    dsimp only
    rw [Option.map_eq_some_iff]
    constructor
    · rintro ⟨f', hf', he⟩
      cases he
      exact ⟨rfl, hf'⟩
    · rintro ⟨he, hf⟩
      cases he
      exact ⟨f, hf, rfl⟩

namespace Lists

/-- The handle of a table has its id. -/
theorem id_eq (r : v.Lists c) {id : TableId} (ht : v.table? c id = some (h, f)) : f.id = id := by
  obtain ⟨hc, hf⟩ := table?_eq_some_iff.1 ht
  obtain ⟨f', hf', hid⟩ := r.file id h hc
  cases hf.symm.trans hf'
  exact hid

/-- A table that is not in the catalog is found by no id. -/
theorem handle_of_table?_eq_none (r : v.Lists c) {id : TableId} (ht : v.table? c id = none) :
    c.handle id = .error (.noSuchTable id) := by
  cases hc : c.handle id with
  | ok h =>
    obtain ⟨f, hf, -⟩ := r.file id h hc
    exact nomatch (table?_eq_some_iff.2 ⟨hc, hf⟩).symm.trans ht
  | error e =>
    unfold Catalog.handle at hc
    split at hc
    · exact hc.symm
    · cases hc

theorem sole (r : v.Lists c) {id : TableId} (ht : v.table? c id = some (h, f)) : v.Sole c h f := by
  have hid := r.id_eq ht
  obtain ⟨hc, hf⟩ := table?_eq_some_iff.1 ht
  refine ⟨hf, hid ▸ hc, fun id' h' f' hc' hf' hn => ?_⟩
  rw [← r.id_eq (table?_eq_some_iff.2 ⟨hc', hf'⟩), r.named h' f' hf', r.named h f hf, hn]

/-! ### Files and handles added -/

theorem grow (r : v.Lists c) (e : v.Extends v') : v'.Lists c where
  file id h hc := by
    obtain ⟨f, hf, hid⟩ := r.file id h hc
    obtain ⟨f', hf', hshape, -⟩ := e.file hf
    exact ⟨f', hf', (congrArg Prod.fst hshape).trans hid⟩
  named h f' hf' := by
    obtain ⟨f, hf, hshape⟩ := e.file_back hf'
    simp only [shape, Prod.mk.injEq] at hshape
    rw [hshape.1, hshape.2.1]
    exact r.named h f hf

theorem addHandle (r : v.Lists c) (hid : f.id = tableId f.name) : (v.addHandle f).2.Lists c where
  file id h hc := by
    obtain ⟨g, hg, hid⟩ := r.file id h hc
    exact ⟨g, (List.getElem?_append_left (List.getElem?_eq_some_iff.1 hg).1).trans hg, hid⟩
  named h g hg := by
    rcases List.mem_append.1 (List.mem_of_getElem? hg) with hin | hin
    · obtain ⟨i, hi⟩ := List.mem_iff_getElem?.1 hin
      exact r.named i g hi
    · rw [List.mem_singleton.1 hin]
      exact hid

theorem refolder (r : v.Lists c) (folder : Folder) : Lists { v with folder } c := ⟨r.file, r.named⟩

theorem create (r : v.Lists c) {path : String} {schema : Schema} {pageSize : Nat}
    (hv : v.create path schema pageSize = .ok (h, v')) : v'.Lists c := by
  unfold Volume.create at hv
  split at hv
  · cases hv
  · split at hv
    · cases hv
    · cases hv
      exact (r.refolder _).addHandle rfl

theorem openFile (r : v.Lists c) {path : String} {schema : Schema} {pageSize : Nat}
    (hv : v.openFile path schema pageSize = .ok (h, v')) : v'.Lists c := by
  unfold Volume.openFile at hv
  split at hv
  · cases hv
  · split at hv
    · cases hv
    · cases hv
      exact r.addHandle rfl

/-! ### Tables registered -/

theorem add (r : v.Lists c) (hf : v.handles[h]? = some f) (name : String) : v.Lists (c.add f.id name h) where
  file id h' hc := by
    rcases Catalog.of_handle_add hc with ⟨rfl, rfl⟩ | hc
    · exact ⟨f, hf, rfl⟩
    · exact r.file id h' hc
  named := r.named

/-- No table is listed to begin with. -/
theorem of_named (hn : ∀ (h : HandleId) (f : HeapFile), v.handles[h]? = some f → f.id = tableId f.name) :
    v.Lists .empty where
  file id h hc := by
    unfold Catalog.handle at hc
    rw [show Catalog.empty.byId[id]? = none from Std.TreeMap.getElem?_emptyc] at hc
    cases hc
  named := hn

theorem empty (r : v.Lists c) : v.Lists .empty := of_named r.named

end Lists

end Volume

end TupleStore
