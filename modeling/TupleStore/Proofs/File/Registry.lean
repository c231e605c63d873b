import TupleStore.Catalog
import TupleStore.File.Volume

/-!
# Names and ids of tables

A catalog has two maps, one by id and one by name, and a table that is registered can stand in the place of two others:
of the one with its name, and of the one with its id. The maps agree all the same.

* `Registers` : a name and an id are registered, with a handle;
* `Matched` : the names of ids are the ids of names. It is kept where an entry is taken out of both maps
  (`Matched.erase`), so it is kept by `removeName`, `removeId` and `add`;
* `registers_add` : what is registered once a table was added, by what was before;
* `run_registry` : what a catalog promises after any changes.
-/

namespace TupleStore.Catalog

set_option autoImplicit false

/-- A name and an id are registered as those of one table, with its handle. -/
def Registers (c : Catalog) (name : String) (id : TableId) (h : HandleId) : Prop :=
  c.tableId? name = some id ∧ c.tableName? id = some name ∧ c.handle id = .ok h

/-- The two maps are inverse to each other. -/
def Matched (c : Catalog) : Prop := ∀ name id, c.tableId? name = some id ↔ c.tableName? id = some name

variable {c : Catalog} {name : String} {id : TableId} {h : HandleId}

theorem handle_eq_ok_iff : c.handle id = .ok h ↔ ∃ name, c.byId[id]? = some ⟨name, h⟩ := by
  unfold handle
  constructor
  · intro hh
    split at hh
    · cases hh
    · rename_i entry he
      cases hh
      exact ⟨entry.name, he⟩
  · rintro ⟨name, he⟩
    rw [he]

theorem tableName?_eq_some_iff : c.tableName? id = some name ↔ ∃ h, c.byId[id]? = some ⟨name, h⟩ := by
  unfold tableName?
  rw [Option.map_eq_some_iff]
  constructor
  · rintro ⟨entry, he, rfl⟩
    exact ⟨entry.handle, he⟩
  · rintro ⟨h, he⟩
    exact ⟨⟨name, h⟩, he, rfl⟩

theorem Matched.registers_iff (hm : c.Matched) : c.Registers name id h ↔ c.byId[id]? = some ⟨name, h⟩ := by
  constructor
  · rintro ⟨-, hn, hh⟩
    obtain ⟨h', hn⟩ := tableName?_eq_some_iff.1 hn
    obtain ⟨name', hh⟩ := handle_eq_ok_iff.1 hh
    cases hn.symm.trans hh
    exact hn
  · intro he
    have hn : c.tableName? id = some name := tableName?_eq_some_iff.2 ⟨h, he⟩
    exact ⟨(hm name id).2 hn, hn, handle_eq_ok_iff.2 ⟨name, he⟩⟩

/-! ## Entries taken out -/

/-- The catalog without a name and without an id. -/
def erase (c : Catalog) (name : String) (id : TableId) : Catalog :=
  { byId := c.byId.erase id, byName := c.byName.erase name }

theorem getElem?_byId_erase (id' : TableId) :
    (c.erase name id).byId[id']? = if id = id' then none else c.byId[id']? := by
  simp only [erase, Std.TreeMap.getElem?_erase, Std.compare_eq_iff_eq]

theorem tableId?_erase (name' : String) :
    (c.erase name id).tableId? name' = if name = name' then none else c.tableId? name' := by
  simp only [erase, tableId?, Std.TreeMap.getElem?_erase, Std.compare_eq_iff_eq]

theorem tableName?_erase (id' : TableId) :
    (c.erase name id).tableName? id' = if id = id' then none else c.tableName? id' := by
  unfold tableName?
  rw [getElem?_byId_erase]
  split <;> rfl

/-- A name goes with its id. -/
theorem Matched.erase (hm : c.Matched) (hn : c.tableId? name = some id) : (c.erase name id).Matched := by
  intro name' id'
  have hself := (hm name id).1 hn
  rw [tableId?_erase, tableName?_erase]
  by_cases hname : name = name'
  · subst hname
    rw [if_pos rfl]
    split
    · simp
    · rename_i hid
      rw [← hm, hn]
      simp [hid]
  · rw [if_neg hname]
    split
    · rename_i hid
      rw [hm, ← hid, hself]
      simp [hname]
    · exact hm name' id'

theorem removeName_of_none (hn : c.tableId? name = none) : c.removeName name = c := by
  unfold removeName
  rw [show c.byName[name]? = none from hn]

theorem removeName_of_some (hn : c.tableId? name = some id) : c.removeName name = c.erase name id := by
  unfold removeName
  rw [show c.byName[name]? = some id from hn]
  rfl

theorem removeId_of_none (hi : c.tableName? id = none) : c.removeId id = c := by
  unfold removeId
  rw [Option.map_eq_none_iff.1 hi]

theorem removeId_of_some (hi : c.tableName? id = some name) : c.removeId id = c.erase name id := by
  obtain ⟨h, hi⟩ := tableName?_eq_some_iff.1 hi
  unfold removeId
  rw [hi]
  rfl

/-- What is left once the table of a name was taken out. -/
theorem Matched.removeName (hm : c.Matched) (name : String) :
    (c.removeName name).Matched ∧ ∀ (id' : TableId) (entry : CatalogEntry),
      (c.removeName name).byId[id']? = some entry ↔ entry.name ≠ name ∧ c.byId[id']? = some entry := by
  cases hn : c.tableId? name with
  | none =>
    rw [removeName_of_none hn]
    refine ⟨hm, fun id' entry => ⟨fun he => ⟨fun e => ?_, he⟩, And.right⟩⟩
    rw [(hm name id').2 (tableName?_eq_some_iff.2 ⟨entry.handle, e ▸ he⟩)] at hn
    cases hn
  | some id =>
    rw [removeName_of_some hn]
    refine ⟨hm.erase hn, fun id' entry => ?_⟩
    rw [getElem?_byId_erase]
    by_cases hid : id = id'
    · subst hid
      obtain ⟨h, hself⟩ := tableName?_eq_some_iff.1 ((hm name id).1 hn)
      rw [if_pos rfl, hself]
      refine ⟨nofun, fun ⟨hne, he⟩ => ?_⟩
      cases he
      exact absurd rfl hne
    · rw [if_neg hid]
      refine ⟨fun he => ⟨fun e => hid ?_, he⟩, And.right⟩
      have hn' := (hm name id').2 (tableName?_eq_some_iff.2 ⟨entry.handle, e ▸ he⟩)
      exact Option.some.inj (hn.symm.trans hn')

/-- What is left once the table of an id was taken out. -/
theorem Matched.removeId (hm : c.Matched) (id : TableId) :
    (c.removeId id).Matched ∧
      ∀ id' : TableId, (c.removeId id).byId[id']? = if id = id' then none else c.byId[id']? := by
  cases hi : c.tableName? id with
  | none =>
    rw [removeId_of_none hi]
    refine ⟨hm, fun id' => ?_⟩
    split
    · rename_i e
      rw [← e]
      exact Option.map_eq_none_iff.1 hi
    · rfl
  | some name =>
    rw [removeId_of_some hi]
    exact ⟨hm.erase ((hm name id).2 hi), getElem?_byId_erase⟩

/-! ## A table that is added -/

theorem getElem?_byId_add (hm : c.Matched) (id' : TableId) (entry : CatalogEntry) :
    (c.add id name h).byId[id']? = some entry ↔
      id = id' ∧ entry = ⟨name, h⟩ ∨ id ≠ id' ∧ entry.name ≠ name ∧ c.byId[id']? = some entry := by
  obtain ⟨hm₁, hname⟩ := hm.removeName name
  obtain ⟨-, hid⟩ := hm₁.removeId id
  unfold add
  simp only [Std.TreeMap.getElem?_insert, Std.compare_eq_iff_eq]
  by_cases e : id = id'
  · simp [e, eq_comm]
  · rw [if_neg e, hid, if_neg e, hname]
    simp [e]

theorem tableId?_add (name' : String) :
    (c.add id name h).tableId? name' =
      if name = name' then some id else ((c.removeName name).removeId id).tableId? name' := by
  unfold add tableId?
  simp only [Std.TreeMap.getElem?_insert, Std.compare_eq_iff_eq]

theorem Matched.add (hm : c.Matched) (id : TableId) (name : String) (h : HandleId) : (c.add id name h).Matched := by
  obtain ⟨hm₁, hname⟩ := hm.removeName name
  obtain ⟨hm₂, hid⟩ := hm₁.removeId id
  intro name' id'
  rw [tableId?_add, tableName?_eq_some_iff]
  simp only [getElem?_byId_add hm]
  by_cases hname' : name = name'
  · subst hname'
    simp [eq_comm]
  · rw [if_neg hname', hm₂, tableName?_eq_some_iff]
    simp [Ne.symm hname', hid, hname]

/-- A table that is added takes the place of those with its name or its id, and of no others. -/
theorem Matched.registers_add (hm : c.Matched) (id : TableId) (name : String) (h : HandleId)
    (name' : String) (id' : TableId) (h' : HandleId) :
    (c.add id name h).Registers name' id' h' ↔
      name' = name ∧ id' = id ∧ h' = h ∨ name' ≠ name ∧ id' ≠ id ∧ c.Registers name' id' h' := by
  rw [(hm.add id name h).registers_iff, hm.registers_iff, getElem?_byId_add hm]
  simp only [CatalogEntry.mk.injEq]
  constructor
  · rintro (⟨hid, hname, hh⟩ | ⟨hid, hname, he⟩)
    · exact .inl ⟨hname, hid.symm, hh⟩
    · exact .inr ⟨hname, hid.symm, he⟩
  · rintro (⟨hname, hid, hh⟩ | ⟨hname, hid, he⟩)
    · exact .inl ⟨hid.symm, hname, hh⟩
    · exact .inr ⟨hid.symm, hname, he⟩

/-! ## Runs -/

/-- What can happen to a catalog. -/
inductive Change where
  | add (file : HeapFile) (handle : HandleId) (name : String)
  | clear

/-- The catalog after a change. -/
def apply (c : Catalog) : Change → Catalog
  | .add file handle name => c.add file.id name handle
  | .clear => .empty

/-- A new catalog after many changes. -/
def run (changes : List Change) : Catalog := changes.foldl apply .empty

theorem matched_empty : Catalog.empty.Matched := fun name id => by
  simp [empty, tableId?, tableName?]

theorem Matched.apply (hm : c.Matched) (change : Change) : (c.apply change).Matched := by
  cases change with
  | add file handle name => exact hm.add file.id name handle
  | clear => exact matched_empty

theorem matched_run (changes : List Change) : (run changes).Matched := by
  have hfrom : ∀ (changes : List Change) (c : Catalog), c.Matched → (changes.foldl Catalog.apply c).Matched := by
    intro changes
    induction changes with
    | nil => exact fun _ hm => hm
    | cons change changes ih => exact fun c hm => ih _ (hm.apply change)
  exact hfrom changes _ matched_empty

/-- Names and ids stand for each other, and each table has one of each. -/
structure Registry (c : Catalog) : Prop where
  matched : ∀ name id, c.tableId? name = some id ↔ c.tableName? id = some name
  listed : ∀ id, id ∈ c.tableIds ↔ ∃ h, c.handle id = .ok h
  once : c.tableIds.Nodup
  added : ∀ (file : HeapFile) (handle : HandleId) (name name' : String) (id' : TableId) (handle' : HandleId),
    (c.apply (.add file handle name)).Registers name' id' handle' ↔
      name' = name ∧ id' = file.id ∧ handle' = handle ∨
        name' ≠ name ∧ id' ≠ file.id ∧ c.Registers name' id' handle'

theorem mem_tableIds_iff : id ∈ c.tableIds ↔ ∃ h, c.handle id = .ok h := by
  unfold tableIds
  simp only [handle_eq_ok_iff, Std.TreeMap.mem_keys, Std.TreeMap.mem_iff_isSome_getElem?, Option.isSome_iff_exists]
  exact ⟨fun ⟨entry, he⟩ => ⟨entry.handle, entry.name, he⟩, fun ⟨h, name, he⟩ => ⟨⟨name, h⟩, he⟩⟩

theorem nodup_tableIds (c : Catalog) : c.tableIds.Nodup :=
  c.byId.distinct_keys.imp fun hne e => hne (Std.compare_eq_iff_eq.2 e)

/-- Whatever was registered and taken out, a catalog is a bijection of names and ids. -/
theorem run_registry (changes : List Change) : (run changes).Registry where
  matched := matched_run changes
  listed _ := mem_tableIds_iff
  once := nodup_tableIds _
  added file handle name := (matched_run changes).registers_add file.id name handle

/-- Two tables go for one that has the id of the first and the name of the second. -/
example (f g : HeapFile) :
    (run [.add f 0 "a", .add g 1 "b", .add f 2 "b"]).Registers name id h ↔ name = "b" ∧ id = f.id ∧ h = 2 := by
  have hempty : ¬ Catalog.empty.Registers name id h := fun hr => nomatch matched_empty.registers_iff.1 hr
  rw [show run _ = ((Catalog.empty.add f.id "a" 0).add g.id "b" 1).add f.id "b" 2 from rfl,
    ((matched_empty.add _ _ _).add _ _ _).registers_add, (matched_empty.add _ _ _).registers_add,
    matched_empty.registers_add]
  grind

end TupleStore.Catalog
