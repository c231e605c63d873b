import TupleStore.Pool.Store
import TupleStore.Proofs.File.Windows

/-!
# Tables on disk

The pages of all tables are one map from pages to bytes (`Volume.pageBytes`), as long as every table is
registered and every file has one handle (`Volume.Registered`).

* `Volume.pageBytes` : the bytes of a page in its file, zeros past the end of the file;
* `Volume.HasPage` : the page lies in its file;
* `Volume.Extends` : the same tables, with at least the pages that there were;
* `Sole` : a table that is registered with a handle, and has a file that no other registered table has. A page
  written through the handle changes no other page (`Sole.writePage`);
* `Registered.readPage`, `Registered.writePage`, `Registered.allocatePage` : what reading, writing and
  appending pages do to the map. An appended page reads as zeros before and after.
-/

namespace TupleStore

set_option autoImplicit false

namespace Volume

/-- The handle and the file of a table, as they are found by its id. -/
def table? (v : Volume) (c : Catalog) (id : TableId) : Option (HandleId × HeapFile) :=
  match c.handle id with
  | .error _ => none
  | .ok h => v.handles[h]?.map fun f => (h, f)

/-- The bytes of a page in its file. Past the end of the file there are zeros, and nothing where there is no
such table. -/
def pageBytes (v : Volume) (c : Catalog) (page : PageId) : Bytes :=
  match v.table? c page.table with
  | none => []
  | some (_, f) => (v.folder.content f.name).window (page.offset f.pages.pageSize) f.pages.pageSize

/-- The page lies in a file whose pages have a given size. -/
def HasPage (v : Volume) (c : Catalog) (size : Nat) (page : PageId) : Prop :=
  ∃ h f, v.table? c page.table = some (h, f) ∧ f.pages.pageSize = size ∧ page.number < f.pages.pageCount

/-- Every handle is the registered one of its table, no other file has a handle, no file has two, and no file
is longer than its handle knows. -/
structure Registered (v : Volume) (c : Catalog) : Prop where
  handle : ∀ (h : HandleId) (f : HeapFile), v.handles[h]? = some f → c.handle f.id = .ok h
  file : ∀ (id : TableId) (h : HandleId), c.handle id = .ok h → ∃ f : HeapFile, v.handles[h]? = some f ∧ f.id = id
  one : ∀ (h h' : HandleId) (f f' : HeapFile), v.handles[h]? = some f → v.handles[h']? = some f' → f.name = f'.name → h = h'
  extent : ∀ (h : HandleId) (f : HeapFile), v.handles[h]? = some f →
    (v.folder.content f.name).length ≤ f.pages.pageCount * f.pages.pageSize

/-- The table of a handle is registered with it, and no other registered table has its file. -/
structure Sole (v : Volume) (c : Catalog) (h : HandleId) (f : HeapFile) : Prop where
  file : v.handles[h]? = some f
  handle : c.handle f.id = .ok h
  apart : ∀ (id : TableId) (h' : HandleId) (f' : HeapFile), c.handle id = .ok h' → v.handles[h']? = some f' →
    f'.name = f.name → id = f.id

/-- What stays the same of a handle. -/
def shape (f : HeapFile) : TableId × String × Schema × Nat := (f.id, f.name, f.schema, f.pages.pageSize)

/-- The same tables, with at least the pages that there were. -/
def Extends (v v' : Volume) : Prop :=
  ∀ h : HandleId, (v'.handles[h]?).map shape = (v.handles[h]?).map shape ∧
    ∀ f f' : HeapFile, v.handles[h]? = some f → v'.handles[h]? = some f' → f.pages.pageCount ≤ f'.pages.pageCount

theorem Extends.refl (v : Volume) : Extends v v := fun _ => ⟨rfl, fun f f' hf hf' => by
  rw [hf] at hf'
  cases hf'
  exact Nat.le_refl _⟩

theorem Extends.file {v v' : Volume} (e : Extends v v') {h : HandleId} {f : HeapFile}
    (hf : v.handles[h]? = some f) :
    ∃ f', v'.handles[h]? = some f' ∧ shape f' = shape f ∧ f.pages.pageCount ≤ f'.pages.pageCount := by
  obtain ⟨hs, hc⟩ := e h
  rw [hf, Option.map_some, Option.map_eq_some_iff] at hs
  obtain ⟨f', hf', hs⟩ := hs
  exact ⟨f', hf', hs, hc f f' hf hf'⟩

theorem Extends.file_back {v v' : Volume} (e : Extends v v') {h : HandleId} {f' : HeapFile}
    (hf : v'.handles[h]? = some f') : ∃ f, v.handles[h]? = some f ∧ shape f' = shape f := by
  obtain ⟨hs, -⟩ := e h
  rw [hf, Option.map_some, eq_comm, Option.map_eq_some_iff] at hs
  obtain ⟨f, hf, hs⟩ := hs
  exact ⟨f, hf, hs.symm⟩

theorem Extends.trans {v v' v'' : Volume} (e : Extends v v') (e' : Extends v' v'') : Extends v v'' := by
  intro h
  refine ⟨(e' h).1.trans (e h).1, fun f f'' hf hf'' => ?_⟩
  obtain ⟨f', hf', -, hc⟩ := e.file hf
  exact Nat.le_trans hc ((e' h).2 f' f'' hf' hf'')

theorem HasPage.extends {v v' : Volume} {c : Catalog} {size : Nat} {page : PageId} (hp : HasPage v c size page)
    (e : Extends v v') : HasPage v' c size page := by
  obtain ⟨h, f, ht, hs, hn⟩ := hp
  unfold table? at ht
  cases hc : c.handle page.table with
  | error _ => rw [hc] at ht; cases ht
  | ok h' =>
    rw [hc] at ht
    obtain ⟨f₀, hf, he⟩ := Option.map_eq_some_iff.1 ht
    cases he
    obtain ⟨f', hf', hsh, hcount⟩ := e.file hf
    simp only [shape, Prod.mk.injEq] at hsh
    refine ⟨h, f', ?_, hsh.2.2.2.trans hs, Nat.lt_of_lt_of_le hn hcount⟩
    simp [table?, hc, hf']

/-! ### A file written -/

section

variable {v : Volume} {c : Catalog} {h : HandleId} {f : HeapFile}

namespace Registered

theorem getElem?_update (f : HeapFile) (pages : PageFile) (content : Bytes) (hf : v.handles[h]? = some f)
    (h' : HandleId) :
    (v.update h f pages content).handles[h']? = if h' = h then some { f with pages } else v.handles[h']? := by
  obtain ⟨hl, -⟩ := List.getElem?_eq_some_iff.1 hf
  simp only [update, List.getElem?_set, hl, if_true, eq_comm]

theorem extends_update (hf : v.handles[h]? = some f) {pages : PageFile} (content : Bytes)
    (hsize : pages.pageSize = f.pages.pageSize) (hcount : f.pages.pageCount ≤ pages.pageCount) :
    Extends v (v.update h f pages content) := by
  intro h'
  rw [getElem?_update f pages content hf]
  by_cases e : h' = h
  · subst e
    rw [if_pos rfl, hf]
    refine ⟨by simp [shape, hsize], fun f₁ f₂ h₁ h₂ => ?_⟩
    cases h₁
    cases h₂
    exact hcount
  · rw [if_neg e]
    refine ⟨rfl, fun f₁ f₂ h₁ h₂ => ?_⟩
    rw [h₁] at h₂
    cases h₂
    exact Nat.le_refl _

theorem content_update (v : Volume) (h : HandleId) (f : HeapFile) (pages : PageFile) (content : Bytes)
    (name : String) : (v.update h f pages content).folder.content name =
      if name = f.name then content else v.folder.content name := by
  by_cases e : name = f.name
  · subst e
    rw [if_pos rfl]
    exact Folder.content_put_self _ _ _
  · rw [if_neg e]
    exact Folder.content_put_of_ne _ (Ne.symm e) _

end Registered

theorem writePage_eq {page : PageId} {bytes : Bytes} (ht : page.table = f.id) (hl : bytes.length = f.pages.pageSize) :
    v.writePage h f page bytes =
      .ok (v.update h f { f.pages with pageCount := max f.pages.pageCount (page.number + 1) }
        ((v.folder.content f.name).writeAt (page.offset f.pages.pageSize) bytes)) := by
  unfold Volume.writePage PageFile.write
  rw [if_pos ht, if_pos hl]

/-- A page is written to one file only. -/
theorem content_of_writePage {v' : Volume} {page : PageId} {bytes : Bytes} (hw : v.writePage h f page bytes = .ok v')
    {name : String} (hn : name ≠ f.name) : v'.folder.content name = v.folder.content name := by
  unfold Volume.writePage at hw
  split at hw
  · split at hw
    · cases hw
    · cases hw
      rw [Registered.content_update, if_neg hn]
  · cases hw

namespace Sole

theorem pageBytes_eq (r : Sole v c h f) {page : PageId} (hp : page.table = f.id) : v.pageBytes c page =
    (v.folder.content f.name).window (page.offset f.pages.pageSize) f.pages.pageSize := by
  simp [pageBytes, table?, hp, r.handle, r.file]

/-- The pages of all other tables stay as they were. -/
theorem pageBytes_update (r : Sole v c h f) (pages : PageFile) (content : Bytes) (page : PageId) :
    (v.update h f pages content).pageBytes c page =
      if page.table = f.id then content.window (page.offset pages.pageSize) pages.pageSize
      else v.pageBytes c page := by
  have hget := Registered.getElem?_update f pages content r.file
  by_cases ht : page.table = f.id
  · rw [if_pos ht]
    simp [pageBytes, table?, ht, r.handle, hget, Registered.content_update]
  · rw [if_neg ht]
    unfold pageBytes table?
    cases hc : c.handle page.table with
    | error _ => rfl
    | ok h' =>
      cases hf' : v.handles[h']? with
      | none =>
        have hne : h' ≠ h := by
          rintro rfl
          cases hf'.symm.trans r.file
        simp only [hget, if_neg hne, hf', Option.map_none]
      | some f' =>
        have hname : f'.name ≠ f.name := fun hn => ht (r.apart page.table h' f' hc hf' hn)
        have hne : h' ≠ h := by
          rintro rfl
          cases hf'.symm.trans r.file
          exact hname rfl
        simp only [hget, if_neg hne, hf', Option.map_some, Registered.content_update, if_neg hname]

theorem writePage (r : Sole v c h f) {page : PageId} {bytes : Bytes} (ht : page.table = f.id)
    (hl : bytes.length = f.pages.pageSize) :
    ∃ v', v.writePage h f page bytes = .ok v' ∧ Extends v v' ∧
      ∀ q, v'.pageBytes c q = if q = page then bytes else v.pageBytes c q := by
  refine ⟨_, writePage_eq ht hl, Registered.extends_update r.file _ rfl (Nat.le_max_left _ _), fun q => ?_⟩
  rw [r.pageBytes_update]
  by_cases e : q = page
  · subst e
    rw [if_pos ht, if_pos rfl]
    show Bytes.window _ _ f.pages.pageSize = bytes
    rw [← hl]
    exact Bytes.window_writeAt_self _ _ _
  · rw [if_neg e]
    by_cases hq : q.table = f.id
    · have hne : q.number ≠ page.number := fun hn => e (by
        cases q; cases page; simp_all)
      rw [if_pos hq, r.pageBytes_eq hq]
      show Bytes.window _ (q.number * f.pages.pageSize) f.pages.pageSize = _
      simp only [PageId.offset, ← hl]
      exact Bytes.window_writeAt_of_ne _ _ hne
    · rw [if_neg hq]

end Sole

end

namespace Registered

variable {v : Volume} {c : Catalog} {h : HandleId} {f : HeapFile}

theorem table?_eq (r : Registered v c) (hf : v.handles[h]? = some f) : v.table? c f.id = some (h, f) := by
  simp [table?, r.handle h f hf, hf]

theorem of_table? (r : Registered v c) {id : TableId} (ht : v.table? c id = some (h, f)) :
    v.handles[h]? = some f ∧ f.id = id ∧ c.handle id = .ok h := by
  unfold table? at ht
  cases hc : c.handle id with
  | error _ => rw [hc] at ht; cases ht
  | ok h' =>
    rw [hc] at ht
    obtain ⟨f₀, hf, he⟩ := Option.map_eq_some_iff.1 ht
    cases he
    obtain ⟨f', hf', hid⟩ := r.file id h hc
    rw [hf] at hf'
    cases hf'
    exact ⟨hf, hid, rfl⟩

theorem sole (r : Registered v c) (hf : v.handles[h]? = some f) : Sole v c h f := by
  refine ⟨hf, r.handle h f hf, fun id h' f' hc hf' hn => ?_⟩
  obtain ⟨g, hg, hid⟩ := r.file id h' hc
  cases hf'.symm.trans hg
  cases r.one h' h f' f hf' hf hn
  cases hf'.symm.trans hf
  exact hid.symm

theorem pageBytes_eq (r : Registered v c) (hf : v.handles[h]? = some f) {page : PageId}
    (hp : page.table = f.id) : v.pageBytes c page =
      (v.folder.content f.name).window (page.offset f.pages.pageSize) f.pages.pageSize :=
  (r.sole hf).pageBytes_eq hp

theorem length_pageBytes {page : PageId} {size : Nat} (hp : HasPage v c size page) :
    (v.pageBytes c page).length = size := by
  obtain ⟨h, f, ht, hs, -⟩ := hp
  rw [pageBytes, ht, ← hs, Bytes.length_window]

theorem readPage (r : Registered v c) (hf : v.handles[h]? = some f) (page : PageId) :
    v.readPage f page =
      if page.table = f.id ∧ page.number < f.pages.pageCount then .ok (v.pageBytes c page)
      else .error (.pageNotFound page) := by
  unfold Volume.readPage PageFile.read
  by_cases ht : page.table = f.id
  · by_cases hn : page.number < f.pages.pageCount
    · rw [if_pos ht, if_pos hn, if_pos ⟨ht, hn⟩, r.pageBytes_eq hf ht]
    · rw [if_pos ht, if_neg hn, if_neg fun hh => hn hh.2]
  · rw [if_neg ht, if_neg fun hh => ht hh.1]

theorem update (r : Registered v c) (hf : v.handles[h]? = some f) {pages : PageFile} {content : Bytes}
    (hext : content.length ≤ pages.pageCount * pages.pageSize) :
    Registered (v.update h f pages content) c := by
  have hget := getElem?_update f pages content hf
  have back : ∀ (h' : HandleId) (f' : HeapFile), (v.update h f pages content).handles[h']? = some f' →
      ∃ f₀, v.handles[h']? = some f₀ ∧ f₀.id = f'.id ∧ f₀.name = f'.name := by
    intro h' f' hf'
    rw [hget] at hf'
    split at hf'
    · rename_i e
      cases hf'
      exact ⟨f, e ▸ hf, rfl, rfl⟩
    · exact ⟨f', hf', rfl, rfl⟩
  refine ⟨fun h' f' hf' => ?_, fun id h' hc => ?_, fun h₁ h₂ f₁ f₂ hf₁ hf₂ hn => ?_, fun h' f' hf' => ?_⟩
  · obtain ⟨f₀, hf₀, hid, -⟩ := back h' f' hf'
    rw [← hid]
    exact r.handle h' f₀ hf₀
  · obtain ⟨f₀, hf₀, hid⟩ := r.file id h' hc
    rw [hget]
    by_cases e : h' = h
    · subst e
      rw [hf] at hf₀
      cases hf₀
      exact ⟨{ f with pages }, if_pos rfl, hid⟩
    · exact ⟨f₀, (if_neg e).trans hf₀, hid⟩
  · obtain ⟨g₁, hg₁, -, e₁⟩ := back h₁ f₁ hf₁
    obtain ⟨g₂, hg₂, -, e₂⟩ := back h₂ f₂ hf₂
    exact r.one h₁ h₂ g₁ g₂ hg₁ hg₂ (by rw [e₁, e₂, hn])
  · rw [content_update]
    rw [hget] at hf'
    split at hf'
    · cases hf'
      rw [if_pos rfl]
      exact hext
    · rename_i e
      rw [if_neg fun hn => e (r.one h' h f' f hf' hf hn)]
      exact r.extent h' f' hf'

/-- The pages of all other tables stay as they were. -/
theorem pageBytes_update (r : Registered v c) (hf : v.handles[h]? = some f) (pages : PageFile)
    (content : Bytes) (page : PageId) : (v.update h f pages content).pageBytes c page =
      if page.table = f.id then content.window (page.offset pages.pageSize) pages.pageSize
      else v.pageBytes c page :=
  (r.sole hf).pageBytes_update pages content page

theorem writePage (r : Registered v c) (hf : v.handles[h]? = some f) {page : PageId} {bytes : Bytes}
    (ht : page.table = f.id) (hl : bytes.length = f.pages.pageSize) :
    ∃ v', v.writePage h f page bytes = .ok v' ∧ Registered v' c ∧ Extends v v' ∧
      HasPage v' c bytes.length page ∧
      ∀ q, v'.pageBytes c q = if q = page then bytes else v.pageBytes c q := by
  let pages : PageFile := { f.pages with pageCount := max f.pages.pageCount (page.number + 1) }
  let content := (v.folder.content f.name).writeAt (page.offset f.pages.pageSize) bytes
  have hext : content.length ≤ pages.pageCount * pages.pageSize := by
    have he := r.extent h f hf
    have h₁ : f.pages.pageCount * f.pages.pageSize ≤ pages.pageCount * f.pages.pageSize :=
      Nat.mul_le_mul_right _ (Nat.le_max_left _ _)
    have h₂ : (page.number + 1) * f.pages.pageSize ≤ pages.pageCount * f.pages.pageSize :=
      Nat.mul_le_mul_right _ (Nat.le_max_right _ _)
    rw [Nat.add_mul, Nat.one_mul] at h₂
    rw [Bytes.length_writeAt, hl]
    exact Nat.max_le.2 ⟨Nat.le_trans he h₁, h₂⟩
  obtain ⟨v', hw, hgrown, hpages⟩ := (r.sole hf).writePage ht hl
  have hv' : v' = v.update h f pages content := by
    rw [Volume.writePage_eq ht hl] at hw
    exact (Except.ok.inj hw).symm
  refine ⟨v', hw, hv' ▸ r.update hf hext, hgrown, ?_, hpages⟩
  rw [hv']
  refine ⟨h, { f with pages }, ?_, hl.symm, Nat.lt_of_lt_of_le (Nat.lt_succ_self _) (Nat.le_max_right _ _)⟩
  rw [ht]
  exact (r.update hf hext).table?_eq (f := { f with pages }) (by
    rw [getElem?_update f pages content hf, if_pos rfl])

theorem allocatePage (r : Registered v c) (hf : v.handles[h]? = some f) :
    Registered (v.allocatePage h f).2 c ∧ Extends v (v.allocatePage h f).2 ∧
      ∀ q, (v.allocatePage h f).2.pageBytes c q = v.pageBytes c q := by
  let pages : PageFile := { f.pages with pageCount := f.pages.pageCount + 1 }
  let content := (v.folder.content f.name).writeAt (f.pages.pageCount * f.pages.pageSize)
    (Bytes.zeros f.pages.pageSize)
  have hend := r.extent h f hf
  have hext : content.length ≤ pages.pageCount * pages.pageSize := by
    show content.length ≤ (f.pages.pageCount + 1) * f.pages.pageSize
    rw [Bytes.length_writeAt, Bytes.length_zeros, Nat.add_mul]
    omega
  have hv : (v.allocatePage h f).2 = v.update h f pages content := rfl
  rw [hv]
  refine ⟨r.update hf hext, extends_update hf content rfl (Nat.le_succ _), fun q => ?_⟩
  rw [r.pageBytes_update hf pages content]
  by_cases hq : q.table = f.id
  · rw [if_pos hq, r.pageBytes_eq hf hq]
    exact Bytes.window_writeAt_zeros hend _ _ _
  · rw [if_neg hq]

end Registered

end Volume

end TupleStore
