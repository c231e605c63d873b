import TupleStore.Proofs.File.Arrays
import TupleStore.Proofs.File.Tables

/-!
# Files with several handles

Every handle on a file counts pages on its own. What it counts is in the file, and what the file has is counted by one
of its handles, if not by all (`Volume.Spanned`). So the pages that a handle does not know of are those that another
handle counts (`Spanned.begun_le_iff`).

* `Volume.filePage`, `Volume.begun` : a page of a file, and how many pages are begun in it;
* `Spanned.write`, `Spanned.create`, `Spanned.openFile` : how files and handles come to be, and grow.
-/

namespace TupleStore

set_option autoImplicit false

/-- A page has room for a tuple only if it has bytes. -/
theorem Layout.slots_ofSchema_zero (schema : Schema) : (Layout.ofSchema schema 0).slots = 0 := by
  show 0 * 8 / _ = 0
  rw [Nat.zero_mul, Nat.zero_div]

/-- A new file is empty, as if it had been there. -/
theorem Folder.content_create {f f' : Folder} {path name : String} (h : f.create path = .ok (name, f')) :
    f'.content name = [] ∧ f'.content = f.content := by
  unfold Folder.create at h
  split at h
  · cases h
  · cases h
  · cases h
  · cases h
  · split at h
    · cases h
    · split at h
      · cases h
      · split at h
        · cases h
        · rename_i hnew
          cases h
          refine ⟨content_put_self .., funext fun other => ?_⟩
          by_cases e : name = other
          · subst e
            rw [content_put_self, content, Std.TreeMap.getElem?_eq_none hnew]
            rfl
          · exact content_put_of_ne _ e _

namespace Volume

/-- A page of a file whose pages have a given size. -/
def filePage (v : Volume) (name : String) (size n : Nat) : Bytes := (v.folder.content name).window (n * size) size

/-- The number of pages that are begun in a file. -/
def begun (v : Volume) (name : String) (size : Nat) : Nat := (v.folder.content name).length ⌈/⌉ size

/-- Handles count pages that are begun, and some handle on a file counts all of them. -/
structure Spanned (v : Volume) : Prop where
  positive : ∀ (h : HandleId) (f : HeapFile), v.handles[h]? = some f → 0 < f.pages.pageSize
  counted : ∀ (h : HandleId) (f : HeapFile), v.handles[h]? = some f →
    f.pages.pageCount ≤ v.begun f.name f.pages.pageSize
  spanned : ∀ (h : HandleId) (f : HeapFile), v.handles[h]? = some f → ∃ (h' : HandleId) (f' : HeapFile),
    v.handles[h']? = some f' ∧ f'.name = f.name ∧
      (v.folder.content f.name).length ≤ f'.pages.pageCount * f'.pages.pageSize

variable {v v' : Volume} {h : HandleId} {f : HeapFile}

/-! ### Pages written -/

/-- The volume after bytes are written to a page through a handle. -/
def written (v : Volume) (h : HandleId) (f : HeapFile) (n : Nat) (bytes : Bytes) : Volume :=
  v.update h f { f.pages with pageCount := max f.pages.pageCount (n + 1) }
    ((v.folder.content f.name).writeAt (n * f.pages.pageSize) bytes)

theorem written_of_writePage {page : PageId} {bytes : Bytes} (hw : v.writePage h f page bytes = .ok v') :
    v' = v.written h f page.number bytes ∧ bytes.length = f.pages.pageSize := by
  unfold Volume.writePage PageFile.write at hw
  split at hw
  · split at hw
    · cases hw
    · rename_i hp
      split at hp
      · rename_i hl
        cases hp
        cases hw
        exact ⟨rfl, hl⟩
      · cases hp
  · cases hw

theorem allocatePage_eq (v : Volume) (h : HandleId) (f : HeapFile) :
    v.allocatePage h f = (⟨f.id, f.pages.pageCount⟩, v.written h f f.pages.pageCount (Bytes.zeros f.pages.pageSize)) := by
  unfold written
  rw [Nat.max_eq_right (Nat.le_succ _)]
  rfl

theorem getElem?_written (hf : v.handles[h]? = some f) (n : Nat) (bytes : Bytes) (h' : HandleId) :
    (v.written h f n bytes).handles[h']? =
      if h' = h then some { f with pages := { f.pages with pageCount := max f.pages.pageCount (n + 1) } }
      else v.handles[h']? :=
  Registered.getElem?_update f _ _ hf h'

theorem content_written (v : Volume) (h : HandleId) (f : HeapFile) (n : Nat) (bytes : Bytes) (name : String) :
    (v.written h f n bytes).folder.content name =
      if name = f.name then (v.folder.content f.name).writeAt (n * f.pages.pageSize) bytes else v.folder.content name :=
  Registered.content_update ..

/-- A page that is written is the only one that changes. -/
theorem filePage_written (v : Volume) (h : HandleId) (f : HeapFile) (n : Nat) {bytes : Bytes}
    (hl : bytes.length = f.pages.pageSize) (name : String) (m : Nat) :
    (v.written h f n bytes).filePage name f.pages.pageSize m =
      if name = f.name ∧ m = n then bytes else v.filePage name f.pages.pageSize m := by
  unfold filePage
  rw [content_written]
  by_cases hname : name = f.name
  · subst hname
    rw [if_pos rfl]
    by_cases hm : m = n
    · subst hm
      rw [if_pos ⟨rfl, rfl⟩]
      have hself := Bytes.window_writeAt_self (v.folder.content f.name) bytes (m * f.pages.pageSize)
      rwa [hl] at hself
    · rw [if_neg fun hh => hm hh.2]
      exact hl ▸ Bytes.window_writeAt_of_ne _ bytes hm
  · rw [if_neg hname, if_neg fun hh => hname hh.1]

/-- Pages of other files stay as they are, whatever their size. -/
theorem filePage_written_of_ne (v : Volume) (h : HandleId) (f : HeapFile) (n : Nat) (bytes : Bytes) {name : String}
    (hname : name ≠ f.name) (pageSize m : Nat) :
    (v.written h f n bytes).filePage name pageSize m = v.filePage name pageSize m := by
  unfold filePage
  rw [content_written, if_neg hname]

namespace Spanned

theorem write (r : v.Spanned) (hf : v.handles[h]? = some f) (n : Nat) {bytes : Bytes}
    (hl : bytes.length = f.pages.pageSize) : (v.written h f n bytes).Spanned := by
  have hs := r.positive h f hf
  have hget := getElem?_written hf n bytes
  -- the file of the handle is longer, or as long as it was
  have hlength : ∀ name, ((v.written h f n bytes).folder.content name).length =
      if name = f.name then max (v.folder.content name).length (n * f.pages.pageSize + f.pages.pageSize)
      else (v.folder.content name).length := fun name => by
    rw [content_written]
    split
    · rename_i e
      rw [Bytes.length_writeAt, hl, e]
    · rfl
  have hgrown : ∀ name, (v.folder.content name).length ≤ ((v.written h f n bytes).folder.content name).length :=
    fun name => by
      rw [hlength]
      split <;> omega
  -- every handle was there before, and has counted no more pages
  have hback : ∀ (h' : HandleId) (f' : HeapFile), (v.written h f n bytes).handles[h']? = some f' → ∃ f₀ : HeapFile,
      v.handles[h']? = some f₀ ∧ f₀.name = f'.name ∧ f₀.pages.pageSize = f'.pages.pageSize ∧
        f'.pages.pageCount = if h' = h then max f₀.pages.pageCount (n + 1) else f₀.pages.pageCount := by
    intro h' f' hf'
    rw [hget] at hf'
    split at hf'
    · rename_i e
      cases hf'
      exact ⟨f, e ▸ hf, rfl, rfl, (if_pos e).symm⟩
    · rename_i e
      exact ⟨f', hf', rfl, rfl, (if_neg e).symm⟩
  refine ⟨fun h' f' hf' => ?_, fun h' f' hf' => ?_, fun h' f' hf' => ?_⟩
  · obtain ⟨f₀, hf₀, -, hsize, -⟩ := hback h' f' hf'
    exact hsize ▸ r.positive h' f₀ hf₀
  · obtain ⟨f₀, hf₀, hname, hsize, hcount⟩ := hback h' f' hf'
    have hold := r.counted h' f₀ hf₀
    rw [begun, hname, hsize] at hold
    have hs' : 0 < f'.pages.pageSize := hsize ▸ r.positive h' f₀ hf₀
    have hmono := (gc_smul_ceilDiv hs').monotone_l (hgrown f'.name)
    rw [hcount]
    split
    · rename_i e
      subst e
      cases hf₀.symm.trans hf
      refine max_le (hold.trans hmono) ?_
      rw [begun, hlength, if_pos hname.symm, ← hsize, PageArray.ceilDiv_max hs]
      exact Nat.le_max_right ..
    · exact hold.trans hmono
  · obtain ⟨f₀, hf₀, hname, -, -⟩ := hback h' f' hf'
    obtain ⟨h₁, f₁, hf₁, hname₁, hspan⟩ := r.spanned h' f₀ hf₀
    rw [hname] at hname₁ hspan
    by_cases hlast : f'.name = f.name ∧ (v.folder.content f.name).length ≤ n * f.pages.pageSize + f.pages.pageSize
    · -- the file ends with the page that is written, which its handle counts now
      refine ⟨h, _, (hget h).trans (if_pos rfl), hlast.1.symm, ?_⟩
      have hcount := Nat.mul_le_mul_right f.pages.pageSize (Nat.le_max_right f.pages.pageCount (n + 1))
      rw [hlength, if_pos hlast.1, hlast.1]
      rw [Nat.add_mul, Nat.one_mul] at hcount
      exact (max_le hlast.2 (Nat.le_refl _)).trans hcount
    · -- the file is as long as it was, and who has counted all of it still does
      have hsame : ((v.written h f n bytes).folder.content f'.name).length = (v.folder.content f'.name).length := by
        rw [hlength]
        split
        · rename_i e
          rw [e] at hlast ⊢
          simp only [true_and] at hlast
          omega
        · rfl
      rw [hsame]
      by_cases e : h₁ = h
      · subst e
        cases hf₁.symm.trans hf
        exact ⟨h₁, _, (hget h₁).trans (if_pos rfl), hname₁,
          hspan.trans (Nat.mul_le_mul_right _ (Nat.le_max_left ..))⟩
      · exact ⟨h₁, f₁, ((hget h₁).trans (if_neg e)).trans hf₁, hname₁, hspan⟩

/-! ### Files and handles added -/

/-- A handle more, on a file that it counts, or that has no pages. -/
theorem addHandle (r : v.Spanned) (hs : 0 < f.pages.pageSize)
    (hcount : f.pages.pageCount = v.begun f.name f.pages.pageSize) : (v.addHandle f).2.Spanned := by
  have hlast : (v.addHandle f).2.handles[v.handles.length]? = some f := by simp [Volume.addHandle]
  have hin : ∀ (h' : HandleId) (f' : HeapFile), (v.addHandle f).2.handles[h']? = some f' →
      v.handles[h']? = some f' ∨ h' = v.handles.length ∧ f' = f := fun h' f' hf' => by
    rcases Nat.lt_trichotomy h' v.handles.length with hlt | rfl | hgt
    · exact .inl ((List.getElem?_append_left hlt).symm.trans hf')
    · exact .inr ⟨rfl, Option.some.inj (hf'.symm.trans hlast)⟩
    · have hle := (List.getElem?_eq_some_iff.1 hf').1
      simp only [Volume.addHandle, List.length_append, List.length_singleton] at hle
      omega
  refine ⟨fun h' f' hf' => ?_, fun h' f' hf' => ?_, fun h' f' hf' => ?_⟩
  · rcases hin h' f' hf' with hf' | ⟨rfl, rfl⟩
    · exact r.positive h' f' hf'
    · exact hs
  · rcases hin h' f' hf' with hf' | ⟨rfl, rfl⟩
    · exact r.counted h' f' hf'
    · exact hcount.le
  · rcases hin h' f' hf' with hf' | ⟨rfl, rfl⟩
    · obtain ⟨h₁, f₁, hf₁, hname, hspan⟩ := r.spanned h' f' hf'
      exact ⟨h₁, f₁, (List.getElem?_append_left (List.getElem?_eq_some_iff.1 hf₁).1).trans hf₁, hname, hspan⟩
    · refine ⟨_, _, hlast, rfl, ?_⟩
      rw [hcount, Nat.mul_comm]
      exact le_smul_ceilDiv hs

theorem pageSize_pos {schema : Schema} {pageSize : Nat} (hfits : checkFits schema pageSize = .ok ()) : 0 < pageSize := by
  refine Nat.pos_of_ne_zero fun e => ?_
  rw [e, checkFits, if_pos (Layout.slots_ofSchema_zero schema)] at hfits
  cases hfits

theorem create (r : v.Spanned) {path : String} {schema : Schema} {pageSize : Nat}
    (hv : v.create path schema pageSize = .ok (h, v')) : v'.Spanned := by
  unfold Volume.create at hv
  split at hv
  · cases hv
  · rename_i hfits
    split at hv
    · cases hv
    · rename_i name folder hcreate
      cases hv
      obtain ⟨hempty, hcontent⟩ := Folder.content_create hcreate
      have r' : Spanned { v with folder } := by
        refine ⟨r.positive, fun h' f' hf' => ?_, fun h' f' hf' => ?_⟩
        · rw [begun, hcontent]
          exact r.counted h' f' hf'
        · rw [hcontent]
          exact r.spanned h' f' hf'
      refine r'.addHandle (pageSize_pos hfits) ?_
      simp [begun, hempty, PageFile.empty]

theorem openFile (r : v.Spanned) {path : String} {schema : Schema} {pageSize : Nat}
    (hv : v.openFile path schema pageSize = .ok (h, v')) : v'.Spanned := by
  unfold Volume.openFile at hv
  split at hv
  · cases hv
  · rename_i hfits
    have hs := pageSize_pos hfits
    split at hv
    · cases hv
    · rename_i name _
      cases hv
      have hpages : PageFile.ofContent? (v.folder.content name) pageSize =
          some ⟨pageSize, (v.folder.content name).length ⌈/⌉ pageSize⟩ := if_neg (Nat.ne_of_gt hs)
      rw [hpages]
      exact r.addHandle hs rfl

/-- No handle has been opened. -/
theorem of_nil (hv : v.handles = []) : v.Spanned := by
  have hnone : ∀ (h : HandleId) (f : HeapFile), v.handles[h]? ≠ some f := fun h f => by simp [hv]
  exact ⟨fun h f hf => absurd hf (hnone h f), fun h f hf => absurd hf (hnone h f), fun h f hf => absurd hf (hnone h f)⟩

/-! ### What handles know of -/

/-- A handle counts all pages of a file exactly if no other handle on the file counts more. -/
theorem begun_le_iff (r : v.Spanned) (hf : v.handles[h]? = some f)
    (hone : ∀ (h' : HandleId) (f' : HeapFile), v.handles[h']? = some f' → f'.name = f.name →
      f'.pages.pageSize = f.pages.pageSize) :
    v.begun f.name f.pages.pageSize ≤ f.pages.pageCount ↔
      ∀ (h' : HandleId) (f' : HeapFile), v.handles[h']? = some f' → f'.name = f.name →
        f'.pages.pageCount ≤ f.pages.pageCount := by
  have hs := r.positive h f hf
  constructor
  · intro hle h' f' hf' hname
    have hcounted := r.counted h' f' hf'
    rw [hname, hone h' f' hf' hname] at hcounted
    exact hcounted.trans hle
  · intro hall
    obtain ⟨h', f', hf', hname, hspan⟩ := r.spanned h f hf
    rw [begun, ceilDiv_le_iff_le_mul hs]
    calc (v.folder.content f.name).length ≤ f'.pages.pageCount * f'.pages.pageSize := hspan
      _ = f'.pages.pageCount * f.pages.pageSize := by rw [hone h' f' hf' hname]
      _ ≤ f.pages.pageCount * f.pages.pageSize := Nat.mul_le_mul_right _ (hall h' f' hf' hname)
      _ = f.pages.pageSize * f.pages.pageCount := Nat.mul_comm ..

end Spanned

end Volume

end TupleStore
