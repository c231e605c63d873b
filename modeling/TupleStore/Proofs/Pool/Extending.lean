import TupleStore.Proofs.Appends
import TupleStore.Proofs.Pool.Browsing

/-!
# Pages appended where tables have one handle

Where no table has two handles, a handle counts all pages of its file. A page that is appended through it is then zeros
where there were none, and nothing else: no page that was there before has changed, in the cache or in its file, and not
even the new one, which was read as zeros before (`Settled.browses_appended`).

* `Store.appended` : the store with a page appended through a handle;
* `Volume.Roomy.law` : every page has room for a tuple, whatever happens to files;
* `Settled.blank` : the page that is to be appended is not cached, and is zeros.
-/

namespace TupleStore

set_option autoImplicit false

open TupleStore.Action

/-! ## Volumes -/

namespace Volume

variable {v v' : Volume} {h hd : HandleId} {f f' : HeapFile}

theorem Roomy.of_nil (hv : v.handles = []) : v.Roomy := fun h f hf => by simp [hv] at hf

/-- A page has room for a tuple, if a file can come to be or be opened with it. -/
theorem slots_pos {schema : Schema} {pageSize : Nat} (hfits : checkFits schema pageSize = .ok ()) :
    0 < (Layout.ofSchema schema pageSize).slots := by
  refine Nat.pos_of_ne_zero fun e => ?_
  rw [checkFits, if_pos e] at hfits
  cases hfits

theorem Roomy.addHandle (r : v.Roomy) (hs : 0 < f.layout.slots) : (v.addHandle f).2.Roomy := fun h f' hf' => by
  rcases List.mem_append.1 (List.mem_of_getElem? hf') with hin | hin
  · obtain ⟨i, hi⟩ := List.mem_iff_getElem?.1 hin
    exact r i f' hi
  · rw [List.mem_singleton.1 hin]
    exact hs

/-- It stays so that every page has room for a tuple. -/
theorem Roomy.law : Volume.Law Roomy where
  write {_ h f} r hf n _ _ := fun h' f' hf' => by
    rw [getElem?_written hf] at hf'
    split at hf'
    · cases hf'
      have hslots : 0 < f.layout.slots := r h f hf
      exact hslots
    · exact r h' f' hf'
  create {v _ _ _ _ _} r hv := by
    unfold Volume.create at hv
    split at hv
    · cases hv
    · rename_i hfits
      split at hv
      · cases hv
      · rename_i name folder _
        cases hv
        exact Roomy.addHandle (v := { v with folder }) r (slots_pos hfits)
  openFile r hv := by
    unfold Volume.openFile at hv
    split at hv
    · cases hv
    · rename_i hfits
      split at hv
      · cases hv
      · cases hv
        refine r.addHandle ?_
        unfold PageFile.ofContent?
        split <;> exact slots_pos hfits

/-- No table gets a second handle where tables grow. -/
theorem Single.extends (hone : v.Single) (e : v.Extends v') : v'.Single := fun h h' f f' hf hf' hid => by
  obtain ⟨g, hg, hshape⟩ := e.file_back hf
  obtain ⟨g', hg', hshape'⟩ := e.file_back hf'
  refine hone h h' g g' hg hg' ?_
  exact (congrArg Prod.fst hshape).symm.trans (hid.trans (congrArg Prod.fst hshape'))

/-- A handle counts all pages of its file, if there is no other one. -/
theorem Spanned.length_le (r : v.Spanned) (hone : v.Single) (hnamed : ∀ (h : HandleId) (f : HeapFile),
    v.handles[h]? = some f → f.id = tableId f.name) (hf : v.handles[h]? = some f) :
    (v.folder.content f.name).length ≤ f.pages.pageCount * f.pages.pageSize := by
  obtain ⟨h', f', hf', hname, hspan⟩ := r.spanned h f hf
  obtain rfl := hone.of_name hnamed hf' hf hname
  cases hf'.symm.trans hf
  exact hspan

end Volume

/-! ## Stores -/

/-- The table with another number of pages. -/
def HeapFile.withCount (f : HeapFile) (count : Nat) : HeapFile := { f with pages := { f.pages with pageCount := count } }

/-- The store with a page appended through a handle. -/
def Store.appended (s : Store) (hd : HandleId) (f : HeapFile) : Store :=
  { s with volume := s.volume.written hd f f.pages.pageCount (Bytes.zeros f.pages.pageSize) }

variable {s : Store} {pins : List FrameId} {hd : HandleId} {f : HeapFile}

namespace Store

/-- The handle counts one page more, and all others what they did. -/
theorem file?_appended (hf : s.file? hd = some f) (hd' : HandleId) : (s.appended hd f).file? hd' =
    if hd' = hd then some (f.withCount (f.pages.pageCount + 1)) else s.file? hd' := by
  have hget := Volume.getElem?_written hf f.pages.pageCount (Bytes.zeros f.pages.pageSize) hd'
  rwa [Nat.max_eq_right (Nat.le_succ _)] at hget

theorem grown_appended (hf : s.file? hd = some f) : s.volume.Extends (s.appended hd f).volume := by
  have hgrown := Volume.extends_allocatePage hf
  rwa [Volume.allocatePage_eq] at hgrown

namespace Settled

theorem length_le (h : s.Settled pins) (hone : s.volume.Single) (hf : s.file? hd = some f) :
    (s.volume.folder.content f.name).length ≤ f.pages.pageCount * f.pages.pageSize :=
  h.spanned.length_le hone h.tidy.tables.named hf

/-- Past the end of a file there are zeros. -/
theorem filePage_of_le (h : s.Settled pins) (hone : s.volume.Single) (hf : s.file? hd = some f) {n : Nat}
    (hn : f.pages.pageCount ≤ n) : s.volume.filePage f.name f.pages.pageSize n = Bytes.zeros f.pages.pageSize :=
  Bytes.window_of_le ((h.length_le hone hf).trans (Nat.mul_le_mul_right _ hn))

/-- No page of any file is another one than before. -/
theorem filePage_appended (h : s.Settled pins) (hone : s.volume.Single) (hf : s.file? hd = some f) {hd' : HandleId}
    {f' : HeapFile} (hf' : s.file? hd' = some f') (n : Nat) :
    (s.appended hd f).volume.filePage f'.name f'.pages.pageSize n = s.volume.filePage f'.name f'.pages.pageSize n := by
  by_cases hname : f'.name = f.name
  · obtain rfl := hone.of_name h.tidy.tables.named hf' hf hname
    obtain rfl : f' = f := Option.some.inj (hf'.symm.trans hf)
    have hwritten := Volume.filePage_written s.volume hd' f' f'.pages.pageCount
      (Bytes.length_zeros f'.pages.pageSize) f'.name n
    refine hwritten.trans ?_
    split
    · rename_i hn
      exact (h.filePage_of_le hone hf (Nat.le_of_eq hn.2.symm)).symm
    · rfl
  · exact Volume.filePage_written_of_ne _ _ _ _ _ hname ..

theorem onFile_appended (h : s.Settled pins) (hone : s.volume.Single) (hf : s.file? hd = some f) (q : PageId) :
    (s.appended hd f).onFile q = s.onFile q := by
  have hget := file?_appended hf
  unfold onFile Volume.pageBytes
  cases ht : s.volume.table? s.catalog q.table with
  | none =>
    have hnone : (s.appended hd f).volume.table? s.catalog q.table = none := by
      rw [Volume.table?, h.tidy.tables.handle_of_table?_eq_none ht]
    rw [show (s.appended hd f).catalog = s.catalog from rfl, hnone]
  | some x =>
    obtain ⟨hd', f'⟩ := x
    obtain ⟨hc, hf'⟩ := Volume.table?_eq_some_iff.1 ht
    have hpage := h.filePage_appended hone hf hf' q.number
    obtain ⟨f'', ht', hname, hsize⟩ : ∃ f'', (s.appended hd f).volume.table? s.catalog q.table = some (hd', f'') ∧
        f''.name = f'.name ∧ f''.pages.pageSize = f'.pages.pageSize := by
      have hd'' := hget hd'
      split at hd''
      · rename_i he
        subst he
        cases hf'.symm.trans hf
        exact ⟨_, Volume.table?_eq_some_iff.2 ⟨hc, hd''⟩, rfl, rfl⟩
      · exact ⟨f', Volume.table?_eq_some_iff.2 ⟨hc, hd''.trans hf'⟩, rfl, rfl⟩
    rw [show (s.appended hd f).catalog = s.catalog from rfl, ht']
    dsimp only
    rw [hname, hsize]
    exact hpage

theorem copies_appended (h : s.Settled pins) (hone : s.volume.Single) (hf : s.file? hd = some f) (q : PageId) :
    (s.appended hd f).copies q = s.copies q := by
  unfold copies
  rw [h.onFile_appended hone hf]
  rfl

/-- An append changes nothing that there is. -/
theorem browses_appended {pins' : List FrameId} (h : s.Settled pins') (hone : s.volume.Single)
    (hf : s.file? hd = some f) : s.Browses pins (s.appended hd f) where
  catalog := rfl
  config := rfl
  grown := grown_appended hf
  trace := List.suffix_rfl
  locks _ _ _ hl := hl
  copies q := h.copies_appended hone hf q ▸ .stays
  anchors q _ hq _ := ⟨hq, h.copies_appended hone hf q⟩
  files _ _ hf' n := .inl (h.filePage_appended hone hf hf' n)

/-- The file ends with the page. -/
theorem length_appended (h : s.Settled pins) (hone : s.volume.Single) (hf : s.file? hd = some f) :
    ((s.appended hd f).volume.folder.content f.name).length = (f.pages.pageCount + 1) * f.pages.pageSize := by
  have hle := h.length_le hone hf
  have hcontent : (s.appended hd f).volume.folder.content f.name = _ := (Volume.content_written ..).trans (if_pos rfl)
  rw [hcontent, Bytes.length_writeAt, Bytes.length_zeros, Nat.succ_mul]
  omega

/-- The page that is to be appended is not cached, and reads as zeros. -/
theorem blank (h : s.Settled pins) (hone : s.volume.Single) (hf : s.file? hd = some f) :
    s.pool.find? ⟨f.id, f.pages.pageCount⟩ = none ∧ (s.fault? f.id = none →
      (s.copies ⟨f.id, f.pages.pageCount⟩).shown = Bytes.zeros f.pages.pageSize) := by
  have hmiss : s.pool.find? ⟨f.id, f.pages.pageCount⟩ = none := by
    rw [Option.eq_none_iff_forall_ne_some]
    intro g hg
    obtain ⟨hd', f', hf', hid, hlt⟩ := h.housed g _ ((h.accounted.mapped _ g).1 hg)
    obtain rfl := hone hd' hd f' f hf' hf hid
    cases hf'.symm.trans hf
    exact Nat.lt_irrefl _ hlt
  refine ⟨hmiss, fun hfault => ?_⟩
  have huncached : (s.copies ⟨f.id, f.pages.pageCount⟩).cached = none := by
    unfold copies
    rw [hmiss]
    rfl
  rw [Copies.shown_of_uncached huncached]
  show s.onFile ⟨f.id, f.pages.pageCount⟩ = _
  unfold fault? Volume.pageSize? at hfault
  unfold onFile Volume.pageBytes
  cases ht : s.volume.table? s.catalog f.id with
  | none =>
    rw [ht] at hfault
    cases hfault
  | some x =>
    obtain ⟨hd', f'⟩ := x
    have hf' := (Volume.table?_eq_some_iff.1 ht).2
    obtain rfl := hone hd' hd f' f hf' hf (h.tidy.tables.id_eq ht)
    cases hf'.symm.trans hf
    exact h.filePage_of_le hone hf (Nat.le_refl _)

end Settled

end Store

end TupleStore
