import TupleStore.Proofs.Laws
import TupleStore.Proofs.Scanning

/-!
# Pages appended through any handle

A page that is appended through a handle gets the number of pages that this handle counts, and nothing looks at what
the file has there. Whatever has happened, this is past all pages of the file exactly if no other handle on the file
counts more of them (`World.handleAll_appends`). Otherwise a page that the handle does not know of is filled with
zeros, although its content may have been committed (`World.handleAll_appends_behind`).

* `Volume.Spanned.law` : handles count what is in their files, together all of it, and go on to do so;
* `Store.Appends` : what comes of a page appended through a handle.
-/

namespace TupleStore

set_option autoImplicit false

open TupleStore.Action

variable {s : Store}

/-- It stays so that handles count what is in their files, and together all of it. -/
theorem Volume.Spanned.law : Volume.Law Volume.Spanned where
  write r hf n _ hl := r.write hf n hl
  create r hv := r.create hv
  openFile r hv := r.openFile hv

/-- A page that is appended through a handle comes past all pages of a file, and they stay as they are. -/
def Store.AppendsPast (s : Store) (hd : HandleId) (name : String) (size : Nat) : Prop :=
  (allocatePage hd).Ends s
    (fun page s' => s.volume.begun name size ≤ page.number ∧
      ∀ n < s.volume.begun name size, s'.volume.filePage name size n = s.volume.filePage name size n)
    fun _ _ => False

/-- What comes of a page appended through a handle. -/
structure Store.Appends (s : Store) (hd : HandleId) (f : HeapFile) : Prop where
  /-- The page has the number of pages that the handle counts. -/
  told : (allocatePage hd).Ends s (fun page _ => page = ⟨f.id, f.pages.pageCount⟩) fun _ _ => False
  /-- It holds zeros, whatever was there. All other pages are as they were. -/
  shown : (allocatePage hd).Ends s
    (fun _ s' => ∀ name n, s'.volume.filePage name f.pages.pageSize n =
      if name = f.name ∧ n = f.pages.pageCount then Bytes.zeros f.pages.pageSize
      else s.volume.filePage name f.pages.pageSize n)
    fun _ _ => False
  /-- An insertion that has found no room does the same. -/
  inserted : ∀ (i : Insertion) (number : Nat), i.handle = hd → i.stage = .inspect number → i.limit ≤ number →
    i.step s = (do
      let page ← allocatePage hd
      pure (.moved (i.goto (.place page.number))) : Action (Progress Insertion (PageId × Tuple))) s
  /-- No other handle counts it. -/
  unseen : (allocatePage hd).Ends s (fun _ s' => ∀ hd', hd' ≠ hd → s'.file? hd' = s.file? hd') fun _ _ => False
  /-- It lies past all pages of the file, and they are as they were, exactly if no handle on the file counts more. -/
  past_iff : (∀ (hd' : HandleId) (f' : HeapFile), s.file? hd' = some f' → f'.name = f.name →
      f'.pages.pageSize = f.pages.pageSize) →
    (s.AppendsPast hd f.name f.pages.pageSize ↔
      ∀ (hd' : HandleId) (f' : HeapFile), s.file? hd' = some f' → f'.name = f.name →
        f'.pages.pageCount ≤ f.pages.pageCount)

/-- Zeros are written where the handle has the end of the file. -/
theorem Action.allocatePage_eq {hd : HandleId} {f : HeapFile} (hf : s.file? hd = some f) :
    allocatePage hd s = .ok ⟨f.id, f.pages.pageCount⟩
      { s with volume := s.volume.written hd f f.pages.pageCount (Bytes.zeros f.pages.pageSize) } := by
  unfold allocatePage
  rw [bind_of_ok (file_of_some hf), bind_of_ok (run_get s), Volume.allocatePage_eq]
  rfl

/-- A handle that counts fewer pages than the file has does not come past them. -/
theorem Store.not_appendsPast {hd : HandleId} {f : HeapFile} (hf : s.file? hd = some f) {name : String} {size : Nat}
    (hbehind : f.pages.pageCount < s.volume.begun name size) : ¬ s.AppendsPast hd name size := fun h =>
  absurd ((ends_of_ok (allocatePage_eq hf)).1 h).1 (Nat.not_le.2 hbehind)

theorem Volume.Spanned.appends (r : s.volume.Spanned) {hd : HandleId} {f : HeapFile} (hf : s.file? hd = some f) :
    s.Appends hd f := by
  have hallocate := Action.allocatePage_eq hf
  have hpages := Volume.filePage_written s.volume hd f f.pages.pageCount (Bytes.length_zeros f.pages.pageSize)
  exact {
    told := (ends_of_ok hallocate).2 rfl
    shown := (ends_of_ok hallocate).2 hpages
    unseen := (ends_of_ok hallocate).2 fun hd' hne => (Volume.getElem?_written hf _ _ hd').trans (if_neg hne)
    inserted := fun i number hhd hstage hle => by
      unfold Insertion.step
      rw [bind_of_ok (file_of_some (hhd ▸ hf)), hstage]
      dsimp only
      rw [if_neg (Nat.not_lt.2 hle), hhd]
    past_iff := fun hone => by
      unfold Store.AppendsPast
      rw [ends_of_ok hallocate]
      refine Iff.trans (and_iff_left_of_imp fun hle n hn => ?_) (r.begun_le_iff hf hone)
      have hne : n ≠ f.pages.pageCount := fun e => absurd hn (Nat.not_lt.2 (e ▸ hle))
      rw [hpages, if_neg fun hh => hne hh.2] }

/-- A store of no files, whose cache has one frame. -/
def Store.bare : Store := { pool := .ofConfig { pageSize := 8, poolPages := 1 } }

namespace World

/-- Whatever has happened since the first file came to be or was opened, a page that is appended through a handle is
appended to what this handle knows of the file. -/
theorem handleAll_appends {config : Config} (hp : s.pool = .ofConfig config) (hs : s.volume.handles = [])
    (events : List Event) {hd : HandleId} {f : HeapFile}
    (hf : (handleAll events { store := s }).store.file? hd = some f) :
    (handleAll events { store := s }).store.Appends hd f := by
  obtain ⟨volume, catalog, log, pool, trace⟩ := s
  obtain rfl : pool = .ofConfig config := hp
  have hb := Balanced.ofConfig ⟨volume, catalog, log, .ofConfig config, trace⟩ config
  exact (obeys_handleAll Volume.Spanned.law events hb (.of_nil hs)).appends hf

/-- A file of integers comes to be, and is opened once more. A transaction inserts an integer through the first handle,
and commits. -/
def committing : List Event :=
  [.create "t" ⟨[⟨.int, none⟩]⟩ 8, .openFile "t" ⟨[⟨.int, none⟩]⟩ 8, .register 0 "t",
    .op (.begin (.insert ⟨1⟩ 0 (.ofInt 7))), .op (.advance 0), .op (.advance 0), .op (.complete ⟨1⟩ true)]

theorem file?_committing :
    ∃ f, (handleAll committing { store := .bare }).store.file? 1 = some f ∧ f.name = "t" ∧ f.pages = ⟨8, 0⟩ := by
  have hmap : ((handleAll committing { store := .bare }).store.file? 1).map (fun f => (f.name, f.pages)) =
      some ("t", ⟨8, 0⟩) := by decide +kernel
  obtain ⟨f, hf, hparts⟩ := Option.map_eq_some_iff.1 hmap
  exact ⟨f, hf, Prod.mk.inj hparts⟩

theorem handleAll_appends_committing :
    Store.bare.pool = .ofConfig { pageSize := 8, poolPages := 1 } ∧ Store.bare.volume.handles = [] ∧
      ∃ f, (handleAll committing { store := .bare }).store.file? 1 = some f ∧
        (handleAll committing { store := .bare }).store.Appends 1 f := by
  obtain ⟨f, hf, -⟩ := file?_committing
  have hp : Store.bare.pool = .ofConfig { pageSize := 8, poolPages := 1 } := rfl
  exact ⟨hp, rfl, f, hf, handleAll_appends hp rfl committing hf⟩

/-- The other handle still counts no page. What is appended through it is the page with the integer, which is lost. -/
theorem handleAll_appends_behind :
    ¬ (handleAll committing { store := .bare }).store.AppendsPast 1 "t" 8 ∧
      (handleAll committing { store := .bare }).store.volume.filePage "t" 8 0 = [1, 0, 0, 0, 7, 0, 0, 0] ∧
      (handleAll (committing ++ [.op (.allocate 1)]) { store := .bare }).store.volume.filePage "t" 8 0 =
        [0, 0, 0, 0, 0, 0, 0, 0] ∧
      ((handleAll (committing ++ [.op (.allocate 1), .discard (.ofT 0), .op (.begin (.scan ⟨2⟩ 0)), .op (.advance 0)])
        { store := .bare }).found? 0).map Prod.snd = some [] := by
  refine ⟨?_, by decide +kernel, by decide +kernel, ?_⟩
  · obtain ⟨f, hf, -, hpages⟩ := file?_committing
    have hbegun : (handleAll committing { store := .bare }).store.volume.begun "t" 8 = 1 := by decide +kernel
    refine Store.not_appendsPast hf ?_
    rw [hbegun, hpages]
    exact Nat.one_pos
  · have hfound : ((handleAll (committing ++ [.op (.allocate 1), .discard (.ofT 0), .op (.begin (.scan ⟨2⟩ 0)),
        .op (.advance 0)]) { store := .bare }).found? 0).map (fun x => x.2.isEmpty) = some true := by decide +kernel
    obtain ⟨x, hx, hempty⟩ := Option.map_eq_some_iff.1 hfound
    rw [hx, Option.map_some, List.isEmpty_iff.1 hempty]

end World

end TupleStore
