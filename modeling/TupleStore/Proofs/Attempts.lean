import TupleStore.Proofs.Suiting

/-!
# Insertions and deletions that fail

Calls that insert or delete a tuple can fail when they begin, and at every page that they come to, also when they have
waited for it. Whatever has happened before, a call that fails has changed no tuple (`World.handleAll_unharmed`), and the
table has grown by one empty page at most (`World.handleAll_grows`).

Both hold where no table has two handles, and for every stretch of a call: from where it begins, or is taken up again, to
where it fails or has to wait. It reads pages, though, and for these others can have to make way. So a page that was
dirty can be written to its file, and a clean one that had been written past the cache is read anew.
-/

namespace TupleStore

set_option autoImplicit false

open TupleStore.Action

/-- The insertion that the call is. -/
def Call.insertion? : Call → Option Insertion
  | .insert i _ => some i
  | _ => none

theorem Call.eq_of_insertion? {c : Call} {q : Insertion} (h : c.insertion? = some q) : ∃ marks, c = .insert q marks := by
  cases c with
  | insert i marks =>
    obtain rfl : i = q := Option.some.inj h
    exact ⟨marks, rfl⟩
  | _ => cases h

/-- Whether the call inserts or deletes a tuple. -/
def Call.edits : Call → Bool
  | .insert _ _ => true
  | .delete _ _ => true
  | _ => false

variable {s : Store} {w : World} {events : List Event}

namespace Action.Ends

variable {α : Type} {x : Action α} {ok : α → Store → Prop} {err : Error → Store → Prop} {s' : Store}

theorem of_ok {a : α} (h : x.Ends s ok err) (hr : x s = .ok a s') : ok a s' := (ends_of_ok hr).1 h

theorem of_error {e : Error} (h : x.Ends s ok err) (hr : x s = .error e s') : err e s' := by
  unfold Ends at h
  rwa [hr] at h

end Action.Ends

theorem Volume.Single.of_nodup {v : Volume} (h : (v.handles.map HeapFile.id).Nodup) : v.Single := fun hd hd' f f' hf hf' hid => by
  have hlt : hd < (v.handles.map HeapFile.id).length := by
    rw [List.length_map]
    exact (List.getElem?_eq_some_iff.1 hf).1
  refine (List.getElem?_inj hlt h).1 ?_
  rw [List.getElem?_map, List.getElem?_map, hf, hf', Option.map_some, Option.map_some, hid]

theorem Store.Fresh.bare : Store.bare.Fresh where
  pool := ⟨_, rfl⟩
  tables := .of_named fun _ _ hf => nomatch hf
  spanned := .of_nil rfl
  roomy := .of_nil rfl

namespace World

/-- How a task fails that is to insert or delete a tuple. -/
def failure? (w : World) (i : Nat) : Option (Call × Error × Store) :=
  match w.tasks[i]? with
  | some (.call c) =>
    match c.run w.store with
    | .error e s => if c.edits then some (c, e, s) else none
    | .ok _ _ => none
  | _ => none

theorem of_failure? {i : Nat} {c : Call} {e : Error} {s' : Store} (h : w.failure? i = some (c, e, s')) :
    w.tasks[i]? = some (.call c) ∧ c.edits = true ∧
      Action.advance Call.step (c.fuel w.store) c w.store = .error e s' := by
  unfold failure? at h
  split at h
  · rename_i c' hi
    split at h
    · rename_i e' s₁ hr
      split at h
      · rename_i hedits
        cases h
        exact ⟨hi, hedits, hr⟩
      · cases h
    · cases h
  · cases h

/-- Whatever has happened to a store with an empty cache, an insertion that fails when it begins changes nothing, and
one that fails later leaves its table as long as it was, or with one empty page more if it had been shown all pages that
were ahead of it and they were full. So it is while it waits. -/
theorem handleAll_grows (hs : s.Fresh) (hw : w = handleAll events { store := s }) (hone : w.store.volume.Single) :
    (∀ start : Start, start.call.Ends w.store (fun c s' => s' = w.store ∧ start.Begins s' c) fun _ s' => s' = w.store) ∧
      ∀ (i : Nat) (q : Insertion) (marks : Bool), w.tasks[i]? = some (.call (.insert q marks)) →
        ∃ f, w.store.file? q.handle = some f ∧ ∀ n, (Action.advance Call.step n (.insert q marks)).Ends w.store
          ((Call.insert q marks).Halts (q.Grows f w.store)) fun _ s' => q.Grows f w.store s' := by
  refine ⟨fun start => start.ends_call.mono (fun _ _ h => ⟨h.1, h.1 ▸ h.2⟩) fun _ _ h => h, fun i q marks hi => ?_⟩
  obtain ⟨f, hf, hagrees⟩ := hs.suits hw _ (List.mem_of_getElem? hi)
  refine ⟨f, hf, fun n => ?_⟩
  have hsettled := (hs.settled hw).2
  exact ((hs.regular hw hi).insert_searches n hone hf hagrees).mono
    (fun _ _ h' => h'.mono fun _ hs => hs.grows hsettled hone hf) fun _ _ hs => hs.grows hsettled hone hf

/-- A table that is in no catalog. An integer is to be inserted through its handle. -/
def unlisted : List Event := [.create "t" ⟨[⟨.int, none⟩]⟩ 8, .op (.begin (.insert ⟨1⟩ 0 (.ofInt 7)))]

/-- There is no such table for the cache, but its file has a page now. -/
theorem handleAll_grows_unlisted :
    ((handleAll unlisted { store := .bare }).store.file? 0).map (fun f => f.pages.pageCount) = some 0 ∧
      ((handleAll unlisted { store := .bare }).store.volume.folder.content "t").length = 0 ∧
      ((handleAll unlisted { store := .bare }).failure? 0).map (fun x => (x.2.1,
        (x.2.2.file? 0).map (fun f => f.pages.pageCount), (x.2.2.volume.folder.content "t").length)) =
        some (.noSuchTable (Volume.tableId "t"), some 1, 8) := by
  decide +kernel

/-- A table whose only page is full, and is in the only frame, where a guard is on it. One more integer is to be
inserted. -/
def crowded : List Event :=
  [.create "t" ⟨[⟨.int, none⟩]⟩ 8, .register 0 "t", .op (.begin (.insert ⟨1⟩ 0 (.ofInt 7))), .op (.advance 0),
    .op (.advance 0), .op (.ask ⟨1⟩ (.ofT 0) .read), .op (.advance 0), .op (.advance 0), .op (.advance 0),
    .op (.begin (.insertById ⟨1⟩ (Volume.tableId "t") (.ofInt 8)))]

/-- The page has been found full, and another one has been appended, for which there is no frame. -/
theorem handleAll_grows_crowded :
    Store.bare.Fresh ∧ (handleAll crowded { store := .bare }).store.volume.Single ∧
      ∃ q marks s' f, (handleAll crowded { store := .bare }).failure? 0 =
          some (.insert q marks, .noEvictablePage, s') ∧ q.stage = .inspect 0 ∧ q.limit = 1 ∧
        (s'.file? q.handle).map (fun f => f.pages.pageCount) = some 2 ∧
        (handleAll crowded { store := .bare }).store.file? q.handle = some f ∧
        q.Grows f (handleAll crowded { store := .bare }).store s' := by
  have hone : (handleAll crowded { store := .bare }).store.volume.Single := .of_nodup (by decide +kernel)
  have hfails : ((handleAll crowded { store := .bare }).failure? 0).bind (fun x => x.1.insertion?.map fun q =>
      (q.stage, q.limit, (x.2.2.file? q.handle).map fun f => f.pages.pageCount, x.2.1)) =
        some (.inspect 0, 1, some 2, .noEvictablePage) := by decide +kernel
  obtain ⟨⟨c, e, s'⟩, hf, hq⟩ := Option.bind_eq_some_iff.1 hfails
  obtain ⟨q, hq, hparts⟩ := Option.map_eq_some_iff.1 hq
  simp only [Prod.mk.injEq] at hparts
  obtain ⟨hstage, hlimit, hcount, rfl⟩ := hparts
  obtain ⟨marks, rfl⟩ := Call.eq_of_insertion? hq
  obtain ⟨hi, -, hr⟩ := of_failure? hf
  obtain ⟨f, hfile, hgrows⟩ := (handleAll_grows Store.Fresh.bare rfl hone).2 0 q marks hi
  exact ⟨.bare, hone, q, marks, s', f, hf, hstage, hlimit, hcount, hfile, (hgrows _).of_error hr⟩

end World

end TupleStore
