import TupleStore.Proofs.Custody

/-!
# Calls

The invariant is kept by every step of a call and of a cursor, and by what the owner of a file does with it, also
beside transactions that end, which themselves call nothing.

* `Standing.custody` : what requests and calls are built of keeps the invariant, and so do they;
* `Standing.allocatePage`, `Standing.writeRaw` : the owner of a file.
-/

namespace TupleStore

set_option autoImplicit false

open TupleStore.Action

variable {s₀ s : Store} {uses : List Use} {endings : List Ending}

namespace Standing

/-! ## Tables -/

theorem allocatePage (h : Standing endings s₀ uses s) (hd : HandleId) :
    (Action.allocatePage hd).Ends s (fun _ s' => Standing endings s₀ uses s') fun _ s' => Standing endings s₀ uses s' := by
  unfold Action.allocatePage
  rw [ends_bind]
  refine (ends_file_extends h.ground.grown hd).mono (fun file s' h' => ?_) fun _ s' h' => h'.1 ▸ h
  obtain ⟨rfl, hfile, -⟩ := h'
  rw [ends_bind, ends_get]
  obtain ⟨hreg, hgrown, hbytes⟩ := h.ground.files.allocatePage hfile
  exact h.same (h.toInvariant.revolume hreg hgrown hbytes) rfl

/-- The owner of a file writes a page past the cache. -/
theorem writeRaw (h : Standing endings s₀ uses s) (hd : HandleId) (page : PageId) (bytes : Bytes) :
    (Action.writeRaw hd page bytes).Ends s (fun _ s' => Standing endings s₀ uses s')
      fun _ s' => Standing endings s₀ uses s' := by
  unfold Action.writeRaw
  rw [ends_bind]
  have hput : (Action.putPage hd page bytes).Ends s
      (fun _ s' => Standing endings s₀ uses { s' with trace := .rewrote page bytes :: s'.trace }) fun _ s' => s' = s := by
    by_cases hok : ∃ file, s.volume.handles[hd]? = some file ∧ page.table = file.id ∧
        bytes.length = file.pages.pageSize
    · obtain ⟨file, hfile, htable, hl⟩ := hok
      obtain ⟨v, hv, -, h', hself, -⟩ := (h.off page).putPage bytes hfile htable hl (e := .rewrote page bytes) trivial
        (fun _ _ ht => ht) (fun _ _ hu => hu) fun q a hq => if_neg (Ne.symm hq)
      rw [ends_of_ok hv]
      refine h.same (h'.on ?_) rfl
      show Parted endings s.mode? uses page _ ((account s₀.onFile s.trace page).record page _)
      rw [hself, show ∀ a : Account, a.record page (.rewrote page bytes) = { a with outside := some bytes } from
        fun a => if_pos rfl]
      exact (h.pages page).rewrite h.proper bytes
    · unfold Action.putPage
      rw [ends_bind]
      refine (ends_file_extends h.ground.grown hd).mono (fun file s' h' => ?_) fun _ s' h' => h'.1
      obtain ⟨rfl, hfile, -⟩ := h'
      have hbad : ∃ e, s'.volume.writePage hd file page bytes = .error e := by
        unfold Volume.writePage PageFile.write
        by_cases htable : page.table = file.id
        · rw [if_pos htable, if_neg fun hl => hok ⟨file, hfile, htable, hl⟩]
          exact ⟨_, rfl⟩
        · rw [if_neg htable]
          exact ⟨_, rfl⟩
      obtain ⟨e, he⟩ := hbad
      rw [ends_bind, ends_get, he]
      exact rfl
  exact hput.mono (fun _ _ h' => h') fun _ s' h' => h' ▸ h

/-! ## Requests and calls -/

/-- Who does not end asks for locks, and may mark a page that it has open. -/
theorem custody (s₀ : Store) (endings : List Ending) :
    Custody .any s₀ (fun _ _ => True)
      (fun t page s => (account s₀.onFile s.trace page).opener = some t ∧ ∀ e ∈ endings, e.txn ≠ t)
      (Standing endings s₀) (fun t => ∀ e ∈ endings, e.txn ≠ t) where
  perm h e := h.perm e
  grown h := h.ground.grown
  allocatePage hd h := h.allocatePage hd
  lock r ht _ h := (Standing.lock h ht).mono (fun p _ h' => by
    cases p with
    | finished g => exact h'
    | moved r' => exact ⟨h'.1, fun _ _ => trivial, h'.2⟩
    | blocked r' => exact ⟨h'.1, fun _ _ => trivial, h'.2⟩) fun _ _ h' => h'
  enter _ _ h := h.same (h.toInvariant.modifyFrame_of_copy (h.pool.modifyFrame _ (fun _ => rfl) fun _ => rfl)
    (fun _ => rfl) h.covered fun _ _ hw => Or.inl hw) rfl
  look hu h := by
    obtain ⟨h', -, -⟩ := h.look hu
    exact h'
  beginChange h _ hm := (h.beginChange hm).mono (fun _ _ h' => ⟨h'.1, trivial, h'.2⟩) fun _ _ h' => h'
  setBytes h _ hm hc hl := (h.setBytes hm hc hl).mono (fun _ _ h' => ⟨trivial, h'.1⟩) fun _ _ h' => h'
  release h _ hm := ⟨(h.release hm).1, fun hc _ => ⟨(h.release hm).2 hc, h.txn_ne_of_use (List.mem_cons_self ..) rfl⟩⟩
  mark hm h := h.markDirty hm.2 hm.1

end Standing

namespace Stands

/-- A handle stands for the same table as at the beginning. -/
theorem file (h : Stands s₀ uses s) (hd : HandleId) :
    (Action.file hd).Ends s
      (fun file s' => s' = s ∧ s.volume.handles[hd]? = some file ∧ ∃ file₀, s₀.file? hd = some file₀ ∧ file₀.id = file.id)
      fun _ s' => s' = s ∧ s₀.file? hd = none :=
  ends_file_extends h.ground.grown hd

/-- A page that is used has the bytes that its user is to see. -/
theorem bytes_eq_view {u : Use} {t : TxnId} {m : LockMode} (h : Stands s₀ uses s) (hu : u ∈ uses)
    (ht : u.holder = some (t, m)) :
    (s.pool.frame u.frame).bytes = (account s₀.onFile s.trace u.page).view t := by
  rw [← standing_nil] at h
  exact h.bytes_eq_view hu ht

theorem beginChange {g : Guard} (h : Stands s₀ (g.use :: uses) s) (hm : g.mode = .write) :
    g.beginChange.Ends s
      (fun g' s' => g' = { g with changed := true } ∧ Stands s₀ (g'.use :: uses) s' ∧ g'.bytes s' = g.bytes s)
      fun _ _ => False := by
  rw [← standing_nil] at h ⊢
  exact h.beginChange hm

theorem writeRaw (h : Stands s₀ uses s) (hd : HandleId) (page : PageId) (bytes : Bytes) :
    (Action.writeRaw hd page bytes).Ends s (fun _ s' => Stands s₀ uses s') fun _ s' => Stands s₀ uses s' := by
  rw [← standing_nil] at h ⊢
  exact h.writeRaw hd page bytes

/-- A page may be marked by who has it open. -/
theorem custody (s₀ : Store) :
    Custody .any s₀ (fun _ _ => True) (fun t page s => (account s₀.onFile s.trace page).opener = some t) (Stands s₀) := by
  have c := Standing.custody s₀ []
  rw [standing_nil] at c
  exact { c with
    lock := fun r _ => c.lock r nofun
    release := fun h hon hm => ⟨(c.release h hon hm).1, fun hc hmay => ((c.release h hon hm).2 hc hmay).1⟩
    mark := fun hm => c.mark ⟨hm, nofun⟩ }

/-- A request on its way: it ends in a guard, or keeps its page and its lock to ask for. -/
theorem requestRun {r : Request} (h : Stands s₀ (r.uses ++ uses) s) :
    r.run.Ends s
      (fun a s' => match a with
        | .done g => g.Answers r ∧ Stands s₀ (g.use :: uses) s'
        | .waiting r' => (∃ stage, r' = r.goto stage) ∧ Stands s₀ (r'.uses ++ uses) s')
      fun _ s' => Stands s₀ uses s' :=
  ((custody s₀).requestRun (.of_any ..) h).mono (fun a _ h' => by
    cases a with
    | done g => exact ⟨h'.1, h'.2.2⟩
    | waiting r' => exact h') fun _ _ h' => h'

theorem andThen {σ α : Type} {r : Request} (h : Stands s₀ (r.uses ++ uses) s) {waiting : RequestStage → σ}
    {body : Guard → Action (Progress σ α)} {good : Progress σ α → Store → Prop} {bad : Error → Store → Prop}
    (hbody : ∀ g s', g.Answers r → Stands s₀ (g.use :: uses) s' → (body g).Ends s' good bad)
    (hwait : ∀ stage s', Stands s₀ ((r.goto stage).uses ++ uses) s' → good (.blocked (waiting stage)) s')
    (herr : ∀ e s', Stands s₀ uses s' → bad e s') : (r.andThen waiting body).Ends s good bad :=
  (custody s₀).andThen (.of_any ..) h (fun g s' hg _ h' => hbody g s' hg h') hwait herr

end Stands

end TupleStore
