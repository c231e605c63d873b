import TupleStore.Proofs.Pool.Granting
import TupleStore.Proofs.Refinement

/-!
# What is in the files

A page that no transaction has changed since it began has its committed bytes in its file, whatever was
written there in between. So the commit of a transaction leaves the final bytes of its pages in their files,
and a rollback those from before, and a cache that is new gives them to whoever asks.

`World.Durable` says this of a world, and holds after every run.
-/

namespace TupleStore

set_option autoImplicit false

open TupleStore.Action

/-- A new cache over the files gives a page with these bytes to whoever asks for it. -/
def Store.Reopens (s : Store) (page : PageId) (bytes : Bytes) : Prop :=
  ∀ poolPages s', s.newPool poolPages = .ok s' → ∀ t mode, (Action.request t page mode).Ends s'
    (fun g s'' => ∃ guard, g = some guard ∧ guard.bytes s'' = bytes) fun _ _ => False

/-- The file of a page has these bytes, and so has a new cache. -/
structure Store.Keeps (s : Store) (page : PageId) (bytes : Bytes) : Prop where
  file : s.onFile page = bytes
  reopens : s.Reopens page bytes

/-- What is committed is in the files, but for pages that transactions have changed and not ended. -/
structure World.Durable (first : PageId → Bytes) (w : World) : Prop where
  /-- A page that no transaction has changed has its committed bytes in its file. -/
  clean : ∀ page, (∀ t, (w.contents first).own t page = none) → w.store.onFile page = (w.contents first).committed page
  /-- A new cache has them too, if the page is there. -/
  reopened : ∀ page, (∀ t, (w.contents first).own t page = none) →
    w.store.volume.HasPage w.store.catalog w.store.pool.config.pageSize page →
    w.store.Reopens page ((w.contents first).committed page)
  /-- A transaction that ends leaves its final bytes in the files, or those from before it began. -/
  ended : ∀ t wantsCommit, w.uses? t = false → (Action.complete t wantsCommit).Ends w.store
    (fun _ s => ∀ page, (w.contents first).own t page ≠ none →
      s.Keeps page (if wantsCommit then (w.contents first).view t page else (w.contents first).committed page))
    fun e s => e = .deadlock t ∧ ∀ page, (w.contents first).own t page ≠ none →
      s.Keeps page ((w.contents first).committed page)

variable {s₀ s s' : Store} {w : World} {uses : List Use} {page : PageId} {t : TxnId} {commits : Bool}

/-! ## Pages and their files -/

theorem Stands.onFile_eq (h : Stands s₀ uses s) (hin : Inside s.trace)
    (hown : ∀ t, (contents s₀.onFile s.trace).own t page = none) :
    s.onFile page = (contents s₀.onFile s.trace).committed page := by
  obtain ⟨hc, ho, hout⟩ := account_of_contents s₀.onFile hin page
  have hfile := (h.pages page).clean fun t => (ho t).trans (hown t)
  rw [hout, Option.getD_none, hc] at hfile
  exact hfile

/-- A page that a transaction has changed is there, and no other transaction has changed it. -/
theorem Stands.of_own (h : Stands s₀ uses s) (hin : Inside s.trace)
    (hown : (contents s₀.onFile s.trace).own t page ≠ none) :
    s.volume.HasPage s.catalog s.pool.config.pageSize page ∧
      ∀ u, u ≠ t → (contents s₀.onFile s.trace).own u page = none := by
  obtain ⟨-, ho, -⟩ := account_of_contents s₀.onFile hin page
  have hp := h.pages page
  have hopener := hp.own t fun e => hown ((ho t).symm.trans e)
  refine ⟨?_, fun u hu => (ho u).symm.trans (hp.own_of_ne hopener hu)⟩
  obtain ⟨b, hb, -⟩ := Option.map_eq_some_iff.1 (hp.opener.symm.trans hopener)
  unfold Copies.before at hb
  split at hb
  · exact ((h.fit page).kept b hb).1
  · rename_i c hc
    exact ((h.fit page).cached c hc).1

theorem Stands.reopens (h : Stands s₀ uses s) (hin : Inside s.trace)
    (hown : ∀ t, (contents s₀.onFile s.trace).own t page = none)
    (hthere : s.volume.HasPage s.catalog s.pool.config.pageSize page) :
    s.Reopens page ((contents s₀.onFile s.trace).committed page) := by
  intro poolPages s' hnew t mode
  rw [← h.onFile_eq hin hown]
  exact ends_request_newPool hnew h.ground.files hthere t mode

/-- Once a transaction has ended, nobody has anything in its pages, and they have what it is to leave in them. -/
theorem Finished.settled (hf : Finished t commits s s') (h : Stands s₀ uses s) (hin : Inside s.trace)
    (hown : (contents s₀.onFile s.trace).own t page ≠ none) :
    (∀ u, (contents s₀.onFile s'.trace).own u page = none) ∧
      (contents s₀.onFile s'.trace).committed page = if commits then (contents s₀.onFile s.trace).view t page
        else (contents s₀.onFile s.trace).committed page := by
  obtain ⟨-, hothers⟩ := h.of_own hin hown
  rw [hf.contents_eq s₀.onFile]
  refine ⟨fun u => ?_, ?_⟩
  · by_cases hu : u = t
    · exact congrFun (if_pos hu) page
    · exact (congrFun (if_neg hu) page).trans (hothers u hu)
  · cases commits <;> rfl

/-- Once a transaction has ended, the files have what it is to leave in them. -/
theorem Finished.keeps (hf : Finished t commits s s') (h : Stands s₀ uses s) (h' : Stands s₀ uses s')
    (hin : Inside s.trace) (hown : (contents s₀.onFile s.trace).own t page ≠ none) :
    s'.Keeps page (if commits then (contents s₀.onFile s.trace).view t page
      else (contents s₀.onFile s.trace).committed page) := by
  obtain ⟨hthere, -⟩ := h.of_own hin hown
  obtain ⟨hnone, hcommitted⟩ := hf.settled h hin hown
  have hthere' : s'.volume.HasPage s'.catalog s'.pool.config.pageSize page := by
    have := hthere.extends hf.files
    rwa [h.ground.catalog, h.ground.config, ← h'.ground.catalog, ← h'.ground.config] at this
  rw [← hcommitted]
  exact ⟨h'.onFile_eq (hf.inside hin) hnone, h'.reopens (hf.inside hin) hnone hthere'⟩

/-! ## Runs -/

namespace World

theorem Stands.durable (h : w.Stands s₀) (hin : Inside w.store.trace) : w.Durable s₀.onFile where
  clean _ hown := h.store.onFile_eq hin hown
  reopened _ hown hthere := h.store.reopens hin hown hthere
  ended _ wantsCommit hu := (h.store.complete (away_of_uses? s₀ hu) wantsCommit).mono
    (fun _ _ hs _ hown => hs.2.1.keeps h.store hs.1 hin hown)
    fun _ _ hs => ⟨hs.2.2.1, fun _ hown => hs.2.1.keeps h.store hs.1 hin hown⟩

/-- After every run on a store that has just been opened, the files have what is committed. -/
theorem run_durable (o : Opening s₀) (ops : List Op) (hops : ∀ op ∈ ops, op.Cached) :
    (run ops { store := s₀ }).Durable s₀.onFile :=
  (stands_run o ops).durable (inside_run o hops)

/-- A page that was driven out of the only frame with changes, which are then undone. -/
theorem run_durable_stealing :
    Opening .narrow ∧ (∀ op ∈ Op.stealing false, op.Cached) ∧
      .wrote (.ofT 0) [99, 1, 2, 3, 4, 5, 6, 7] ∈ (run (Op.stealing false) { store := .narrow }).store.trace ∧
      (run (Op.stealing false) { store := .narrow }).store.onFile (.ofT 0) = [0, 1, 2, 3, 4, 5, 6, 7] ∧
      (run (Op.stealing false) { store := .narrow }).Durable Store.narrow.onFile :=
  ⟨Opening.narrow, cached_stealing false, by decide +kernel, by decide +kernel,
    run_durable Opening.narrow (Op.stealing false) (cached_stealing false)⟩

end World

end TupleStore
