import TupleStore.Pool.Request
import TupleStore.Proofs.Pool.Fetching

/-!
# Pages given without waiting

A transaction that asks for a page waits for a lock, for a frame and for a latch. Where all three are free it
is given the page at once (`ends_request_free`), with the bytes that it has in its file. So it is in a cache that
is new: `ends_request_newPool`.
-/

namespace TupleStore

set_option autoImplicit false

open TupleStore.Action

variable {s s' : Store} {page : PageId} {t : TxnId} {f : FrameId} {rest : List FrameId}

/-! ## Frames -/

theorem Pool.reclaim_of_nil {p : Pool} (h : p.pendingFree = []) : p.reclaim = p := by
  unfold Pool.reclaim
  rw [h]
  obtain ⟨⟩ := p
  cases h
  rfl

theorem takeFrame_of_free (hpending : s.pool.pendingFree = []) (hfree : s.pool.free = f :: rest) :
    takeFrame s = .ok f (s.modifyPool fun p => { p with free := rest }) := by
  have hreclaim : s.modifyPool Pool.reclaim = s := by
    unfold Store.modifyPool
    rw [Pool.reclaim_of_nil hpending]
  have hrun : modifyPool Pool.reclaim s = .ok () s := congrArg (EStateM.Result.ok ()) hreclaim
  unfold takeFrame
  rw [bind_of_ok hrun, bind_of_ok (run_get s), hfree]
  rfl

theorem readPage_eq (hfiles : s.volume.Registered s.catalog) {hd : HandleId} {file : HeapFile}
    (hfile : s.volume.handles[hd]? = some file) (htable : page.table = file.id)
    (hnumber : page.number < file.pages.pageCount) : readPage hd page s = .ok (s.onFile page) s := by
  have hbytes := hfiles.readPage hfile page
  rw [if_pos ⟨htable, hnumber⟩] at hbytes
  unfold readPage
  rw [bind_of_ok (file_of_some (s := s) hfile), bind_of_ok (run_get s), hbytes]
  rfl

theorem Pool.frame_install_pin {p : Pool} (hf : f < p.frames.length) (page : PageId) (bytes : Bytes) :
    (((p.install f page bytes).pin f).touch f).frame f =
      { p.frame f with
        bytes
        page := some page
        dirtyBy := none
        before := p.retained[page]?
        pins := (p.frame f).pins + 1 } := by
  let put (x : Frame) : Frame := { x with bytes, page := some page, dirtyBy := none, before := p.retained[page]? }
  show ((p.modifyFrame f put).modifyFrame f fun x => { x with pins := x.pins + 1 }).frame f = _
  rw [Pool.frame_modifyFrame, if_pos ⟨rfl, by rwa [Pool.length_modifyFrame]⟩, Pool.frame_modifyFrame,
    if_pos ⟨rfl, hf⟩]

/-- A page that is there comes into a frame that holds nothing, if there is one. -/
theorem ends_fetch_free (hfiles : s.volume.Registered s.catalog)
    (hthere : s.volume.HasPage s.catalog s.pool.config.pageSize page) (hmiss : s.pool.find? page = none)
    (hpending : s.pool.pendingFree = []) (hfree : s.pool.free = f :: rest) (hf : f < s.pool.frames.length) :
    (Action.fetch page).Ends s
      (fun g s' => g = f ∧ (s'.pool.frame f).bytes = s.onFile page ∧ (s'.pool.frame f).latch = (s.pool.frame f).latch)
      fun _ _ => False := by
  let s₁ := s.modifyPool fun p => p.count fun c => { c with misses := c.misses + 1 }
  have hground : Grounded s s₁.volume s₁.catalog s₁.pool.config := ⟨hfiles, .refl _, rfl, rfl⟩
  obtain ⟨hd, file, hres, hfile, htable, -⟩ := resolve_eq (s := s₁) hground (hground.hasTable hthere)
  have hnumber : page.number < file.pages.pageCount := by
    obtain ⟨hd', file', ht, -, hn⟩ := hthere
    rw [htable, hfiles.table?_eq hfile] at ht
    cases ht
    exact hn
  unfold Action.fetch
  rw [ends_bind, ends_get]
  simp only [hmiss]
  unfold load
  rw [ends_bind, ends_modifyPool, ends_bind, ends_of_ok hres, ends_bind,
    ends_of_ok (readPage_eq (s := s₁) hfiles hfile htable hnumber), ends_bind, ends_modifyPool, ends_bind,
    ends_of_ok (takeFrame_of_free (by exact hpending) (by exact hfree)), ends_bind, ends_modifyPool, ends_bind, ends_note, ends_pure]
  simp only [Store.modifyPool, Pool.count]
  rw [Pool.frame_install_pin]
  · exact ⟨trivial, rfl, rfl⟩
  · exact hf

/-! ## Requests -/

/-- Who comes to a frame that nobody uses goes to work at once. -/
theorem ends_enter_free (r : Request) (hlatch : (s.pool.frame f).latch = {}) :
    (Action.advance Request.step 2 (r.goto (.fetched f))).Ends s
      (fun a s' => ∃ guard, a = .done guard ∧ guard.bytes s' = (s.pool.frame f).bytes) fun _ _ => False := by
  have hclear : ((s.pool.enter f r.mode).frame f).latch.isClear r.mode = true := by
    unfold Pool.enter
    rw [Pool.frame_modifyFrame]
    split
    · rw [hlatch]
      cases r.mode <;> rfl
    · rw [hlatch]
      cases r.mode <;> rfl
  have hbytes : ((s.pool.enter f r.mode).frame f).bytes = (s.pool.frame f).bytes :=
    Pool.modifyFrame_keeps s.pool f f Frame.bytes fun _ => rfl
  have hadmits : (s.pool.frame f).latch.admits = true := by rw [hlatch]; rfl
  rw [Action.advance, ends_bind]
  unfold Request.step
  rw [ends_bind, ends_get]
  simp only [Request.goto, hadmits, if_true]
  rw [ends_bind, ends_modifyPool, ends_pure]
  dsimp only
  rw [Action.advance, ends_bind, ends_bind, ends_get]
  simp only [Store.modifyPool, hclear, if_true]
  unfold Guard.look
  rw [ends_bind, ends_bind, ends_get, ends_bind, ends_note, ends_pure, ends_pure]
  exact ⟨_, rfl, hbytes⟩

/-- A page that is there is given to whoever asks for it, if its lock is free and so is a frame. -/
theorem ends_request_free (hfiles : s.volume.Registered s.catalog)
    (hthere : s.volume.HasPage s.catalog s.pool.config.pageSize page) (hmiss : s.pool.find? page = none)
    (hpending : s.pool.pendingFree = []) (hfree : s.pool.free = f :: rest) (hf : f < s.pool.frames.length)
    (hlatch : (s.pool.frame f).latch = {}) (hdoomed : s.pool.isDoomed t = false) (mode : LockMode)
    (hlock : (s.pool.locks.acquire t page mode).1 = .granted) :
    (Action.request t page mode).Ends s (fun g s' => ∃ guard, g = some guard ∧ guard.bytes s' = s.onFile page)
      fun _ _ => False := by
  have hrun : (Request.run ⟨t, page, mode, .fresh⟩).Ends s
      (fun a s' => ∃ guard, a = .done guard ∧ guard.bytes s' = s.onFile page) fun _ _ => False := by
    rcases hacquire : s.pool.locks.acquire t page mode with ⟨answer, locks⟩
    rw [hacquire] at hlock
    obtain rfl : answer = .granted := hlock
    let s₁ := s.modifyPool fun p => { p with locks }
    have hfetch := ends_fetch_free (s := s₁) hfiles hthere hmiss hpending hfree hf
    unfold Request.run
    rw [Action.advance, ends_bind]
    unfold Request.step
    rw [ends_bind, ends_get]
    simp only [hdoomed, Bool.false_eq_true, if_false]
    unfold Request.lock
    rw [ends_bind, ends_get]
    simp only [hacquire]
    rw [ends_bind, ends_modifyPool, ends_bind]
    refine hfetch.mono (fun g s₂ h₂ => ?_) fun _ _ h₂ => h₂
    obtain ⟨rfl, hbytes, hclear⟩ := h₂
    rw [ends_pure]
    refine (ends_enter_free ⟨t, page, mode, .fresh⟩ (hclear.trans hlatch)).mono (fun a s₃ h₃ => ?_) fun _ _ h₃ => h₃
    obtain ⟨guard, ha, hg⟩ := h₃
    exact ⟨guard, ha, hg.trans hbytes⟩
  unfold Ends at hrun ⊢
  unfold Action.request
  cases hr : Request.run ⟨t, page, mode, .fresh⟩ s with
  | error e s' =>
    rw [hr] at hrun
    exact hrun.elim
  | ok a s' =>
    rw [hr] at hrun
    obtain ⟨guard, rfl, hg⟩ := hrun
    exact ⟨guard, rfl, hg⟩

/-! ## New caches -/

theorem Store.of_newPool {poolPages : Nat} (h : s.newPool poolPages = .ok s') :
    poolPages ≠ 0 ∧ s' = { s with pool := .ofConfig { s.pool.config with poolPages } } := by
  unfold Store.newPool Config.validate at h
  by_cases h₀ : poolPages = 0
  · simp [h₀] at h
  · simp only [h₀, if_false] at h
    split at h
    · cases h
    · cases h
      exact ⟨h₀, rfl⟩

theorem LockTable.acquire_empty (t : TxnId) (page : PageId) (mode : LockMode) :
    (LockTable.acquire {} t page mode).1 = .granted := by
  have hlock : LockTable.lock {} page = {} := Std.TreeMap.getD_emptyc
  have hfree : (LockTable.blockers {} t page mode).isEmpty = true := by
    unfold LockTable.blockers
    rw [hlock]
    cases mode <;> rfl
  unfold LockTable.acquire
  rw [if_pos hfree]

/-- A new cache gives every page that is there as its file has it. -/
theorem ends_request_newPool {poolPages : Nat} (hnew : s.newPool poolPages = .ok s')
    (hfiles : s.volume.Registered s.catalog) (hthere : s.volume.HasPage s.catalog s.pool.config.pageSize page)
    (t : TxnId) (mode : LockMode) :
    (Action.request t page mode).Ends s' (fun g s'' => ∃ guard, g = some guard ∧ guard.bytes s'' = s.onFile page)
      fun _ _ => False := by
  obtain ⟨hn, rfl⟩ := Store.of_newPool hnew
  obtain ⟨n, rfl⟩ := Nat.exists_eq_succ_of_ne_zero hn
  let s' := { s with pool := .ofConfig { s.pool.config with poolPages := n + 1 } }
  refine ends_request_free (s := s') (f := 0) hfiles hthere ?_ rfl List.range_succ_eq_map ?_ ?_ ?_ mode
    (LockTable.acquire_empty t page mode)
  · exact Std.TreeMap.getElem?_emptyc
  · show 0 < (List.replicate (n + 1) _).length
    rw [List.length_replicate]
    exact Nat.succ_pos n
  · rfl
  · exact Std.TreeSet.contains_emptyc

end TupleStore
