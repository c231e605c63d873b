import TupleStore.Pool.Flush
import TupleStore.Proofs.Pool.Completing

/-!
# Flushes

The invariant is kept by every step of a flush, also beside transactions that end. While a flush is on its way its
pages are pinned.

* `Flush.MayGoOn` : a flush may write its next page as it is. Between steps it always may, where no transaction ends
  (`Stands.mayGoOn`);
* `Standing.startFlush`, `Standing.flush` : the beginning of a flush, and a step of it;
* `Stands.flush_whole` : where no latch is claimed, the steps of a flush come to what `flushPage`, `flushAll`
  and `flushTxn` do at once (`flushPage_eq`, `flushAll_eq`, `flushTxn_eq`).
-/

namespace TupleStore

set_option autoImplicit false

open TupleStore.Action

variable {s₀ s : Store} {uses : List Use} {endings : List Ending}

/-- If the page that a flush writes next has no before-image, it may be written as it is. -/
def Flush.MayGoOn (first : PageId → Bytes) (fl : Flush) (s : Store) : Prop :=
  ∀ page f rest, fl.rest = (page, f) :: rest → fl.skips (s.pool.frame f) = false →
    (s.pool.frame f).dirtyBy ≠ none → (s.pool.frame f).before = none →
    MayWrite first s.trace page (s.pool.frame f).bytes

namespace Standing

theorem unpinAll {pinned : List (PageId × FrameId)} (h : Standing endings s₀ (pinsOf pinned ++ uses) s) :
    Standing endings s₀ uses (s.modifyPool fun p => pinned.foldl (fun p (_, f) => p.unpin f) p) := by
  have h₁ := h.toInvariant
  rw [List.append_assoc] at h₁
  exact h.reuse (h₁.unpinAll pinned) (Store.mode?_congr (Pool.locks_unpinAll pinned s.pool))
    (fun e he u hu => h.away e he u (List.mem_append_right _ hu)) fun page t => (worksOn_pinsOf pinned uses page t).symm

theorem startFlush (h : Standing endings s₀ uses s) (only : Option TxnId) (pages : List PageId) :
    (Flush.start only pages).Ends s
      (fun fl s' => fl.rest = fl.pinned ∧ Standing endings s₀ (pinsOf fl.pinned ++ uses) s')
      fun _ _ => False := by
  have h₁ := h.toInvariant.pinAll (cachedOf s.pool pages) fun e he => (h.pool.mapped _ _).1 (mem_cachedOf.1 he).2
  rw [← List.append_assoc] at h₁
  unfold Flush.start
  rw [ends_bind, ends_get, ends_bind, ends_modifyPool, ends_pure]
  refine ⟨rfl, h.reuse h₁ (Store.mode?_congr (Pool.locks_pinAll _ s.pool)) (fun e he u hu m hh => ?_)
    fun page t => worksOn_pinsOf _ uses page t⟩
  rcases List.mem_append.1 hu with hu | hu
  · obtain ⟨x, -, rfl⟩ := List.mem_map.1 hu
    cases hh
  · exact h.away e he u hu m hh

theorem flush {fl : Flush} (h : Standing endings s₀ (pinsOf fl.pinned ++ uses) s) (hr : ∀ x ∈ fl.rest, x ∈ fl.pinned)
    (hmay : fl.MayGoOn s₀.onFile s) :
    fl.step.Ends s
      (fun p s' => match p with
        | .finished _ => Standing endings s₀ uses s'
        | .moved fl' => fl'.pinned = fl.pinned ∧ (∀ x ∈ fl'.rest, x ∈ fl'.pinned) ∧
          Standing endings s₀ (pinsOf fl'.pinned ++ uses) s'
        | .blocked fl' => fl' = fl ∧ Standing endings s₀ (pinsOf fl.pinned ++ uses) s')
      fun _ _ => False := by
  unfold Flush.step
  split
  · rw [ends_bind, ends_modify]
    exact h.unpinAll
  · rename_i page f rest hrest
    have hin : ∀ x ∈ rest, x ∈ fl.pinned := fun x hx => hr x (hrest ▸ List.mem_cons_of_mem _ hx)
    have hf := h.pool.used ⟨f, page, none, false⟩ (List.mem_append_left _ (List.mem_append_left _
      (mem_pinsOf (hr _ (hrest ▸ List.mem_cons_self ..)))))
    rw [ends_bind, ends_get]
    dsimp only
    split
    · exact ⟨rfl, hin, h⟩
    · rename_i hskips
      have hwrite := h.writeBack hf (hmay page f rest hrest (Bool.eq_false_iff.2 hskips))
      split
      · rw [ends_bind, ends_orElseDo]
        exact hwrite.mono (fun _ s' h' => ⟨rfl, hin, h'.1⟩) fun _ _ h' => h'.elim
      · exact ⟨rfl, h⟩

end Standing

namespace Stands

theorem startFlush (h : Stands s₀ uses s) (only : Option TxnId) (pages : List PageId) :
    (Flush.start only pages).Ends s
      (fun fl s' => fl.rest = fl.pinned ∧ Stands s₀ (pinsOf fl.pinned ++ uses) s')
      fun _ _ => False := by
  rw [← standing_nil] at h ⊢
  exact h.startFlush only pages

/-- A dirty frame has a before-image, so nothing is written as it is. -/
theorem mayGoOn {fl : Flush} (h : Stands s₀ (pinsOf fl.pinned ++ uses) s) (hr : ∀ x ∈ fl.rest, x ∈ fl.pinned) :
    fl.MayGoOn s₀.onFile s := by
  intro page f rest hrest _ hd hbefore
  have hf := h.pool.used ⟨f, page, none, false⟩ (List.mem_append_left _
    (mem_pinsOf (hr _ (hrest ▸ List.mem_cons_self ..))))
  rw [← standing_nil] at h
  exact absurd hbefore ((h.pages page).before_of_dirty h.proper (Store.cached_eq h.pool.mapped hf) hd nofun)

theorem flush {fl : Flush} (h : Stands s₀ (pinsOf fl.pinned ++ uses) s) (hr : ∀ x ∈ fl.rest, x ∈ fl.pinned) :
    fl.step.Ends s
      (fun p s' => match p with
        | .finished _ => Stands s₀ uses s'
        | .moved fl' => fl'.pinned = fl.pinned ∧ (∀ x ∈ fl'.rest, x ∈ fl'.pinned) ∧
          Stands s₀ (pinsOf fl'.pinned ++ uses) s'
        | .blocked fl' => fl' = fl ∧ Stands s₀ (pinsOf fl.pinned ++ uses) s')
      fun _ _ => False := by
  have hmay := h.mayGoOn hr
  rw [← standing_nil] at h ⊢
  exact h.flush hr hmay

end Stands

/-! ## Flushes that never wait -/

/-- No frame has a writer at work, or one who waits for readers to leave. -/
def Store.Unclaimed (s : Store) : Prop := ∀ f, (s.pool.frame f).latch.admits = true

/-- What a flush does with one of its pages. -/
def Flush.visit (only : Option TxnId) (x : PageId × FrameId) : Action Unit := do
  if Flush.skips ⟨only, [], []⟩ ((← get).pool.frame x.2) then pure () else writeBack x.2 x.1

/-- A flush all at once. -/
def Flush.whole (only : Option TxnId) (pages : List PageId) : Action Unit :=
  withPinned pages fun pinned => pinned.forM (Flush.visit only)

theorem flushPage_eq (page : PageId) : flushPage page = Flush.whole none [page] := rfl

theorem flushAll_eq (s : Store) : flushAll s = Flush.whole none s.pool.cachedPages s := rfl

theorem flushTxn_eq (txn : TxnId) (s : Store) : flushTxn txn s = Flush.whole (some txn) s.pool.cachedPages s := by
  have hbody : (fun x : PageId × FrameId => do
      if ((← get).pool.frame x.2).dirtyBy = some txn then writeBack x.2 x.1) = Flush.visit (some txn) := by
    funext x
    refine bind_congr fun s' => ?_
    by_cases hd : (s'.pool.frame x.2).dirtyBy = some txn <;> simp [Flush.skips, hd]
  unfold Flush.whole
  rw [← hbody]
  rfl

/-- To write a page claims no latch. -/
theorem Stands.writeBack_ok (h : Stands s₀ uses s) (hu : s.Unclaimed) {f : FrameId} {page : PageId}
    (hf : (s.pool.frame f).page = some page) :
    ∃ s', Action.writeBack f page s = .ok () s' ∧ Stands s₀ uses s' ∧ s'.Unclaimed := by
  have hwrite : (Action.writeBack f page).Ends s (fun _ s' => Stands s₀ uses s' ∧
      (s' = s ∨ (Wrote s f page s' ∧ ∀ q, q ≠ page → s'.copies q = s.copies q))) fun _ _ => False := by
    rw [← standing_nil] at h ⊢
    have himage := (h.pages page).before_of_dirty h.proper (Store.cached_eq h.pool.mapped hf)
    exact (h.writeBack hf fun hd hn => absurd hn (himage hd nofun)).mono
      (fun _ _ h' => ⟨h'.1, h'.2.2.imp_right And.right⟩) fun _ _ h' => h'
  unfold Ends at hwrite
  cases hr : Action.writeBack f page s with
  | error e s' =>
    rw [hr] at hwrite
    exact hwrite.elim
  | ok _ s' =>
    rw [hr] at hwrite
    obtain ⟨h', rfl | ⟨⟨v, l, c, -, rfl⟩, -⟩⟩ := hwrite
    · exact ⟨_, rfl, h, hu⟩
    · refine ⟨_, rfl, h', fun g => ?_⟩
      have hlatch := Pool.modifyFrame_keeps s.pool f g (c := Frame.written) Frame.latch fun _ => rfl
      exact (congrArg Latch.admits hlatch).trans (hu g)

/-- Where no latch is claimed, the steps of a flush do not wait, and write the pages one after the other. -/
theorem Stands.advance_flush {pinned rest : List (PageId × FrameId)} (h : Stands s₀ (pinsOf pinned ++ uses) s)
    (only : Option TxnId) (hr : ∀ x ∈ rest, x ∈ pinned) (hu : s.Unclaimed) :
    ∃ s', (rest.forM (Flush.visit only)) s = .ok () s' ∧
      advance Flush.step (rest.length + 1) ⟨only, pinned, rest⟩ s =
        .ok (.done ()) (Flush.unpinAll ⟨only, pinned, []⟩ s') := by
  induction rest generalizing s with
  | nil => exact ⟨s, rfl, rfl⟩
  | cons x rest ih =>
    obtain ⟨page, f⟩ := x
    have hf := h.pool.used ⟨f, page, none, false⟩ (List.mem_append_left _
      (List.mem_map.2 ⟨(page, f), hr _ (List.mem_cons_self ..), rfl⟩))
    have hrest : ∀ x ∈ rest, x ∈ pinned := fun x hx => hr x (List.mem_cons_of_mem _ hx)
    have hround : ∃ s₁, Flush.visit only (page, f) s = .ok () s₁ ∧
        Flush.step ⟨only, pinned, (page, f) :: rest⟩ s = .ok (.moved ⟨only, pinned, rest⟩) s₁ ∧
        Stands s₀ (pinsOf pinned ++ uses) s₁ ∧ s₁.Unclaimed := by
      unfold Flush.visit Flush.step
      dsimp only
      rw [bind_of_ok (run_get s), bind_of_ok (run_get s)]
      by_cases hskip : Flush.skips ⟨only, [], []⟩ (s.pool.frame f) = true
      · refine ⟨s, ?_, ?_, h, hu⟩
        · rw [if_pos hskip]
          rfl
        · exact congrFun (if_pos hskip) s
      · obtain ⟨s₁, hwrite, h₁, hu₁⟩ := h.writeBack_ok hu hf
        refine ⟨s₁, ?_, ?_, h₁, hu₁⟩
        · rw [if_neg hskip]
          exact hwrite
        · have hkept : ((Action.writeBack f page).orElseDo (Flush.unpinAll ⟨only, pinned, (page, f) :: rest⟩)) s =
              .ok () s₁ := by
            unfold orElseDo
            rw [hwrite]
          refine (congrFun (if_neg hskip) s).trans ((congrFun (if_pos (hu f)) s).trans ?_)
          exact bind_of_ok hkept
    obtain ⟨s₁, hvisit, hstep, h₁, hu₁⟩ := hround
    obtain ⟨s', hloop, hadvance⟩ := ih h₁ hrest hu₁
    refine ⟨s', ?_, ?_⟩
    · exact (bind_of_ok hvisit).trans hloop
    · exact (bind_of_ok hstep).trans hadvance

theorem Store.Unclaimed.pinAll (h : s.Unclaimed) (pinned : List (PageId × FrameId)) :
    (s.modifyPool fun p => pinned.foldl (fun p (_, f) => p.pin f) p).Unclaimed := fun g =>
  (congrArg Latch.admits (Pool.latch_pinAll pinned s.pool g)).trans (h g)

/-- A flush in steps is the flush all at once, where no latch is claimed. -/
theorem Stands.flush_whole (h : Stands s₀ uses s) (hu : s.Unclaimed) (only : Option TxnId) (pages : List PageId) :
    ∃ fl s₁ s', Flush.start only pages s = .ok fl s₁ ∧
      advance Flush.step (fl.rest.length + 1) fl s₁ = .ok (.done ()) s' ∧ Flush.whole only pages s = .ok () s' := by
  let pinned := cachedOf s.pool pages
  let s₁ := s.modifyPool fun p => pinned.foldl (fun p (_, f) => p.pin f) p
  have h₁ : Stands s₀ (pinsOf pinned ++ uses) s₁ := by
    have hstart := h.startFlush only pages
    rw [ends_of_ok (show Flush.start only pages s = .ok ⟨only, pinned, pinned⟩ s₁ from rfl)] at hstart
    exact hstart.2
  obtain ⟨s₂, hloop, hadvance⟩ := h₁.advance_flush only (fun _ (hx : _ ∈ pinned) => hx) (hu.pinAll pinned)
  refine ⟨⟨only, pinned, pinned⟩, s₁, _, rfl, hadvance, ?_⟩
  show (pinned.forM (Flush.visit only)).andAlways (Flush.unpinAll ⟨only, pinned, []⟩) s₁ = _
  unfold andAlways
  rw [hloop]

end TupleStore
