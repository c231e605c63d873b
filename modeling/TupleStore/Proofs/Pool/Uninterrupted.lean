import TupleStore.Pool.Ending
import TupleStore.Proofs.Pool.Balance

/-!
# Ends of transactions that nobody interrupts

A transaction ends in steps. While no latch is in use and nobody else is at work, no step waits, and the steps come
to what `Action.complete` does all at once, whether it succeeds or fails.

* `Ending.Runs` : what the steps come to that are left, with nothing in between;
* `Ending.leads_forM` : a stage with a list of pages is a loop over them;
* `Ending.runs_complete` : all steps together are `Action.complete`.
-/

namespace TupleStore

set_option autoImplicit false

open TupleStore.Action

/-! ## Latches -/

/-- No latch of a frame is in use. -/
def Store.Unlatched (s : Store) : Prop := ∀ f, (s.pool.frame f).latch = {}

variable {s s₁ s₂ s₃ : Store} {t : TxnId}

namespace Store.Unlatched

theorem modifyFrame (h : s.Unlatched) (f : FrameId) {c : Frame → Frame} (hc : ∀ x, (c x).latch = x.latch) :
    (s.modifyPool fun p => p.modifyFrame f c).Unlatched := fun g =>
  (Pool.modifyFrame_keeps s.pool f g Frame.latch hc).trans (h g)

theorem pinAll (h : s.Unlatched) (pinned : List (PageId × FrameId)) :
    (s.modifyPool fun p => pinned.foldl (fun p (_, f) => p.pin f) p).Unlatched := fun g =>
  (Pool.latch_pinAll pinned s.pool g).trans (h g)

theorem unpinAll (h : s.Unlatched) (pinned : List (PageId × FrameId)) :
    (s.modifyPool fun p => pinned.foldl (fun p (_, f) => p.unpin f) p).Unlatched := fun g =>
  (Pool.latch_unpinAll pinned s.pool g).trans (h g)

theorem admits (h : s.Unlatched) (f : FrameId) : (s.pool.frame f).latch.admits = true := by
  rw [h f]
  rfl

theorem isClear (h : s.Unlatched) (f : FrameId) : (s.pool.frame f).latch.isClear .write = true := by
  rw [h f]
  rfl

end Store.Unlatched

namespace Action

/-! ## What keeps latches free -/

/-- What an action keeps, beside its outcome. -/
theorem Keeps.result {α : Type} {P : Store → Prop} {x : Action α} (hx : Keeps P x) (hs : P s) :
    x.Ends s (fun a s' => P s' ∧ x s = .ok a s') fun err s' => x s = .error err s' := by
  have hkeep := hx s hs
  unfold Ends at hkeep ⊢
  cases hr : x s with
  | ok a s' =>
    rw [hr] at hkeep
    exact ⟨hkeep, rfl⟩
  | error err s' => rfl

theorem orElseDo_of_ok {α : Type} {x : Action α} {cleanup : Store → Store} {a : α} (h : x s = .ok a s₁) :
    x.orElseDo cleanup s = .ok a s₁ := by
  unfold orElseDo
  rw [h]

theorem orElseDo_of_error {α : Type} {x : Action α} {cleanup : Store → Store} {err : Error} (h : x s = .error err s₁) :
    x.orElseDo cleanup s = .error err (cleanup s₁) := by
  unfold orElseDo
  rw [h]

theorem Lasting.unlatched : Lasting Store.Unlatched := ⟨fun _ _ _ h => h, fun _ _ _ h => h⟩

theorem unlatched_modifyFrame (f : FrameId) {c : Frame → Frame} (hc : ∀ x, (c x).latch = x.latch) :
    Keeps Store.Unlatched (modifyPool fun p => p.modifyFrame f c) :=
  .modifyPool fun _ h => h.modifyFrame f hc

theorem unlatched_count (g : Counters → Counters) : Keeps Store.Unlatched (modifyPool fun p => p.count g) :=
  .modifyPool fun _ h => h

theorem unlatched_logChange (page : PageId) (f : FrameId) : Keeps Store.Unlatched (logChange t page f) := by
  refine .bind_get fun s hs => ?_
  dsimp only
  split
  · split
    · exact hs
    · exact Keeps.bind (unlatched_modifyFrame f (c := fun x => { x with before := none }) fun _ => rfl)
        (fun _ => keeps_append .unlatched _) s hs
  · exact hs

theorem unlatched_writeBack (f : FrameId) (page : PageId) : Keeps Store.Unlatched (writeBack f page) := by
  refine .bind_get fun s hs => ?_
  dsimp only
  split
  · refine Keeps.bind (keeps_resolve _) (fun h => ?_) s hs
    have hwrite : Keeps Store.Unlatched (do
        writePage h page (s.pool.frame f).bytes
        modifyPool fun p => (p.modifyFrame f Frame.written).count fun c =>
          { c with pagesWritten := c.pagesWritten + 1 }) :=
      .bind (keeps_writePage .unlatched h page _) fun _ => .modifyPool fun _ h =>
        h.modifyFrame f (c := Frame.written) fun _ => rfl
    split
    · exact hwrite
    · exact .bind (keeps_append .unlatched _) fun _ => .bind (keeps_force .unlatched) fun _ => hwrite
  · exact hs

theorem unlatched_restorePage (page : PageId) (f : FrameId) : Keeps Store.Unlatched (restorePage t page f) := by
  refine .bind_get fun s hs => ?_
  dsimp only
  split
  · split
    · exact hs
    · rename_i b _
      refine Keeps.bind (unlatched_modifyFrame f (c := fun x => x.restore b) fun _ => rfl) (fun _ => ?_) s hs
      split
      · exact .bind (keeps_resolve _) fun hd => .bind (keeps_writePage .unlatched hd page _) fun _ =>
          .bind (unlatched_count _) fun _ => unlatched_count _
      · exact unlatched_count _
  · exact hs

theorem unlatched_restoreRetained (page : PageId) (b : BeforeImage) : Keeps Store.Unlatched (restoreRetained page b) :=
  .bind (keeps_resolve _) fun hd => .bind (keeps_writePage .unlatched hd page _) fun _ => unlatched_count _

/-- To log a change does not fail. -/
theorem ends_logChange_ok (page : PageId) (f : FrameId) :
    (logChange t page f).Ends s (fun _ _ => True) fun _ _ => False := by
  unfold logChange
  rw [ends_bind, ends_get]
  dsimp only
  split
  · split <;> trivial
  · trivial

end Action

/-! ## Steps with nothing in between -/

namespace Ending

/-- What the steps come to that are left of the end of a transaction, when nobody else does anything. -/
inductive Runs : Ending → Store → EStateM.Result Error Store Unit → Prop where
  | finished {e : Ending} {s s' : Store} (h : e.step s = .ok (.finished ()) s') : Runs e s (.ok () s')
  | failed {e : Ending} {s s' : Store} {err : Error} (h : e.step s = .error err s') : Runs e s (.error err s')
  | moved {e e' : Ending} {s s' : Store} {r : EStateM.Result Error Store Unit} (h : e.step s = .ok (.moved e') s')
      (hr : Runs e' s' r) : Runs e s r

/-- One end of a transaction comes to whatever another comes to. -/
def Leads (e : Ending) (s : Store) (e' : Ending) (s' : Store) : Prop := ∀ r, Runs e' s' r → Runs e s r

variable {e e₁ e₂ e₃ : Ending}

theorem Leads.refl (e : Ending) (s : Store) : Leads e s e s := fun _ h => h

theorem Leads.trans (h : Leads e₁ s₁ e₂ s₂) (h' : Leads e₂ s₂ e₃ s₃) : Leads e₁ s₁ e₃ s₃ := fun r hr => h r (h' r hr)

theorem Leads.of_step (e₂ : Ending) (h : e₁.step s₁ = .ok (.moved e₂) s₂) : Leads e₁ s₁ e₂ s₂ := fun _ hr => .moved h hr

theorem ends_runs {x : Action Unit} :
    x.Ends s (fun _ s' => Runs e s₁ (.ok () s')) (fun err s' => Runs e s₁ (.error err s')) ↔ Runs e s₁ (x s) := by
  unfold Ends
  cases x s <;> rfl

/-- A stage with a list is a loop over the list, if each step does one round. -/
theorem leads_forM {γ : Type} (stage : List γ → EndingStage) (body : γ → Action Unit) (cleanup : Store → Store)
    (hround : ∀ x rest s, s.Unlatched → (body x).Ends s
      (fun _ s' => s'.Unlatched ∧ (e.goto (stage (x :: rest))).step s = .ok (.moved (e.goto (stage rest))) s')
      fun err s' => (e.goto (stage (x :: rest))).step s = .error err (cleanup s')) :
    ∀ (l : List γ) (s : Store), s.Unlatched → (l.forM body).Ends s
      (fun _ s' => s'.Unlatched ∧ Leads (e.goto (stage l)) s (e.goto (stage [])) s')
      fun err s' => Runs (e.goto (stage l)) s (.error err (cleanup s'))
  | [], s, hs => ⟨hs, .refl _ _⟩
  | x :: rest, s, hs => by
    rw [List.forM, ends_bind]
    refine (hround x rest s hs).mono (fun _ s₁ h₁ => ?_) fun _ _ h' => .failed h'
    exact (leads_forM stage body cleanup hround rest s₁ h₁.1).mono (fun _ _ h₂ => ⟨h₂.1, (Leads.of_step _ h₁.2).trans h₂.2⟩)
      fun _ _ h₂ => .moved h₁.2 h₂

/-! ### The stages -/

variable (e)

theorem leads_logging (l : List (PageId × FrameId)) (hs : s.Unlatched) :
    (l.forM fun x => logChange e.txn x.1 x.2).Ends s
      (fun _ s' => s'.Unlatched ∧ Leads (e.goto (.logging l)) s (e.goto (.logging [])) s') fun _ _ => False := by
  have hlogs : (l.forM fun x => logChange e.txn x.1 x.2).Ends s (fun _ _ => True) fun _ _ => False :=
    ends_forM (fun _ _ => True) _ (fun x _ s _ => ends_logChange_ok x.1 x.2) l s trivial
  have hleads := leads_forM (e := e) .logging (fun x => logChange e.txn x.1 x.2) id
    (fun ⟨page, f⟩ rest s hs => by
      have hstep : (e.goto (.logging ((page, f) :: rest))).step s =
          (logChange e.txn page f >>= fun _ => pure (.moved (e.goto (.logging rest)))) s :=
        (bind_of_ok (run_get s)).trans (congrFun (if_pos (hs.admits f)) s)
      exact ((unlatched_logChange page f).result hs).mono (fun _ _ h => ⟨h.1, hstep.trans (bind_of_ok h.2)⟩)
        fun _ _ h => hstep.trans (bind_of_error h)) l s hs
  exact (hleads.and hlogs).mono (fun _ _ h => h.1) fun _ _ h => h.2

theorem leads_restoring (l : List (PageId × FrameId)) (hs : s.Unlatched) :
    (l.forM fun x => restorePage e.txn x.1 x.2).Ends s
      (fun _ s' => s'.Unlatched ∧ Leads (e.goto (.restoring l)) s (e.goto (.restoring [])) s')
      fun err s' => Runs (e.goto (.restoring l)) s (.error err (e.abandon s')) := by
  refine leads_forM .restoring (fun x => restorePage e.txn x.1 x.2) e.abandon (fun ⟨page, f⟩ rest s hs => ?_)
    l s hs
  have hfree : e.isHindered page (s.pool.frame f) = false := by
    rw [isHindered, hs.admits f, hs.isClear f, Bool.and_self, Bool.not_true, Bool.and_false]
  have hstep : (e.goto (.restoring ((page, f) :: rest))).step s =
      ((restorePage e.txn page f).orElseDo e.abandon >>= fun _ => pure (.moved (e.goto (.restoring rest)))) s :=
    (bind_of_ok (run_get s)).trans (congrFun (if_neg (Bool.eq_false_iff.1 hfree)) s)
  exact ((unlatched_restorePage page f).result hs).mono
    (fun _ _ h => ⟨h.1, hstep.trans (bind_of_ok (orElseDo_of_ok h.2))⟩)
    fun _ _ h => hstep.trans (bind_of_error (orElseDo_of_error h))

theorem leads_returning (l : List (PageId × BeforeImage)) (hs : s.Unlatched) :
    (l.forM fun x => restoreRetained x.1 x.2).Ends s
      (fun _ s' => s'.Unlatched ∧ Leads (e.goto (.returning l)) s (e.goto (.returning [])) s')
      fun err s' => Runs (e.goto (.returning l)) s (.error err (e.abandon s')) :=
  leads_forM .returning (fun x => restoreRetained x.1 x.2) e.abandon
    (fun ⟨page, b⟩ _ _ hs => ((unlatched_restoreRetained page b).result hs).mono
      (fun _ _ h => ⟨h.1, bind_of_ok (orElseDo_of_ok h.2)⟩) fun _ _ h => bind_of_error (orElseDo_of_error h)) l s hs

theorem leads_writing (l : List (PageId × FrameId)) (hs : s.Unlatched) :
    (writeBackAll l).Ends s
      (fun _ s' => s'.Unlatched ∧ Leads (e.goto (.writing l)) s (e.goto (.writing [])) s')
      fun err s' => Runs (e.goto (.writing l)) s (.error err (e.abandon s')) := by
  refine leads_forM .writing (fun x => writeBack x.2 x.1) e.abandon (fun ⟨page, f⟩ rest s hs => ?_) l s hs
  have hstep : (e.goto (.writing ((page, f) :: rest))).step s =
      ((writeBack f page).orElseDo e.abandon >>= fun _ => pure (.moved (e.goto (.writing rest)))) s :=
    (bind_of_ok (run_get s)).trans (congrFun (if_pos (hs.admits f)) s)
  exact ((unlatched_writeBack f page).result hs).mono
    (fun _ _ h => ⟨h.1, hstep.trans (bind_of_ok (orElseDo_of_ok h.2))⟩)
    fun _ _ h => hstep.trans (bind_of_error (orElseDo_of_error h))

/-! ### All steps -/

/-- A commit, once its pages are pinned. -/
theorem runs_commit (pinned : List (PageId × FrameId)) (hs : s.Unlatched) :
    (do
      (do
        pinned.forM fun x => logChange t x.1 x.2
        append (.commit t)
        force
        writeBackAll pinned : Action Unit).andAlways (unpinAll ⟨t, true, false, pinned, .logging pinned⟩)
      modifyPool fun p => p.forget t
      note (.completed t true) : Action Unit).Ends s
      (fun _ s' => Runs ⟨t, true, false, pinned, .logging pinned⟩ s
        (.ok () ((unlock t s').modifyPool fun p => p.count fun c => { c with commits := c.commits + 1 })))
      fun err s' => Runs ⟨t, true, false, pinned, .logging pinned⟩ s (.error err (unlock t s')) := by
  let e : Ending := ⟨t, true, false, pinned, .logging pinned⟩
  rw [ends_bind, ends_andAlways, ends_bind]
  refine (leads_logging e pinned hs).mono (fun _ s₁ h₁ => ?_) fun _ _ h => h.elim
  rw [ends_bind, ends_append, ends_bind, ends_force]
  have hfree : Store.Unlatched { s₁ with
      log := (s₁.log.append (.commit t)).force, trace := .forced :: .logged (.commit t) :: s₁.trace } := h₁.1
  -- the record, and the force
  have hforced := (h₁.2.trans (.of_step (e.goto .forcing) rfl)).trans (.of_step (e.goto (.writing pinned)) rfl)
  refine (leads_writing e pinned hfree).mono (fun _ s₂ h₂ => ?_) fun _ _ h => hforced _ h
  rw [ends_bind, ends_modifyPool, ends_note]
  have hsettling := (hforced.trans h₂.2).trans (.of_step (e.letGo .settling) rfl)
  exact (hsettling.trans (.of_step (e.letGo .unlocking) rfl)) _ (.finished rfl)

/-- A rollback, once its pages are pinned. -/
theorem runs_rollback (refused : Bool) (pinned : List (PageId × FrameId)) (hs : s.Unlatched) :
    (do
      (pinned.forM fun x => restorePage t x.1 x.2).andAlways (unpinAll ⟨t, false, refused, pinned, .restoring pinned⟩)
      let retained := (← get).pool.retainedOf t
      modifyPool fun p => p.forget t
      retained.forM fun (page, b) => restoreRetained page b
      append (.abort t)
      force
      note (.completed t false) : Action Unit).Ends s
      (fun _ s' => Runs ⟨t, false, refused, pinned, .restoring pinned⟩ s
        ((do
          modifyPool fun p => p.count fun c => { c with aborts := c.aborts + 1 }
          if refused then throw (.deadlock t) : Action Unit) (unlock t s')))
      fun err s' => Runs ⟨t, false, refused, pinned, .restoring pinned⟩ s (.error err (unlock t s')) := by
  let e : Ending := ⟨t, false, refused, pinned, .restoring pinned⟩
  rw [ends_bind, ends_andAlways]
  refine (leads_restoring e pinned hs).mono (fun _ s₁ h₁ => ?_) fun _ _ h => h
  rw [ends_bind, ends_get, ends_bind, ends_modifyPool, ends_bind]
  let retained := (e.unpinAll s₁).pool.retainedOf t
  have hfree : Store.Unlatched ((e.unpinAll s₁).modifyPool fun p => p.forget t) := h₁.1.unpinAll pinned
  have hreturning := (h₁.2.trans (.of_step (e.letGo .collecting) rfl)).trans
    (.of_step (e.letGo (.returning retained)) rfl)
  refine (leads_returning (e.letGo .collecting) retained hfree).mono (fun _ s₂ h₂ => ?_) fun _ _ h => hreturning _ h
  rw [ends_bind, ends_append, ends_bind, ends_force, ends_note]
  have hforced := ((hreturning.trans h₂.2).trans (.of_step (e.letGo .forcing) rfl)).trans
    (.of_step (e.letGo .settling) rfl)
  refine (hforced.trans (.of_step (e.letGo .unlocking) rfl)) _ ?_
  cases refused with
  | true => exact .failed rfl
  | false => exact .finished rfl

/-- The steps by which a transaction ends, with nothing in between, come to what `complete` does, if no latch is in
use. -/
theorem runs_complete (hs : s.Unlatched) (t : TxnId) (wantsCommit : Bool) :
    (Ending.start t wantsCommit).Ends s (fun e s' => Runs e s' (Action.complete t wantsCommit s)) fun _ _ => False := by
  have hpardon : Store.Unlatched (s.modifyPool fun p => p.pardon t) := hs
  unfold Ending.start
  rw [ends_bind, ends_get]
  dsimp only
  rw [ends_bind, ends_modifyPool]
  split
  · rename_i hc
    rw [ends_bind, ends_modifyPool, ends_pure]
    refine ends_runs.1 ?_
    unfold Action.complete
    rw [ends_bind, ends_get]
    dsimp only
    rw [ends_bind, ends_modifyPool, if_pos hc, ends_bind, ends_andAlways]
    exact runs_commit _ (hpardon.pinAll _)
  · rename_i hc
    rw [ends_bind, ends_note, ends_bind, ends_modifyPool, ends_pure]
    refine ends_runs.1 ?_
    unfold Action.complete
    rw [ends_bind, ends_get]
    dsimp only
    rw [ends_bind, ends_modifyPool, if_neg hc, ends_bind, ends_andAlways]
    have hundoing : Store.Unlatched { s.modifyPool fun p => p.pardon t with trace := .undoing t :: s.trace } := hs
    exact (runs_rollback wantsCommit _ (hundoing.pinAll _)).mono (fun _ _ h => ends_runs.2 h) fun _ _ h => h

end Ending

end TupleStore
