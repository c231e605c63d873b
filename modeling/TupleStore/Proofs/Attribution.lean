import TupleStore.Proofs.Emission
import TupleStore.Proofs.Runs

/-!
# Who acts

Every step of a run is the work of one transaction, or of none: a flush, a page appended. What a step adds to
the trace is attributed accordingly, so other transactions find their pages as they left them. Their locks they
keep.

* `World.actor` : the transaction that acts;
* `World.leads_apply` : what a step leads to that does not end a transaction, and `World.looks_apply` where it
  changes no page;
* `World.locks_apply` : a lock is gone after a step only if its transaction has given up all;
* `World.contents_apply` : what a step changes of the contents;
* `World.inside_run` : a run without pages written past the cache has none in its trace.
-/

namespace TupleStore

set_option autoImplicit false

open TupleStore.Action

/-- The transaction that a task works for. -/
def Task.txn? : Task → Option TxnId
  | ask r => some r.txn
  | call c => some c.txn
  | flush _ => none

/-- The transaction that acts. -/
def World.actor (w : World) : Op → Option TxnId
  | .advance i => w.tasks[i]?.bind Task.txn?
  | .look i => w.guards[i]?.map Guard.txn
  | .patch i _ _ => w.guards[i]?.map Guard.txn
  | .complete t _ => some t
  | .iterate cursor => some cursor.txn
  | _ => none

/-- An operation that ends no transaction. -/
def Op.Ongoing : Op → Prop
  | .complete .. => False
  | _ => True

/-- An operation that takes no step of a task and writes to no page. -/
def Op.Reads : Op → Prop
  | .advance _ => False
  | .patch .. => False
  | .complete .. => False
  | .rewrite .. => False
  | _ => True

variable {s₀ s s' : Store} {w : World} {t : TxnId} {commits : Bool} {first : PageId → Bytes}

/-! ## Steps -/

theorem emits_guardWrite (g : Guard) (off : Nat) (data : Bytes) :
    Emits (Effect.By (some g.txn)) (g.write off data) fun _ => True := by
  unfold Guard.write
  split
  · exact .pure trivial
  · refine .bind (emits_beginChange g rfl) fun g' hg => .bind .get fun s _ => ?_
    rw [← hg]
    split
    · exact .pure trivial
    · exact .bind (emits_setBytes g' _) fun _ _ => .pure trivial

theorem emits_task (task : Task) : Emits (Effect.By task.txn?) task.step fun _ => True := by
  cases task with
  | ask r => exact .bind ((emits_requestStep r).mono fun _ => Effect.Looks.by) fun _ _ => .pure trivial
  | call c => exact .bind (emits_call c) fun _ _ => .pure trivial
  | flush fl => exact .bind ((emits_flush fl).mono fun _ => Effect.Looks.by) fun _ _ => .pure trivial

namespace World

theorem leads_perform {α : Type} {P : Effect → Prop} {x : Action α} {R : α → Prop} {onOk : α → World → World}
    (hx : Emits P x R) (hon : ∀ a w, (onOk a w).store = w.store) :
    Leads P w.store (w.perform x onOk).store := by
  refine of_perform (P := fun w' => Leads P w.store w'.store) ((hx w.store).mono (fun a s h => ?_) fun _ _ h => h)
  rw [hon]
  exact h.1

theorem leads_advance {P : Effect → Prop} {i : Nat} {task : Task} (hi : w.tasks[i]? = some task)
    (htask : Emits P task.step fun _ => True) : Leads P w.store (w.advance i).store := by
  have h := htask w.store
  unfold World.advance
  rw [hi]
  unfold Ends at h
  dsimp only
  cases hr : task.step w.store with
  | error e s =>
    rw [hr] at h
    exact h
  | ok p s =>
    rw [hr] at h
    cases p <;> exact h.1

/-- What neither takes a step of a task nor writes only reads pages. -/
theorem looks_apply (w : World) {op : Op} (hop : op.Reads) :
    Leads (Effect.Looks (w.actor op)) w.store (w.apply op).store := by
  have hflush : ∀ only pages, Leads (Effect.Looks none) w.store
      (w.perform (Flush.start only pages) fun flush => addTask (.flush flush)).store :=
    fun only pages => leads_perform (emits_startFlush only pages) fun _ _ => rfl
  cases op with
  | ask t page mode => exact .refl _
  | begin start =>
    refine of_perform (P := fun w' => Leads _ w.store w'.store) ((start.ends_call (s := w.store)).mono (fun c s h => ?_)
      fun _ s h => ?_)
    · exact h.1 ▸ .refl _
    · exact h ▸ .refl _
  | flushPage page => exact hflush none [page]
  | flushAll => exact hflush none _
  | flushTxn t => exact hflush (some t) _
  | look i =>
    simp only [World.apply, World.actor]
    cases w.guards[i]? with
    | none => exact .refl _
    | some g => exact leads_perform (emits_look g) fun _ _ => rfl
  | drop i =>
    simp only [World.apply]
    cases w.guards[i]? with
    | none => exact .refl _
    | some g => exact leads_perform (.modifyPool g.locks_giveBack) fun _ _ => rfl
  | allocate hd => exact leads_perform (emits_allocatePage hd) fun _ _ => rfl
  | iterate cursor => exact leads_perform (emits_hasNext cursor) fun _ _ => rfl
  | _ => exact hop.elim

/-- A step that ends no transaction adds what the work of its transaction can bring about, and gives up no
lock. -/
theorem leads_apply (w : World) {op : Op} (hc : op.Cached) (ho : op.Ongoing) :
    Leads (Effect.By (w.actor op)) w.store (w.apply op).store := by
  by_cases hr : op.Reads
  · exact (looks_apply w hr).mono fun _ => Effect.Looks.by
  · cases op with
    | advance i =>
      simp only [World.apply, World.actor]
      cases hi : w.tasks[i]? with
      | none =>
        rw [World.advance, hi]
        exact .refl _
      | some task => exact leads_advance hi (emits_task task)
    | patch i off data =>
      simp only [World.apply, World.actor]
      cases w.guards[i]? with
      | none => exact .refl _
      | some g => exact leads_perform (emits_guardWrite g off data) fun _ _ => rfl
    | complete t commits => exact ho.elim
    | rewrite hd page bytes => exact hc.elim
    | _ => exact absurd trivial hr

end World

/-! ## Ends of transactions -/

namespace Finished

theorem contents_eq (h : Finished t commits s s') (first : PageId → Bytes) :
    contents first s'.trace = (contents first s.trace).complete t commits := by
  obtain ⟨past, htrace, hforces⟩ := h.trace
  rw [htrace, ← hforces.trails.contents_eq]
  rfl

theorem inside (h : Finished t commits s s') (hin : Inside s.trace) : Inside s'.trace := by
  obtain ⟨past, htrace, hforces⟩ := h.trace
  have hpast := hin.grown hforces.trails fun _ _ he => he
  rw [htrace]
  intro page bytes hmem
  rcases List.mem_cons.1 hmem with e | hmem
  · cases e
  rcases List.mem_cons.1 hmem with e | hmem
  · cases e
  exact hpast page bytes hmem

end Finished

namespace World

/-- A transaction that has no page in use ends, whatever it wants. Its commit is refused only if it is doomed,
and then it is rolled back. -/
theorem Stands.completes (h : w.Stands s₀) (hu : w.uses? t = false) (wantsCommit : Bool) :
    (Action.complete t wantsCommit).Ends w.store
      (fun _ s => Finished t wantsCommit w.store s ∧ (wantsCommit = true → w.store.pool.isDoomed t = false))
      fun e s => Finished t false w.store s ∧ e = .deadlock t ∧ wantsCommit = true ∧ w.store.pool.isDoomed t = true :=
  (h.store.complete (away_of_uses? s₀ hu) wantsCommit).mono (fun _ _ hs => hs.2) fun _ _ hs => hs.2

theorem finishes_apply (h : w.Stands s₀) (t : TxnId) (wantsCommit : Bool) :
    (w.apply (.complete t wantsCommit)).store = w.store ∨
      ∃ commits, Finishes t commits w.store (w.apply (.complete t wantsCommit)).store := by
  simp only [World.apply]
  split
  · exact Or.inl rfl
  · rename_i hidle
    have hend := h.store.complete_finishes (away_of_uses? s₀ (Bool.eq_false_iff.2 hidle)) wantsCommit
    exact Or.inr (of_perform (P := fun w' => ∃ commits, Finishes t commits w.store w'.store)
      (hend.mono (fun _ _ hs => ⟨_, hs.2.1⟩) fun _ _ hs => ⟨_, hs.2.1⟩))

theorem finished_apply (h : w.Stands s₀) (t : TxnId) (wantsCommit : Bool) :
    (w.apply (.complete t wantsCommit)).store = w.store ∨
      ∃ commits, Finished t commits w.store (w.apply (.complete t wantsCommit)).store :=
  (finishes_apply h t wantsCommit).imp_right fun ⟨c, hc⟩ => ⟨c, hc.finished⟩

/-- A step that ends no transaction gives up no lock. -/
theorem keeps_apply (w : World) {op : Op} (ho : op.Ongoing) :
    w.store.pool.locks.Keeps (w.apply op).store.pool.locks := by
  by_cases hc : op.Cached
  · exact (leads_apply w hc ho).locks
  · cases op with
    | rewrite hd page bytes =>
      exact (leads_perform (emits_writeRaw (P := fun _ => True) trivial) fun _ _ => rfl).locks
    | _ => exact absurd trivial hc

/-- A transaction keeps its locks until it ends: where one is gone after a step, the step was the end of its
transaction, and the last thing that happened is that it gave its locks up. -/
theorem locks_apply (h : w.Stands s₀) (op : Op) {t : TxnId} {page : PageId} {m : LockMode}
    (hm : w.store.pool.locks.mode? t page = some m) :
    (∃ m', (w.apply op).store.pool.locks.mode? t page = some m' ∧ m'.covers m = true) ∨
      (∃ wantsCommit, op = .complete t wantsCommit) ∧ ∃ past, (w.apply op).store.trace = .unlocked t :: past := by
  by_cases ho : op.Ongoing
  · exact Or.inl (keeps_apply w ho t page m hm)
  · cases op with
    | complete u wantsCommit =>
      rcases finished_apply h u wantsCommit with e | ⟨commits, hf⟩
      · rw [e]
        exact Or.inl (LockTable.Keeps.refl _ t page m hm)
      · by_cases hu : t = u
        · subst hu
          obtain ⟨past, htrace, -⟩ := hf.trace
          exact Or.inr ⟨⟨_, rfl⟩, _, htrace⟩
        · refine Or.inl ⟨m, ?_, m.covers_self⟩
          rw [hf.locks, LockTable.mode?_releaseAll h.store.locks, if_neg hu]
          exact hm
    | _ => exact absurd trivial ho

/-- What an operation leaves of the contents. Only the transaction that acts leaves anything in pages, and only
the end of a transaction changes what is committed. -/
theorem contents_apply (h : w.Stands s₀) {op : Op} (hc : op.Cached) :
    (∀ u, w.actor op ≠ some u →
      (contents first (w.apply op).store.trace).own u = (contents first w.store.trace).own u) ∧
      (op.Ongoing →
        (contents first (w.apply op).store.trace).committed = (contents first w.store.trace).committed) := by
  by_cases ho : op.Ongoing
  · have hgrown := contents_by first (leads_apply w hc ho).trace
    exact ⟨hgrown.2, fun _ => hgrown.1⟩
  · refine ⟨fun u hu => ?_, fun ho' => absurd ho' ho⟩
    cases op with
    | complete t wantsCommit =>
      rcases finished_apply h t wantsCommit with e | ⟨commits, hf⟩
      · rw [e]
      · rw [hf.contents_eq]
        exact if_neg fun e => hu (congrArg some e.symm)
    | _ => exact absurd trivial ho

theorem inside_apply (h : w.Stands s₀) (hin : Inside w.store.trace) {op : Op} (hc : op.Cached) :
    Inside (w.apply op).store.trace := by
  by_cases ho : op.Ongoing
  · exact hin.grown (leads_apply w hc ho).trace fun _ _ he => he
  · cases op with
    | complete t wantsCommit =>
      rcases finished_apply h t wantsCommit with e | ⟨commits, hf⟩
      · rwa [e]
      · exact hf.inside hin
    | _ => exact absurd trivial ho

/-- Nothing is written past the cache by a run that has no such operation. -/
theorem inside_run (o : Opening s₀) {ops : List Op} (hops : ∀ op ∈ ops, op.Cached) :
    Inside (World.run ops { store := s₀ }).store.trace := by
  have hrun : ∀ (ops : List Op) (w : World), w.Stands s₀ → Inside w.store.trace → (∀ op ∈ ops, op.Cached) →
      Inside (World.run ops w).store.trace := by
    intro ops
    induction ops with
    | nil => exact fun _ _ hin _ => hin
    | cons op ops ih =>
      intro w h hin hops
      have hop := hops op (List.mem_cons_self ..)
      exact ih _ (h.apply op) (inside_apply h hin hop) fun op' hop' => hops op' (List.mem_cons_of_mem _ hop')
  refine hrun ops _ (stands_run o []) ?_ hops
  rw [show (World.mk s₀ [] []).store.trace = [] from o.trace]
  exact fun _ _ => List.not_mem_nil

end World

end TupleStore
