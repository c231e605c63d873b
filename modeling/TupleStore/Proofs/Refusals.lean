import TupleStore.Pool.Completion
import TupleStore.Proofs.Emission

/-!
# Who is doomed by what

A transaction is doomed by nothing but the refusal of a lock that it asks for, and its request then fails with a
deadlock. So how an action ends tells whether somebody was doomed by it.

* `Dooms who x` : the action `x` dooms a transaction exactly where it fails with its deadlock, and only the
  transaction `who` can meet one;
* `dooms_requestStep`, `dooms_call`, `dooms_flush` : requests, calls and flushes. A cursor catches the failure of
  its request and answers with it (`ends_hasNext_sentences`);
* `dooms_commit`, `dooms_rollback` : the end of a transaction dooms nobody;
* `run_of_doomed`, `request_of_doomed` : a request of a doomed transaction fails, and changes nothing.
-/

namespace TupleStore

set_option autoImplicit false

/-! ## Who is doomed -/

namespace Pool

theorem isDoomed_doom (p : Pool) (t u : TxnId) : (p.doom t).isDoomed u = (p.isDoomed u || decide (t = u)) := by
  show (p.doomed.insert t).contains u = (p.doomed.contains u || decide (t = u))
  rw [Std.TreeSet.contains_insert, Bool.or_comm]
  refine congrArg (p.doomed.contains u || ·) (Bool.eq_iff_iff.2 ?_)
  rw [beq_iff_eq, Std.compare_eq_iff_eq, decide_eq_true_iff]

theorem isDoomed_pardon (p : Pool) (t u : TxnId) :
    (p.pardon t).isDoomed u = (p.isDoomed u && decide (t ≠ u)) := by
  show (p.doomed.erase t).contains u = (p.doomed.contains u && decide (t ≠ u))
  rw [Std.TreeSet.contains_erase, Bool.and_comm]
  refine congrArg (p.doomed.contains u && ·) (Bool.eq_iff_iff.2 ?_)
  rw [bne_iff_ne, ne_eq, Std.compare_eq_iff_eq, decide_eq_true_iff]

/-- A fold of changes that leave a part of the pool alone leaves it alone. -/
theorem foldl_keeps {α γ : Type} (part : Pool → α) (step : Pool → γ → Pool) (h : ∀ p x, part (step p x) = part p)
    (l : List γ) (p : Pool) : part (l.foldl step p) = part p := by
  induction l generalizing p with
  | nil => rfl
  | cons x l ih => exact (ih _).trans (h p x)

end Pool

/-- A failure that dooms its transaction, and nobody else, if it is a deadlock, and nobody if it is not. Only one
transaction can meet a deadlock, or none can. -/
structure Store.Sentences (who : Option TxnId) (e : Error) (s s' : Store) : Prop where
  doomed : ∀ t, s'.pool.isDoomed t = (s.pool.isDoomed t || decide (e = .deadlock t))
  own : ∀ t, e = .deadlock t → who = some t

namespace Store.Sentences

variable {who : Option TxnId} {e : Error} {s s₁ s₂ : Store}

theorem of_harmless (he : e.isTransactionFatal = false) (h : s₂.pool.isDoomed = s.pool.isDoomed) :
    Sentences who e s s₂ := by
  have hne : ∀ t, e ≠ .deadlock t := by
    rintro t rfl
    cases he
  refine ⟨fun t => ?_, fun t ht => absurd ht (hne t)⟩
  rw [h, decide_eq_false (hne t), Bool.or_false]

theorem after (h : Sentences who e s₁ s₂) (h₁ : s₁.pool.isDoomed = s.pool.isDoomed) : Sentences who e s s₂ :=
  ⟨fun t => by rw [h.doomed t, h₁], h.own⟩

theorem cleanup (h : Sentences who e s s₁) (h₂ : s₂.pool.isDoomed = s₁.pool.isDoomed) : Sentences who e s s₂ :=
  ⟨fun t => by rw [h₂, h.doomed t], h.own⟩

end Store.Sentences

/-- A cursor that fails answers with the failure of its request. -/
def CursorAnswer.Sentences {α : Type} (who : Option TxnId) : CursorAnswer α → Store → Store → Prop
  | failed e, s, s' => Store.Sentences who e s s'
  | _, s, s' => s'.pool.isDoomed = s.pool.isDoomed

theorem CursorAnswer.Sentences.after {α : Type} {who : Option TxnId} {a : CursorAnswer α} {s s₁ s₂ : Store}
    (h : a.Sentences who s₁ s₂) (h₁ : s₁.pool.isDoomed = s.pool.isDoomed) : a.Sentences who s s₂ := by
  cases a with
  | answer _ => exact Eq.trans h h₁
  | failed e => exact Store.Sentences.after h h₁
  | blocked => exact Eq.trans h h₁

namespace Action

/-- An action dooms nobody where it succeeds, and where it fails with a deadlock the one transaction that can meet
one. -/
def Dooms {α : Type} (who : Option TxnId) (x : Action α) : Prop :=
  ∀ s, x.Ends s (fun _ s' => s'.pool.isDoomed = s.pool.isDoomed) fun e s' => Store.Sentences who e s s'

variable {who : Option TxnId}

namespace Dooms

variable {α β : Type} {x : Action α}

/-! ## Building blocks -/

theorem bind {y : Action β} {f : β → Action α} (hy : Dooms who y) (hf : ∀ b, Dooms who (f b)) :
    Dooms who (y >>= f) := by
  intro s
  rw [ends_bind]
  refine (hy s).mono (fun b s₁ h₁ => ?_) fun _ _ h₁ => h₁
  exact (hf b s₁).mono (fun _ _ h₂ => h₂.trans h₁) fun _ _ h₂ => h₂.after h₁

theorem pure (a : α) : Dooms who (Pure.pure a) := fun _ => rfl

theorem throw {e : Error} (he : e.isTransactionFatal = false) : Dooms who (MonadExcept.throw e : Action α) := fun _ =>
  .of_harmless he rfl

theorem get : Dooms who (MonadState.get : Action Store) := fun _ => rfl

theorem modify {g : Store → Store} (h : ∀ s, (g s).pool.isDoomed = s.pool.isDoomed) :
    Dooms who (modify g : Action PUnit) := fun s => h s

theorem modifyPool {g : Pool → Pool} (h : ∀ p, (g p).isDoomed = p.isDoomed) : Dooms who (Action.modifyPool g) :=
  fun s => h s.pool

theorem note (e : Effect) : Dooms who (Action.note e) := fun _ => rfl

theorem append (r : LogRecord) : Dooms who (Action.append r) := fun _ => rfl

theorem force : Dooms who Action.force := fun _ => rfl

theorem ofExcept {x : Except Error α} (h : ∀ e, x = .error e → e.isTransactionFatal = false) :
    Dooms who (Action.ofExcept x) := by
  cases x with
  | ok a => exact pure a
  | error e => exact throw (h e rfl)

theorem orElseDo {cleanup : Store → Store} (hx : Dooms who x)
    (h : ∀ s, (cleanup s).pool.isDoomed = s.pool.isDoomed) : Dooms who (x.orElseDo cleanup) := by
  intro s
  rw [ends_orElseDo]
  exact (hx s).mono (fun _ _ h' => h') fun _ s' h' => h'.cleanup (h s')

theorem andAlways {cleanup : Store → Store} (hx : Dooms who x)
    (h : ∀ s, (cleanup s).pool.isDoomed = s.pool.isDoomed) : Dooms who (x.andAlways cleanup) := by
  intro s
  rw [ends_andAlways]
  exact (hx s).mono (fun _ s' h' => (h s').trans h') fun _ s' h' => h'.cleanup (h s')

theorem forM {γ : Type} {body : γ → Action PUnit} (h : ∀ c, Dooms who (body c)) :
    ∀ l : List γ, Dooms who (l.forM body)
  | [] => pure _
  | c :: l => bind (h c) fun _ => forM h l

theorem advance {σ : Type} {step : σ → Action (Progress σ α)} {I : σ → Prop} (hstep : ∀ x, I x → Dooms who (step x))
    (hmove : ∀ x, I x → ∀ s, (step x).Ends s (fun p _ => p.All I fun _ => True) fun _ _ => True) :
    ∀ (n : Nat) (x : σ), I x → Dooms who (Action.advance step n x)
  | 0, _, _ => pure _
  | n + 1, x, hx => by
    intro s
    rw [Action.advance, ends_bind]
    refine ((hstep x hx s).and (hmove x hx s)).mono (fun p s₁ h₁ => ?_) fun _ _ h₁ => h₁.1
    obtain ⟨h₁, hp⟩ := h₁
    cases p with
    | finished a => exact h₁
    | moved x' => exact (advance hstep hmove n x' hp s₁).mono (fun _ _ h₂ => h₂.trans h₁) fun _ _ h₂ => h₂.after h₁
    | blocked x' => exact h₁

end Dooms

/-! ## Files and frames -/

theorem dooms_file (h : HandleId) : Dooms who (file h) := by
  refine .bind .get fun s => ?_
  split
  · exact .pure _
  · exact .throw rfl

theorem dooms_resolve (table : TableId) : Dooms who (resolve table) := by
  refine .bind .get fun s => .bind (.ofExcept fun e he => ?_) fun h => .bind (dooms_file h) fun f => ?_
  · unfold Catalog.handle at he
    split at he
    · cases he
      rfl
    · cases he
  · split
    · exact .pure _
    · exact .throw rfl

theorem dooms_readPage (h : HandleId) (page : PageId) : Dooms who (readPage h page) := by
  refine .bind (dooms_file h) fun f => .bind .get fun s => .ofExcept fun e he => ?_
  unfold Volume.readPage PageFile.read at he
  split at he
  · split at he
    · cases he
    · cases he
      rfl
  · cases he
    rfl

theorem dooms_putPage (h : HandleId) (page : PageId) (bytes : Bytes) : Dooms who (putPage h page bytes) := by
  refine .bind (dooms_file h) fun f => .bind .get fun s => .bind (.ofExcept fun e he => ?_) fun v => .modify fun _ => rfl
  unfold Volume.writePage PageFile.write at he
  split at he
  · split at he
    · rename_i hw
      split at hw
      · cases hw
      · cases hw
        cases he
        rfl
    · cases he
  · cases he
    rfl

theorem dooms_writePage (h : HandleId) (page : PageId) (bytes : Bytes) : Dooms who (writePage h page bytes) :=
  .bind (dooms_putPage h page bytes) fun _ => .note _

theorem dooms_writeRaw (h : HandleId) (page : PageId) (bytes : Bytes) : Dooms who (writeRaw h page bytes) :=
  .bind (dooms_putPage h page bytes) fun _ => .note _

theorem dooms_allocatePage (h : HandleId) : Dooms who (allocatePage h) :=
  .bind (dooms_file h) fun _ => .bind .get fun _ => .bind (.modify fun _ => rfl) fun _ => .pure _

theorem dooms_writeBack (f : FrameId) (page : PageId) : Dooms who (writeBack f page) := by
  refine .bind .get fun s => ?_
  dsimp only
  split
  · refine .bind (dooms_resolve _) fun h => ?_
    have hwrite : Dooms who (do
        writePage h page (s.pool.frame f).bytes
        modifyPool fun p => (p.modifyFrame f Frame.written).count fun c =>
          { c with pagesWritten := c.pagesWritten + 1 }) :=
      .bind (dooms_writePage _ _ _) fun _ => .modifyPool fun _ => rfl
    split
    · exact hwrite
    · exact .bind (.append _) fun _ => .bind .force fun _ => hwrite
  · exact .pure _

theorem dooms_evict (f : FrameId) : Dooms who (evict f) := by
  refine .bind .get fun s => ?_
  split
  · exact .pure _
  · exact .bind (dooms_writeBack _ _) fun _ => .modifyPool fun _ => rfl

theorem dooms_takeVictim : Dooms who takeVictim := by
  refine .bind .get fun s => .bind (.modifyPool fun _ => rfl) fun _ => ?_
  split
  · exact .throw rfl
  · exact .bind ((dooms_evict _).orElseDo fun _ => rfl) fun _ => .pure _

theorem dooms_takeFrame : Dooms who takeFrame := by
  refine .bind (.modifyPool fun p => ?_) fun _ => .bind .get fun s => ?_
  · exact Pool.foldl_keeps Pool.isDoomed (fun p f => p.modifyFrame f Frame.reset) (fun _ _ => rfl) _ p
  · split
    · exact .bind (.modifyPool fun _ => rfl) fun _ => .pure _
    · exact dooms_takeVictim

theorem dooms_fetch (page : PageId) : Dooms who (fetch page) := by
  refine .bind .get fun s => ?_
  split
  · exact .bind (.modifyPool fun _ => rfl) fun _ => .pure _
  · refine .bind (.modifyPool fun _ => rfl) fun _ => .bind (dooms_resolve _) fun h => ?_
    refine .bind (dooms_readPage h page) fun bytes => .bind (.modifyPool fun _ => rfl) fun _ => ?_
    exact .bind dooms_takeFrame fun f => .bind (.modifyPool fun _ => rfl) fun _ => .bind (.note _) fun _ => .pure _

/-! ## Guards and requests -/

theorem Guard.isDoomed_giveBack (g : Guard) (p : Pool) : (g.giveBack p).isDoomed = p.isDoomed := by
  unfold Guard.giveBack
  dsimp only
  split <;> rfl

theorem dooms_release (g : Guard) : Dooms who g.release := .modifyPool (Guard.isDoomed_giveBack g)

theorem dooms_look (g : Guard) : Dooms who g.look := .bind .get fun _ => .bind (.note _) fun _ => .pure _

theorem dooms_beginChange (g : Guard) : Dooms who g.beginChange := by
  unfold Guard.beginChange
  dsimp only
  split
  · exact .bind (.modifyPool fun _ => rfl) fun _ => .bind (.note _) fun _ => .pure _
  · exact .pure _

theorem dooms_setBytes (g : Guard) (bytes : Bytes) : Dooms who (g.setBytes bytes) :=
  .bind (.modifyPool fun _ => rfl) fun _ => .note _

/-- A request dooms its transaction where its lock is refused. -/
theorem dooms_lock (r : Request) : Dooms (some r.txn) r.lock := by
  refine .bind .get fun s => ?_
  dsimp only
  refine .bind (.modifyPool fun _ => rfl) fun _ => ?_
  split
  · exact .bind (dooms_fetch _) fun _ => .pure _
  · exact .bind .get fun _ => .pure _
  · intro s'
    rw [ends_bind, ends_modifyPool, ends_throw]
    refine ⟨fun t => ?_, fun t e => congrArg some (Error.deadlock.inj e)⟩
    refine (Pool.isDoomed_doom s'.pool r.txn t).trans ?_
    rw [decide_eq_decide.2 (Iff.of_eq (Error.deadlock.injEq r.txn t)).symm]

/-- A request of a doomed transaction fails, and changes nothing. -/
theorem step_of_doomed {s : Store} {r : Request} (hs : r.stage = .fresh) (h : s.pool.isDoomed r.txn = true) :
    r.step s = .error (.deadlock r.txn) s := by
  unfold Request.step
  rw [bind_of_ok (run_get s), hs]
  dsimp only
  rw [if_pos h]
  rfl

theorem dooms_requestStep (r : Request) : Dooms (some r.txn) r.step := by
  intro s
  unfold Request.step
  rw [ends_bind, ends_get]
  dsimp only
  split
  · split
    · rename_i hd
      refine ⟨fun t => ?_, fun t e => congrArg some (Error.deadlock.inj e)⟩
      by_cases e : r.txn = t
      · rw [← e, hd]
        rfl
      · rw [decide_eq_false fun h => e (Error.deadlock.inj h), Bool.or_false]
    · exact dooms_lock r s
  · split
    · rfl
    · exact dooms_lock r s
  · split
    · rfl
    · rfl
  · split
    · exact Dooms.bind (dooms_look _) (fun _ => .pure _) s
    · rfl

theorem run_of_doomed {s : Store} {t : TxnId} (h : s.pool.isDoomed t = true) (page : PageId) (mode : LockMode) :
    Request.run ⟨t, page, mode, .fresh⟩ s = .error (.deadlock t) s := by
  unfold Request.run
  rw [advance, bind_of_error (step_of_doomed (r := ⟨t, page, mode, .fresh⟩) rfl h)]

theorem request_of_doomed {s : Store} {t : TxnId} (h : s.pool.isDoomed t = true) (page : PageId) (mode : LockMode) :
    request t page mode s = .error (.deadlock t) s := by
  unfold request
  rw [run_of_doomed h page mode]

theorem dooms_requestRun (r : Request) : Dooms (some r.txn) r.run :=
  .advance (I := fun r' => r'.txn = r.txn) (fun r' hr => hr ▸ dooms_requestStep r') (fun r' hr s =>
    (emits_requestStep r' s).mono (fun p _ h => by cases p <;> first | trivial | exact h.2.trans hr) fun _ _ _ => trivial)
    3 r rfl

/-- A request that is not to wait. If it would have to, nobody is doomed. -/
theorem dooms_request (t : TxnId) (page : PageId) (mode : LockMode) : Dooms (some t) (request t page mode) := by
  intro s
  have hrun := dooms_requestRun ⟨t, page, mode, .fresh⟩ s
  unfold Ends at hrun ⊢
  unfold request
  cases hr : Request.run ⟨t, page, mode, .fresh⟩ s with
  | ok a s' =>
    rw [hr] at hrun
    cases a with
    | done g => exact hrun
    | waiting r' => rfl
  | error e s' =>
    rw [hr] at hrun
    exact hrun

theorem dooms_andThen {σ α : Type} (r : Request) {waiting : RequestStage → σ} {body : Guard → Action (Progress σ α)}
    (hbody : ∀ g, Dooms (some r.txn) (body g)) : Dooms (some r.txn) (r.andThen waiting body) := by
  refine .bind (dooms_requestRun r) fun a => ?_
  cases a with
  | done g => exact hbody g
  | waiting r' => exact .pure _

/-! ## Calls -/

/-- A page changed through a guard, which is then given back. -/
theorem dooms_change {α : Type} (g : Guard) (bytes : Bytes) (a : α) : Dooms who (do
    g.setBytes bytes
    g.release
    pure a) :=
  .bind (dooms_setBytes g bytes) fun _ => .bind (dooms_release g) fun _ => .pure _

theorem dooms_read (r : Request) : Dooms (some r.txn) (Call.readStep r) :=
  dooms_andThen r fun g => .bind .get fun _ => .bind (dooms_release g) fun _ => .pure _

theorem dooms_write (r : Request) (patch : Option (Nat × Bytes)) : Dooms (some r.txn) (Call.writeStep r patch) := by
  refine dooms_andThen r fun g => ?_
  cases patch with
  | none => exact .bind .get fun _ => .bind (dooms_release g) fun _ => .pure _
  | some patch =>
    refine .bind (dooms_beginChange g) fun g' => .bind .get fun s => ?_
    split
    · exact .bind (dooms_release g') fun _ => .pure _
    · exact dooms_change g' _ _

theorem harmless_insert {heap : HeapPage} {tuple : Tuple} {e : Error} (h : heap.insert tuple = .error e) :
    e.isTransactionFatal = false := by
  unfold HeapPage.insert at h
  split at h
  · split at h
    · cases h
      rfl
    · cases h
  · cases h
    rfl

theorem harmless_delete {heap : HeapPage} {recordId : Option RecordId} {e : Error}
    (h : heap.delete recordId = .error e) : e.isTransactionFatal = false := by
  unfold HeapPage.delete at h
  split at h
  · cases h
    rfl
  · split at h
    · cases h
      rfl
    · split at h
      · cases h
      · cases h
        rfl

theorem dooms_insertion (i : Insertion) : Dooms (some i.txn) i.step := by
  refine .bind (dooms_file _) fun file => ?_
  split
  · split
    · exact dooms_andThen _ fun g => .bind .get fun _ => .bind (dooms_release g) fun _ => .pure _
    · exact .bind (dooms_allocatePage _) fun _ => .pure _
  · refine dooms_andThen _ fun g => .bind .get fun s => ?_
    dsimp only
    split
    · exact .bind (dooms_release g) fun _ => .pure _
    · refine .bind (dooms_beginChange g) fun g' => ?_
      split
      · rename_i hins
        exact .bind (dooms_release g') fun _ => .throw (harmless_insert hins)
      · exact dooms_change g' _ _

theorem dooms_deletion (d : Deletion) : Dooms (some d.txn) d.step := by
  refine .bind (dooms_file _) fun file => dooms_andThen _ fun g => .bind .get fun s => ?_
  dsimp only
  split
  · refine .bind (dooms_beginChange g) fun g' => ?_
    split
    · rename_i hdel
      exact .bind (dooms_release g') fun _ => .throw (harmless_delete hdel)
    · exact dooms_change g' _ _
  · exact .bind (dooms_release g) fun _ => .throw rfl

theorem dooms_readUnder (c : CursorState) (file : HeapFile) (g : Guard) : Dooms who (c.readUnder file g) :=
  .bind .get fun _ => .bind (dooms_release g) fun _ => .pure _

theorem dooms_scan (c : Scan) : Dooms (some c.txn) c.step := by
  unfold Scan.step
  split
  · exact .bind (dooms_file _) fun file => dooms_andThen _ fun g => .bind (dooms_readUnder _ _ g) fun _ => .pure _
  · exact .pure _

theorem Pool.isDoomed_markDirty (p : Pool) (page : PageId) (t : TxnId) :
    (p.markDirty page t).isDoomed = p.isDoomed := by
  unfold Pool.markDirty
  split <;> rfl

theorem dooms_markDone {σ α : Type} (marks : Bool) (t : TxnId) (pageOf : α → PageId) (p : Progress σ α) :
    Dooms who (Call.markDone marks t pageOf p) := by
  unfold Call.markDone
  split
  · split
    · exact .modifyPool fun p => Pool.isDoomed_markDirty p _ _
    · exact .pure _
  · exact .pure _

/-- A step of a call dooms its transaction only where its request is refused. -/
theorem dooms_call (c : Call) : Dooms (some c.txn) c.step := by
  cases c with
  | read r => exact dooms_read r
  | write r patch => exact dooms_write r patch
  | insert i marks => exact .bind (dooms_insertion i) fun _ => .bind (dooms_markDone _ _ _ _) fun _ => .pure _
  | delete d marks => exact .bind (dooms_deletion d) fun _ => .bind (dooms_markDone _ _ _ _) fun _ => .pure _
  | scan c => exact .bind (dooms_scan c) fun _ => .pure _

/-! ## Cursors and flushes -/

theorem ends_readPage_sentences (c : CursorState) (file : HeapFile) (t : TxnId) (s : Store) :
    (c.readPage file t).Ends s (fun a s' => a.Sentences (some t) s s') fun e s' => Store.Sentences none e s s' := by
  unfold CursorState.readPage
  rw [ends_bind, ends_attempt]
  refine (dooms_request t ⟨file.id, c.next⟩ .read s).mono (fun g s₁ h₁ => ?_) fun e s₁ h₁ => h₁
  cases g with
  | none => exact h₁
  | some g =>
    dsimp only
    rw [ends_bind]
    exact (dooms_readUnder c file g s₁).mono (fun _ _ h₂ => h₂.trans h₁) fun _ _ h₂ => h₂.after h₁

/-- A cursor stops at the first request that fails, and answers with its failure. -/
theorem ends_fill_sentences (file : HeapFile) (t : TxnId) : ∀ (n : Nat) (c : CursorState) (s : Store),
    (c.fill file t n).Ends s (fun a s' => a.2.Sentences (some t) s s') fun e s' => Store.Sentences none e s s'
  | 0, _, _ => rfl
  | n + 1, c, s => by
    unfold CursorState.fill
    split
    · rw [ends_bind]
      refine (ends_readPage_sentences c file t s).mono (fun a s₁ h₁ => ?_) fun _ _ h₁ => h₁
      cases a with
      | answer c' =>
        exact (ends_fill_sentences file t n c' s₁).mono (fun _ _ h₂ => h₂.after h₁) fun _ _ h₂ => h₂.after h₁
      | failed e => exact h₁
      | blocked => exact h₁
    · rfl

theorem ends_hasNext_sentences (c : Cursor) (s : Store) :
    c.hasNext.Ends s (fun a s' => a.2.Sentences (some c.txn) s s') fun e s' => Store.Sentences none e s s' := by
  unfold Cursor.hasNext
  split
  · exact Store.Sentences.of_harmless rfl rfl
  · rw [ends_bind]
    refine (dooms_file c.handle s).mono (fun file s₁ h₁ => ?_) fun _ _ h₁ => h₁
    rw [ends_bind]
    exact (ends_fill_sentences file c.txn _ _ s₁).mono (fun _ _ h₂ => h₂.after h₁) fun _ _ h₂ => h₂.after h₁

theorem dooms_startFlush (only : Option TxnId) (pages : List PageId) : Dooms who (Flush.start only pages) :=
  .bind .get fun _ => .bind (.modifyPool fun p => Pool.foldl_keeps Pool.isDoomed
    (fun p (x : PageId × FrameId) => p.pin x.2) (fun _ _ => rfl) _ p) fun _ => .pure _

theorem isDoomed_unpinAll (pinned : List (PageId × FrameId)) (p : Pool) :
    (pinned.foldl (fun p (_, f) => p.unpin f) p).isDoomed = p.isDoomed :=
  Pool.foldl_keeps Pool.isDoomed (fun p (x : PageId × FrameId) => p.unpin x.2) (fun _ _ => rfl) pinned p

theorem dooms_flush (fl : Flush) : Dooms none fl.step := by
  unfold Flush.step
  split
  · exact .bind (.modify fun s => isDoomed_unpinAll fl.pinned s.pool) fun _ => .pure _
  · refine .bind .get fun s => ?_
    dsimp only
    split
    · exact .pure _
    · split
      · exact .bind ((dooms_writeBack _ _).orElseDo fun s => isDoomed_unpinAll fl.pinned s.pool) fun _ => .pure _
      · exact .pure _

/-! ## Ends of transactions -/

theorem dooms_withPinned (pages : List PageId) {body : List (PageId × FrameId) → Action Unit}
    (hbody : ∀ pinned, Dooms who (body pinned)) : Dooms who (withPinned pages body) :=
  .bind .get fun _ => .bind (.modifyPool fun p => Pool.foldl_keeps Pool.isDoomed
    (fun p (x : PageId × FrameId) => p.pin x.2) (fun _ _ => rfl) _ p) fun _ =>
    (hbody _).andAlways fun s => isDoomed_unpinAll _ s.pool

theorem dooms_logChange (t : TxnId) (page : PageId) (f : FrameId) : Dooms who (logChange t page f) := by
  refine .bind .get fun s => ?_
  dsimp only
  split
  · split
    · exact .pure _
    · exact .bind (.modifyPool fun _ => rfl) fun _ => .append _
  · exact .pure _

theorem dooms_writeBackAll (pinned : List (PageId × FrameId)) : Dooms who (writeBackAll pinned) :=
  .forM (fun x : PageId × FrameId => dooms_writeBack x.2 x.1) pinned

theorem dooms_commit (t : TxnId) (pages : List PageId) : Dooms who (commit t pages) := by
  refine .bind (dooms_withPinned _ fun pinned => ?_) fun _ => .bind (.modifyPool fun _ => rfl) fun _ => .note _
  exact .bind (.forM (fun x : PageId × FrameId => dooms_logChange t x.1 x.2) _) fun _ => .bind (.append _) fun _ =>
    .bind .force fun _ => dooms_writeBackAll pinned

theorem dooms_restorePage (t : TxnId) (page : PageId) (f : FrameId) : Dooms who (restorePage t page f) := by
  refine .bind .get fun s => ?_
  dsimp only
  split
  · split
    · exact .pure _
    · refine .bind (.modifyPool fun _ => rfl) fun _ => ?_
      split
      · exact .bind (dooms_resolve _) fun _ => .bind (dooms_writePage _ _ _) fun _ =>
          .bind (.modifyPool fun _ => rfl) fun _ => .modifyPool fun _ => rfl
      · exact .modifyPool fun _ => rfl
  · exact .pure _

theorem dooms_restoreRetained (page : PageId) (b : BeforeImage) : Dooms who (restoreRetained page b) :=
  .bind (dooms_resolve _) fun _ => .bind (dooms_writePage _ _ _) fun _ => .modifyPool fun _ => rfl

theorem dooms_rollback (t : TxnId) (pages : List PageId) : Dooms who (rollback t pages) := by
  refine .bind (.note _) fun _ => .bind (dooms_withPinned _ fun pinned => ?_) fun _ => .bind .get fun s => ?_
  · exact .forM (fun x : PageId × FrameId => dooms_restorePage t x.1 x.2) pinned
  · refine .bind (.modifyPool fun _ => rfl) fun _ => .bind ?_ fun _ => .bind (.append _) fun _ => .bind .force fun _ =>
      .note _
    exact .forM (fun x : PageId × BeforeImage => dooms_restoreRetained x.1 x.2) _

end Action

end TupleStore
