import TupleStore.Proofs.Ledger.Contents
import TupleStore.Proofs.Lock.Holders
import TupleStore.Proofs.Outcome
import TupleStore.Proofs.Pool.Frames
import TupleStore.Pool.Fetch
import TupleStore.Pool.Flush
import TupleStore.Call

/-!
# What actions add to the trace

* `Leads P s s'` : the store `s'` has only events of the kind `P` more than `s`, and all its locks;
* `Emits P x R` : whatever store the action `x` is run on, it leads to such a store, and its result is as `R`
  says.

A call adds what the work of its transaction can bring about, a request and a scan only what comes of reading, and
a flush what no transaction's does (`emits_call`, `emits_requestStep`, `emits_scan`, `emits_flush`), however they
end. None of them gives up a lock.
-/

namespace TupleStore

set_option autoImplicit false

/-- What holds of the state that a step ends in, or of its result. -/
def Progress.All {σ α : Type} (I : σ → Prop) (R : α → Prop) : Progress σ α → Prop
  | finished a => R a
  | moved x => I x
  | blocked x => I x

/-- What holds of the state in which an operation waits, or of its result. -/
def Advance.All {σ α : Type} (I : σ → Prop) (R : α → Prop) : Advance σ α → Prop
  | done a => R a
  | waiting x => I x

theorem Guard.locks_giveBack (g : Guard) (p : Pool) : (g.giveBack p).locks = p.locks := by
  unfold Guard.giveBack
  dsimp only
  split <;> rfl

/-! ## Stores that come of a store -/

/-- What comes of a store: only events of a kind more, and no lock given up. -/
structure Leads (P : Effect → Prop) (s s' : Store) : Prop where
  trace : Grown P s.trace s'.trace
  locks : s.pool.locks.Keeps s'.pool.locks

namespace Leads

variable {P : Effect → Prop} {s s' s'' : Store}

theorem quiet (htrace : s'.trace = s.trace) (hlocks : s'.pool.locks = s.pool.locks) : Leads P s s' where
  trace := htrace ▸ .refl _
  locks := hlocks ▸ .refl _

theorem refl (s : Store) : Leads P s s := quiet rfl rfl

theorem trans (h : Leads P s s') (h' : Leads P s' s'') : Leads P s s'' :=
  ⟨h.trace.trans h'.trace, h.locks.trans h'.locks⟩

theorem mono {Q : Effect → Prop} (h : Leads P s s') (hPQ : ∀ e, P e → Q e) : Leads Q s s' :=
  ⟨h.trace.mono hPQ, h.locks⟩

theorem noted {e : Effect} (h : P e) (htrace : s'.trace = e :: s.trace) (hlocks : s'.pool.locks = s.pool.locks) :
    Leads P s s' where
  trace := htrace ▸ (Grown.refl _).cons e h
  locks := hlocks ▸ .refl _

end Leads

namespace Action

/-- What an action leads to, and what it ends in if it does not fail. -/
def Emits {α : Type} (P : Effect → Prop) (x : Action α) (R : α → Prop) : Prop :=
  ∀ s, x.Ends s (fun a s' => Leads P s s' ∧ R a) fun _ s' => Leads P s s'

namespace Emits

variable {α β : Type} {P : Effect → Prop} {x : Action α} {R : α → Prop}

/-! ## Building blocks -/

theorem bind {y : Action β} {f : β → Action α} {Q : β → Prop} (hy : Emits P y Q)
    (hf : ∀ b, Q b → Emits P (f b) R) : Emits P (y >>= f) R := by
  intro s
  rw [ends_bind]
  refine (hy s).mono (fun b s₁ h₁ => ?_) fun _ _ h₁ => h₁
  exact (hf b h₁.2 s₁).mono (fun _ _ h₂ => ⟨h₁.1.trans h₂.1, h₂.2⟩) fun _ _ h₂ => h₁.1.trans h₂

theorem pure {a : α} (h : R a) : Emits P (Pure.pure a) R := fun _ => ⟨.refl _, h⟩

theorem throw (e : Error) : Emits P (MonadExcept.throw e : Action α) R := fun _ => .refl _

theorem get : Emits P (MonadState.get : Action Store) fun _ => True := fun _ => ⟨.refl _, trivial⟩

theorem modify {g : Store → Store} (htrace : ∀ s, (g s).trace = s.trace)
    (hlocks : ∀ s, (g s).pool.locks = s.pool.locks) : Emits P (modify g : Action PUnit) fun _ => True := fun s =>
  ⟨.quiet (htrace s) (hlocks s), trivial⟩

theorem modifyPool {g : Pool → Pool} (h : ∀ p, (g p).locks = p.locks) :
    Emits P (Action.modifyPool g) fun _ => True := fun _ => ⟨.quiet rfl (h _), trivial⟩

theorem note {e : Effect} (h : P e) : Emits P (Action.note e) fun _ => True := fun _ => ⟨.noted h rfl rfl, trivial⟩

theorem append {r : LogRecord} (h : P (.logged r)) : Emits P (Action.append r) fun _ => True := fun _ =>
  ⟨.noted h rfl rfl, trivial⟩

theorem force (h : P .forced) : Emits P Action.force fun _ => True := fun _ => ⟨.noted h rfl rfl, trivial⟩

theorem ofExcept (x : Except Error α) : Emits P (Action.ofExcept x) fun _ => True := fun _ => by
  cases x with
  | ok a => exact ⟨.refl _, trivial⟩
  | error e => exact .refl _

theorem orElseDo {cleanup : Store → Store} (hx : Emits P x R) (htrace : ∀ s, (cleanup s).trace = s.trace)
    (hlocks : ∀ s, (cleanup s).pool.locks = s.pool.locks) : Emits P (x.orElseDo cleanup) R := by
  intro s
  rw [ends_orElseDo]
  exact (hx s).mono (fun _ _ h => h) fun _ s' h => h.trans (.quiet (htrace s') (hlocks s'))

theorem mono {Q : Effect → Prop} (hx : Emits P x R) (h : ∀ e, P e → Q e) : Emits Q x R := fun s =>
  (hx s).mono (fun _ _ hs => ⟨hs.1.mono h, hs.2⟩) fun _ _ hs => hs.mono h

theorem weaken {R' : α → Prop} (hx : Emits P x R) (h : ∀ a, R a → R' a) : Emits P x R' := fun s =>
  (hx s).mono (fun a _ hs => ⟨hs.1, h a hs.2⟩) fun _ _ hs => hs

theorem attempt (hx : Emits P x R) : Emits P x.attempt fun a => ∀ b, a = .ok b → R b := by
  intro s
  rw [ends_attempt]
  refine (hx s).mono (fun a s' h => ⟨h.1, fun b e => ?_⟩) fun _ _ h => ⟨h, nofun⟩
  cases e
  exact h.2

theorem advance {σ : Type} {step : σ → Action (Progress σ α)} {I : σ → Prop}
    (hstep : ∀ x, I x → Emits P (step x) (Progress.All I R)) (n : Nat) (x : σ) (hx : I x) :
    Emits P (Action.advance step n x) (Advance.All I R) := by
  induction n generalizing x with
  | zero => exact .pure hx
  | succ n ih =>
    refine (hstep x hx).bind fun p hp => ?_
    cases p with
    | finished a => exact .pure hp
    | moved x' => exact ih x' hp
    | blocked x' => exact .pure hp

end Emits

/-! ## Files and frames -/

variable {P : Effect → Prop} {t : Option TxnId}

theorem emits_file (h : HandleId) : Emits P (file h) fun _ => True := by
  refine .bind .get fun s _ => ?_
  split
  · exact .pure trivial
  · exact .throw _

theorem emits_resolve (table : TableId) : Emits P (resolve table) fun _ => True := by
  refine .bind .get fun s _ => .bind (.ofExcept _) fun h _ => .bind (emits_file h) fun f _ => ?_
  split
  · exact .pure trivial
  · exact .throw _

theorem emits_allocatePage (h : HandleId) : Emits P (allocatePage h) fun _ => True :=
  .bind (emits_file h) fun _ _ => .bind .get fun _ _ =>
    .bind (.modify (fun _ => rfl) fun _ => rfl) fun _ _ => .pure trivial

theorem emits_putPage (h : HandleId) (page : PageId) (bytes : Bytes) : Emits P (putPage h page bytes) fun _ => True :=
  .bind (emits_file h) fun _ _ => .bind .get fun _ _ => .bind (.ofExcept _) fun _ _ =>
    .modify (fun _ => rfl) fun _ => rfl

theorem emits_writeRaw {h : HandleId} {page : PageId} {bytes : Bytes} (hP : P (.rewrote page bytes)) :
    Emits P (writeRaw h page bytes) fun _ => True :=
  .bind (emits_putPage h page bytes) fun _ _ => .note hP

theorem emits_writePage (h : HandleId) (page : PageId) (bytes : Bytes) :
    Emits (Effect.Looks t) (writePage h page bytes) fun _ => True :=
  .bind (emits_putPage h page bytes) fun _ _ => .note trivial

theorem emits_writeBack (f : FrameId) (page : PageId) : Emits (Effect.Looks t) (writeBack f page) fun _ => True := by
  refine .bind .get fun s _ => ?_
  dsimp only
  split
  · refine .bind (emits_resolve _) fun h _ => ?_
    have hwrite : Emits (Effect.Looks t) (do
        writePage h page (s.pool.frame f).bytes
        modifyPool fun p => (p.modifyFrame f Frame.written).count fun c =>
          { c with pagesWritten := c.pagesWritten + 1 }) fun _ => True :=
      .bind (emits_writePage _ _ _) fun _ _ => .modifyPool fun _ => rfl
    split
    · exact hwrite
    · exact .bind (.append trivial) fun _ _ => .bind (.force trivial) fun _ _ => hwrite
  · exact .pure trivial

theorem emits_evict (f : FrameId) : Emits (Effect.Looks t) (evict f) fun _ => True := by
  refine .bind .get fun s _ => ?_
  split
  · exact .pure trivial
  · exact .bind (emits_writeBack _ _) fun _ _ => .modifyPool fun _ => rfl

theorem emits_takeVictim : Emits (Effect.Looks t) takeVictim fun _ => True := by
  refine .bind .get fun s _ => .bind (.modifyPool fun _ => rfl) fun _ _ => ?_
  split
  · exact .throw _
  · exact .bind (.orElseDo (emits_evict _) (fun _ => rfl) fun _ => rfl) fun _ _ => .pure trivial

theorem emits_takeFrame : Emits (Effect.Looks t) takeFrame fun _ => True := by
  refine .bind (.modifyPool Pool.locks_reclaim) fun _ _ => .bind .get fun s _ => ?_
  split
  · exact .bind (.modifyPool fun _ => rfl) fun _ _ => .pure trivial
  · exact emits_takeVictim

theorem emits_fetch (page : PageId) : Emits (Effect.Looks t) (fetch page) fun _ => True := by
  refine .bind .get fun s _ => ?_
  split
  · exact .bind (.modifyPool fun _ => rfl) fun _ _ => .pure trivial
  · refine .bind (.modifyPool fun _ => rfl) fun _ _ => .bind (emits_resolve _) fun h _ => ?_
    refine .bind (.bind (emits_file h) fun _ _ => .bind .get fun _ _ => .ofExcept _) fun bytes _ => ?_
    refine .bind (.modifyPool fun _ => rfl) fun _ _ => .bind emits_takeFrame fun f _ => ?_
    exact .bind (.modifyPool fun _ => rfl) fun _ _ => .bind (.note trivial) fun _ _ => .pure trivial

/-! ## Guards and requests -/

variable {u : TxnId}

theorem emits_look (g : Guard) : Emits (Effect.Looks (some g.txn)) g.look fun _ => True :=
  .bind .get fun _ _ => .bind (.note rfl) fun _ _ => .pure trivial

theorem emits_beginChange (g : Guard) (h : P (.opened g.txn g.page)) :
    Emits P g.beginChange fun g' => g'.txn = g.txn := by
  unfold Guard.beginChange
  dsimp only
  split
  · exact .bind (.modifyPool fun _ => rfl) fun _ _ => .bind (.note h) fun _ _ => .pure rfl
  · exact .pure rfl

theorem emits_setBytes (g : Guard) (bytes : Bytes) :
    Emits (Effect.By (some g.txn)) (g.setBytes bytes) fun _ => True :=
  .bind (.modifyPool fun _ => rfl) fun _ _ => .note rfl

theorem emits_lock (r : Request) : Emits (Effect.Looks (some r.txn)) r.lock
    (Progress.All (fun r' => r'.txn = r.txn) fun g => g.txn = r.txn) := by
  intro s
  have hasked : Leads (Effect.Looks (some r.txn)) s
      (s.modifyPool fun p => { p with locks := (s.pool.locks.acquire r.txn r.page r.mode).2 }) :=
    ⟨.refl _, LockTable.keeps_acquire _ _ _ _⟩
  have hgo : ∀ {x : Action (Progress Request Guard)}, Emits (Effect.Looks (some r.txn)) x
      (Progress.All (fun r' => r'.txn = r.txn) fun g => g.txn = r.txn) →
      x.Ends (s.modifyPool fun p => { p with locks := (s.pool.locks.acquire r.txn r.page r.mode).2 })
        (fun p s' => Leads (Effect.Looks (some r.txn)) s s' ∧
          p.All (fun r' => r'.txn = r.txn) fun g => g.txn = r.txn)
        fun _ s' => Leads (Effect.Looks (some r.txn)) s s' :=
    fun hx => (hx _).mono (fun _ _ h => ⟨hasked.trans h.1, h.2⟩) fun _ _ h => hasked.trans h
  unfold Request.lock
  rw [ends_bind, ends_get]
  dsimp only
  rw [ends_bind, ends_modifyPool]
  split
  · exact hgo (.bind (emits_fetch _) fun _ _ => .pure rfl)
  · exact hgo (.bind .get fun _ _ => .pure rfl)
  · exact hgo (.bind (.modifyPool fun _ => rfl) fun _ _ => .throw _)

theorem emits_requestStep (r : Request) : Emits (Effect.Looks (some r.txn)) r.step
    (Progress.All (fun r' => r'.txn = r.txn) fun g => g.txn = r.txn) := by
  refine .bind .get fun s _ => ?_
  dsimp only
  split
  · split
    · exact .throw _
    · exact emits_lock r
  · split
    · exact .pure rfl
    · exact emits_lock r
  · split
    · exact .bind (.modifyPool fun _ => rfl) fun _ _ => .pure rfl
    · exact .pure rfl
  · split
    · exact .bind (emits_look _) fun _ _ => .pure rfl
    · exact .pure rfl

theorem emits_requestRun (r : Request) : Emits (Effect.Looks (some r.txn)) r.run
    (Advance.All (fun r' => r'.txn = r.txn) fun g => g.txn = r.txn) :=
  .advance (I := fun r' => r'.txn = r.txn) (fun r' hr => by rw [← hr]; exact emits_requestStep r') 3 r rfl

/-- What a request and the work with its guard add together. -/
theorem emits_andThen {σ α : Type} {r : Request} {waiting : RequestStage → σ} {body : Guard → Action (Progress σ α)}
    (hP : ∀ e, Effect.Looks (some r.txn) e → P e)
    (hbody : ∀ g, g.txn = r.txn → Emits P (body g) fun _ => True) :
    Emits P (r.andThen waiting body) fun _ => True := by
  refine .bind ((emits_requestRun r).mono hP) fun a ha => ?_
  cases a with
  | done g => exact hbody g ha
  | waiting r' => exact .pure trivial

/-! ## Calls -/

theorem emits_read (r : Request) : Emits (Effect.Looks (some r.txn)) (Call.readStep r) fun _ => True :=
  emits_andThen (fun _ => id) fun _ _ =>
    .bind .get fun _ _ => .bind (.modifyPool (Guard.locks_giveBack _)) fun _ _ => .pure trivial

/-- A page changed through a guard, which is then given back. -/
theorem emits_change {α : Type} (g : Guard) (bytes : Bytes) (a : α) :
    Emits (Effect.By (some g.txn)) (do
      g.setBytes bytes
      g.release
      pure a) fun _ => True :=
  .bind (emits_setBytes g bytes) fun _ _ => .bind (.modifyPool (Guard.locks_giveBack _)) fun _ _ => .pure trivial

theorem emits_write (r : Request) (patch : Option (Nat × Bytes)) :
    Emits (Effect.By (some r.txn)) (Call.writeStep r patch) fun _ => True := by
  refine emits_andThen (fun _ => Effect.Looks.by) fun g hg => ?_
  rw [← hg]
  cases patch with
  | none => exact .bind .get fun _ _ => .bind (.modifyPool (Guard.locks_giveBack _)) fun _ _ => .pure trivial
  | some patch =>
    refine .bind (emits_beginChange g rfl) fun g' hg => .bind .get fun s _ => ?_
    rw [← hg]
    split
    · exact .bind (.modifyPool (Guard.locks_giveBack _)) fun _ _ => .pure trivial
    · exact emits_change g' _ _

theorem emits_insertion (i : Insertion) : Emits (Effect.By (some i.txn)) i.step fun _ => True := by
  refine .bind (emits_file _) fun file _ => ?_
  split
  · split
    · exact emits_andThen (r := ⟨i.txn, _, .read, i.asking⟩) (fun _ => Effect.Looks.by) fun _ _ =>
        .bind .get fun _ _ => .bind (.modifyPool (Guard.locks_giveBack _)) fun _ _ => .pure trivial
    · exact .bind (emits_allocatePage _) fun _ _ => .pure trivial
  · refine emits_andThen (r := ⟨i.txn, _, .write, i.asking⟩) (fun _ => Effect.Looks.by) fun g hg => ?_
    rw [← show g.txn = i.txn from hg]
    refine .bind .get fun s _ => ?_
    dsimp only
    split
    · exact .bind (.modifyPool (Guard.locks_giveBack _)) fun _ _ => .pure trivial
    · refine .bind (emits_beginChange g rfl) fun g' hg => ?_
      rw [← hg]
      split
      · exact .bind (.modifyPool (Guard.locks_giveBack _)) fun _ _ => .throw _
      · exact emits_change g' _ _

theorem emits_deletion (d : Deletion) : Emits (Effect.By (some d.txn)) d.step fun _ => True := by
  refine .bind (emits_file _) fun file _ => ?_
  refine emits_andThen (r := ⟨d.txn, _, .write, d.asking⟩) (fun _ => Effect.Looks.by) fun g hg => ?_
  rw [← show g.txn = d.txn from hg]
  refine .bind .get fun s _ => ?_
  dsimp only
  split
  · refine .bind (emits_beginChange g rfl) fun g' hg => ?_
    rw [← hg]
    split
    · exact .bind (.modifyPool (Guard.locks_giveBack _)) fun _ _ => .throw _
    · exact emits_change g' _ _
  · exact .bind (.modifyPool (Guard.locks_giveBack _)) fun _ _ => .throw _

theorem emits_readUnder (c : CursorState) (file : HeapFile) (g : Guard) :
    Emits (Effect.Looks t) (c.readUnder file g) fun _ => True :=
  .bind .get fun _ _ => .bind (.modifyPool (Guard.locks_giveBack _)) fun _ _ => .pure trivial

theorem emits_scan (c : Scan) : Emits (Effect.Looks (some c.txn)) c.step fun _ => True := by
  unfold Scan.step
  split
  · refine .bind (emits_file _) fun file _ => ?_
    exact emits_andThen (r := ⟨c.txn, _, .read, c.asking⟩) (fun _ => id) fun _ _ =>
      .bind (emits_readUnder _ _ _) fun _ _ => .pure trivial
  · exact .pure trivial

theorem emits_markDone {σ α : Type} (marks : Bool) (pageOf : α → PageId) (p : Progress σ α) :
    Emits P (Call.markDone marks u pageOf p) fun _ => True := by
  unfold Call.markDone
  split
  · split
    · exact .modifyPool fun p => p.locks_markDirty _ _
    · exact .pure trivial
  · exact .pure trivial

/-- A step of a call adds what the work of its transaction can bring about. -/
theorem emits_call (c : Call) : Emits (Effect.By (some c.txn)) c.step fun _ => True := by
  cases c with
  | read r => exact (emits_read r).mono fun _ => Effect.Looks.by
  | write r patch => exact emits_write r patch
  | insert i marks =>
    exact .bind (emits_insertion i) fun _ _ => .bind (emits_markDone _ _ _) fun _ _ => .pure trivial
  | delete d marks =>
    exact .bind (emits_deletion d) fun _ _ => .bind (emits_markDone _ _ _) fun _ _ => .pure trivial
  | scan c => exact .bind ((emits_scan c).mono fun _ => Effect.Looks.by) fun _ _ => .pure trivial

/-! ## Cursors and flushes -/

theorem emits_request (page : PageId) (mode : LockMode) :
    Emits (Effect.Looks (some u)) (request u page mode) fun _ => True := by
  intro s
  have hrun := emits_requestRun ⟨u, page, mode, .fresh⟩ s
  unfold Ends at hrun ⊢
  unfold request
  cases hr : Request.run ⟨u, page, mode, .fresh⟩ s with
  | ok a s' =>
    rw [hr] at hrun
    cases a with
    | done g => exact ⟨hrun.1, trivial⟩
    | waiting r' => exact ⟨.refl _, trivial⟩
  | error e s' =>
    rw [hr] at hrun
    exact hrun

theorem emits_fill (file : HeapFile) (n : Nat) (c : CursorState) :
    Emits (Effect.Looks (some u)) (c.fill file u n) fun _ => True := by
  induction n generalizing c with
  | zero => exact .pure trivial
  | succ n ih =>
    unfold CursorState.fill
    split
    · refine .bind (Q := fun _ => True) (.bind (emits_request _ _).attempt fun a _ => ?_) fun a _ => ?_
      · split
        · exact .pure trivial
        · exact .pure trivial
        · exact .bind (emits_readUnder _ _ _) fun _ _ => .pure trivial
      · split
        · exact ih _
        · exact .pure trivial
        · exact .pure trivial
    · exact .pure trivial

/-- What is added where a cursor is asked for more. -/
theorem emits_hasNext (c : Cursor) : Emits (Effect.Looks (some c.txn)) c.hasNext fun _ => True := by
  unfold Cursor.hasNext
  split
  · exact .pure trivial
  · exact .bind (emits_file _) fun _ _ => .bind (emits_fill _ _ _) fun _ _ => .pure trivial

theorem emits_startFlush (only : Option TxnId) (pages : List PageId) :
    Emits (Effect.Looks none) (Flush.start only pages) fun _ => True :=
  .bind .get fun _ _ => .bind (.modifyPool (Pool.locks_pinAll _)) fun _ _ => .pure trivial

/-- A step of a flush is no work of a transaction. -/
theorem emits_flush (fl : Flush) : Emits (Effect.Looks none) fl.step fun _ => True := by
  unfold Flush.step
  split
  · exact .bind (.modify (fun _ => rfl) fun s => s.pool.locks_unpinAll fl.pinned) fun _ _ => .pure trivial
  · refine .bind .get fun s _ => ?_
    dsimp only
    split
    · exact .pure trivial
    · split
      · exact .bind (.orElseDo (emits_writeBack _ _) (fun _ => rfl) fun s => s.pool.locks_unpinAll fl.pinned) fun _ _ => .pure trivial
      · exact .pure trivial

end Action

end TupleStore
