import Mathlib.Data.List.Induction
import TupleStore.Proofs.Durability
import TupleStore.Proofs.Refusals

/-!
# Doomed transactions

A transaction that was refused a lock is doomed until it ends: it keeps its locks, all its requests fail and
change nothing, and its end is a rollback, whatever it wants.

* `World.Refuses`, `World.Completes`, `World.Spares` : operations in which a request of a transaction is refused,
  those in which the transaction ends, and runs in which it does not;
* `World.RefusedSince` : a request was refused, and the transaction has not ended since;
* `World.isDoomed_apply` : one operation dooms by a refusal and pardons by an end, and from it
  `World.isDoomed_run` : the doomed are those that were refused since they ended last;
* `World.OnlyAborts` : all that is left to a doomed transaction. It holds after every run (`World.run_dooms`).
-/

namespace TupleStore

set_option autoImplicit false

open TupleStore.Action

/-! ## Refusals and ends in a run -/

namespace World

/-- A request of a transaction is refused: a step of its task fails with a deadlock, or a cursor answers so. -/
def Refuses (w : World) (t : TxnId) : Op → Prop
  | .advance i => ∃ task s, w.tasks[i]? = some task ∧ task.step w.store = .error (.deadlock t) s
  | .iterate cursor => ∃ c s, cursor.hasNext w.store = .ok (c, .failed (.deadlock t)) s
  | _ => False

/-- A transaction ends. -/
def Completes (w : World) (t : TxnId) : Op → Prop
  | .complete u _ => u = t ∧ w.uses? t = false
  | _ => False

/-- A transaction does not end in a run. -/
def Spares (t : TxnId) : List Op → World → Prop
  | [], _ => True
  | op :: ops, w => ¬ w.Completes t op ∧ Spares t ops (w.apply op)

/-- A request of a transaction was refused in a run, and the transaction has not ended since. -/
def RefusedSince (t : TxnId) (ops : List Op) (w : World) : Prop :=
  ∃ before op after, ops = before ++ op :: after ∧ (run before w).Refuses t op ∧
    Spares t after ((run before w).apply op)

/-- A store after the rollback of a transaction: the log has the record of it and no other, the pages that it had
changed have their bytes from before wherever they are, and it has neither locks nor a sentence any more. -/
structure RollsBack (first : PageId → Bytes) (w : World) (t : TxnId) (s : Store) : Prop where
  log : s.log = (w.store.log.append (.abort t)).force
  file : ∀ page, (w.contents first).own t page ≠ none → s.onFile page = (w.contents first).committed page
  cached : ∀ page, (w.contents first).own t page ≠ none →
    ∀ f, s.pool.find? page = some f → (s.pool.frame f).bytes = (w.contents first).committed page
  locks : s.pool.locks = w.store.pool.locks.releaseAll t
  unlocked : ∀ page, s.mode? t page = none
  pardoned : s.pool.isDoomed t = false

/-- What is left to a doomed transaction. -/
structure OnlyAborts (first : PageId → Bytes) (w : World) (t : TxnId) : Prop where
  /-- All requests that it makes fail, and change nothing. -/
  refused : ∀ page mode, Request.run ⟨t, page, mode, .fresh⟩ w.store = .error (.deadlock t) w.store ∧
    Action.request t page mode w.store = .error (.deadlock t) w.store
  /-- It stays doomed and keeps its locks, whatever the others do. -/
  kept : ∀ later : List Op, Spares t later w → (run later w).store.pool.isDoomed t = true ∧
    ∀ page m, w.store.mode? t page = some m → ∃ m', (run later w).store.mode? t page = some m' ∧ m'.covers m = true
  /-- It ends with a rollback, which is an error if it wants to commit. -/
  ended : w.uses? t = false →
    (∃ s, Action.complete t true w.store = .error (.deadlock t) s ∧ w.RollsBack first t s) ∧
      ∃ s, Action.complete t false w.store = .ok () s ∧ w.RollsBack first t s

end World

variable {s₀ s s' : Store} {w : World} {t : TxnId} {uses : List Use}

/-! ## The doomed after an operation -/

theorem Store.Sentences.same {e : Error} {s s' : Store} (h : Store.Sentences none e s s') :
    s'.pool.isDoomed = s.pool.isDoomed := by
  funext t
  rw [h.doomed t, decide_eq_false fun he => Option.some_ne_none t (h.own t he).symm, Bool.or_false]

/-- The end of a transaction pardons it, however it comes out, and nobody else. -/
theorem ends_complete_pardons (t : TxnId) (wantsCommit : Bool) (s : Store) :
    (Action.complete t wantsCommit).Ends s (fun _ s' => s'.pool.isDoomed = (s.pool.pardon t).isDoomed)
      fun _ s' => s'.pool.isDoomed = (s.pool.pardon t).isDoomed := by
  unfold Action.complete
  rw [ends_bind, ends_get]
  dsimp only
  rw [ends_bind, ends_modifyPool]
  have hcommit : ∀ pages, Dooms none ((commit t pages).andAlways (unlock t)) := fun _ =>
    (dooms_commit t _).andAlways fun _ => rfl
  have hrollback : ∀ pages, Dooms none ((rollback t pages).andAlways (unlock t)) := fun _ =>
    (dooms_rollback t _).andAlways fun _ => rfl
  split
  · rw [ends_bind]
    exact (hcommit _ _).mono (fun _ _ h => h) fun _ _ h => h.same
  · rw [ends_bind]
    refine (hrollback _ _).mono (fun _ s' h => ?_) fun _ _ h => h.same
    rw [ends_bind, ends_modifyPool]
    cases wantsCommit with
    | true => exact h
    | false => exact h

theorem dooms_task (task : Task) : Dooms task.txn? task.step := by
  cases task with
  | ask r => exact .bind (dooms_requestStep r) fun _ => .pure _
  | call c => exact .bind (dooms_call c) fun _ => .pure _
  | flush fl => exact .bind (dooms_flush fl) fun _ => .pure _

theorem dooms_guardWrite (g : Guard) (off : Nat) (data : Bytes) : Dooms none (g.write off data) := by
  unfold Guard.write
  split
  · exact .pure _
  · refine .bind (dooms_beginChange g) fun g' => .bind .get fun s => ?_
    split
    · exact .pure _
    · exact .bind (dooms_setBytes g' _) fun _ => .pure _

namespace World

theorem isDoomed_perform {α : Type} {x : Action α} (hx : Dooms none x) {onOk : α → World → World}
    (hon : ∀ a w, (onOk a w).store = w.store) : (w.perform x onOk).store.pool.isDoomed = w.store.pool.isDoomed := by
  refine of_perform (P := fun w' => w'.store.pool.isDoomed = w.store.pool.isDoomed)
    ((hx w.store).mono (fun a s h => ?_) fun _ _ h => h.same)
  rw [hon]
  exact h

theorem refuses_advance {i : Nat} {task : Task} (hi : w.tasks[i]? = some task) :
    w.Refuses t (.advance i) ↔ ∃ s, task.step w.store = .error (.deadlock t) s := by
  refine ⟨fun ⟨task', s, hi', hs⟩ => ?_, fun ⟨s, hs⟩ => ⟨task, s, hi, hs⟩⟩
  cases hi.symm.trans hi'
  exact ⟨s, hs⟩

theorem isDoomed_advance (w : World) (i : Nat) (t : TxnId) :
    (w.apply (.advance i)).store.pool.isDoomed t = true ↔
      w.Refuses t (.advance i) ∨ w.store.pool.isDoomed t = true := by
  simp only [apply, advance]
  cases hi : w.tasks[i]? with
  | none =>
    refine (or_iff_right ?_).symm
    rintro ⟨task, s, hi', -⟩
    cases hi.symm.trans hi'
  | some task =>
    have h := dooms_task task w.store
    unfold Action.Ends at h
    rw [refuses_advance hi]
    dsimp only
    cases hr : task.step w.store with
    | ok p s =>
      rw [hr] at h
      have hsame : s.pool.isDoomed t = true ↔ (∃ s', (EStateM.Result.ok p s : EStateM.Result Error Store _) =
          .error (.deadlock t) s') ∨ w.store.pool.isDoomed t = true := by
        rw [h]
        refine (or_iff_right ?_).symm
        rintro ⟨s', he⟩
        cases he
      cases p <;> exact hsame
    | error e s =>
      rw [hr] at h
      show s.pool.isDoomed t = true ↔ _
      rw [h.doomed t, Bool.or_eq_true, decide_eq_true_iff, or_comm]
      refine or_congr ⟨fun he => ⟨s, he ▸ rfl⟩, ?_⟩ Iff.rfl
      rintro ⟨s', he⟩
      cases he
      rfl

theorem isDoomed_iterate (w : World) (cursor : Cursor) (t : TxnId) :
    (w.apply (.iterate cursor)).store.pool.isDoomed t = true ↔
      w.Refuses t (.iterate cursor) ∨ w.store.pool.isDoomed t = true := by
  have h := ends_hasNext_sentences cursor w.store
  unfold Action.Ends at h
  unfold Refuses
  simp only [apply, perform]
  cases hr : cursor.hasNext w.store with
  | error e s =>
    rw [hr] at h
    dsimp only
    rw [h.same]
    refine (or_iff_right ?_).symm
    rintro ⟨c', s', he⟩
    cases he
  | ok a s =>
    rw [hr] at h
    obtain ⟨c, answer⟩ := a
    dsimp only at h ⊢
    by_cases hf : ∃ e, answer = .failed e
    · obtain ⟨e, rfl⟩ := hf
      rw [Store.Sentences.doomed h t, Bool.or_eq_true, decide_eq_true_iff, or_comm]
      refine or_congr ⟨fun he => ⟨c, s, he ▸ rfl⟩, ?_⟩ Iff.rfl
      rintro ⟨c', s', he⟩
      cases he
      rfl
    · have hsame : s.pool.isDoomed = w.store.pool.isDoomed := by
        cases answer with
        | failed e => exact absurd ⟨e, rfl⟩ hf
        | _ => exact h
      rw [hsame]
      refine (or_iff_right ?_).symm
      rintro ⟨c', s', he⟩
      cases he
      exact hf ⟨_, rfl⟩

/-- An operation dooms the transaction whose request it refuses, and pardons the one that ends. -/
theorem isDoomed_apply (w : World) (op : Op) (t : TxnId) : (w.apply op).store.pool.isDoomed t = true ↔
    w.Refuses t op ∨ w.store.pool.isDoomed t = true ∧ ¬ w.Completes t op := by
  have hsame : ∀ {w' : World}, w'.store.pool.isDoomed = w.store.pool.isDoomed → ¬ w.Refuses t op → ¬ w.Completes t op →
      (w'.store.pool.isDoomed t = true ↔
        w.Refuses t op ∨ w.store.pool.isDoomed t = true ∧ ¬ w.Completes t op) := by
    intro w' h hr hc
    rw [h, or_iff_right hr, and_iff_left hc]
  have hflush : ∀ only pages, (w.perform (Flush.start only pages) fun flush => addTask (.flush flush)).store.pool.isDoomed =
      w.store.pool.isDoomed := fun only pages => isDoomed_perform (dooms_startFlush only pages) fun _ _ => rfl
  cases op with
  | ask t page mode => exact hsame rfl id id
  | begin start =>
    refine hsame (of_perform (P := fun w' => w'.store.pool.isDoomed = w.store.pool.isDoomed)
      ((start.ends_call (s := w.store)).mono (fun c s h => ?_) fun _ s h => ?_)) id id
    · exact h.1 ▸ rfl
    · exact h ▸ rfl
  | flushPage page => exact hsame (hflush none [page]) id id
  | flushAll => exact hsame (hflush none _) id id
  | flushTxn u => exact hsame (hflush (some u) _) id id
  | advance i => exact (isDoomed_advance w i t).trans (or_congr Iff.rfl (and_iff_left id).symm)
  | look i =>
    refine hsame ?_ id id
    simp only [apply]
    cases w.guards[i]? with
    | none => rfl
    | some g => exact isDoomed_perform (dooms_look g) fun _ _ => rfl
  | patch i off data =>
    refine hsame ?_ id id
    simp only [apply]
    cases w.guards[i]? with
    | none => rfl
    | some g => exact isDoomed_perform (dooms_guardWrite g off data) fun _ _ => rfl
  | drop i =>
    refine hsame ?_ id id
    simp only [apply]
    cases w.guards[i]? with
    | none => rfl
    | some g => exact isDoomed_perform (dooms_release g) fun _ _ => rfl
  | complete u wantsCommit =>
    have hrefuse : ¬ w.Refuses t (.complete u wantsCommit) := id
    rw [or_iff_right hrefuse]
    simp only [apply, Completes]
    split
    · rename_i hu
      refine (and_iff_left ?_).symm
      rintro ⟨rfl, hidle⟩
      rw [hu] at hidle
      cases hidle
    · rename_i hu
      have hpardon : (w.perform (Action.complete u wantsCommit) fun _ w => w).store.pool.isDoomed =
          (w.store.pool.pardon u).isDoomed :=
        of_perform (P := fun w' => w'.store.pool.isDoomed = _) (ends_complete_pardons u wantsCommit w.store)
      rw [hpardon, Pool.isDoomed_pardon, Bool.and_eq_true, decide_eq_true_iff]
      refine and_congr Iff.rfl (not_congr ⟨fun e => ⟨e, ?_⟩, And.left⟩)
      rw [← e]
      exact Bool.eq_false_iff.2 hu
  | allocate hd => exact hsame (isDoomed_perform (dooms_allocatePage hd) fun _ _ => rfl) id id
  | iterate cursor => exact (isDoomed_iterate w cursor t).trans (or_congr Iff.rfl (and_iff_left id).symm)
  | rewrite hd page bytes => exact hsame (isDoomed_perform (dooms_writeRaw hd page bytes) fun _ _ => rfl) id id

/-! ## Runs -/

theorem spares_append (ops ops' : List Op) (w : World) :
    Spares t (ops ++ ops') w ↔ Spares t ops w ∧ Spares t ops' (run ops w) := by
  induction ops generalizing w with
  | nil => exact (and_iff_right trivial).symm
  | cons op ops ih => exact (and_congr Iff.rfl (ih (w.apply op))).trans and_assoc.symm

theorem refusedSince_concat (ops : List Op) (op : Op) (w : World) : RefusedSince t (ops ++ [op]) w ↔
    (run ops w).Refuses t op ∨ RefusedSince t ops w ∧ ¬ (run ops w).Completes t op := by
  constructor
  · rintro ⟨before, op', after, he, hr, hs⟩
    cases after using List.reverseRecOn with
    | nil =>
      obtain ⟨rfl, e⟩ := List.append_inj' he rfl
      cases e
      exact Or.inl hr
    | append_singleton after last =>
      rw [← List.cons_append, ← List.append_assoc] at he
      obtain ⟨rfl, e⟩ := List.append_inj' he rfl
      cases e
      rw [spares_append] at hs
      refine Or.inr ⟨⟨before, op', after, rfl, hr, hs.1⟩, ?_⟩
      rw [run_append]
      exact hs.2.1
  · rintro (hr | ⟨⟨before, op', after, rfl, hr, hs⟩, hc⟩)
    · exact ⟨ops, op, [], rfl, hr, trivial⟩
    · refine ⟨before, op', after ++ [op], List.append_assoc .., hr, (spares_append _ _ _).2 ⟨hs, ?_, trivial⟩⟩
      rw [run_append] at hc
      exact hc

/-- After every run the doomed transactions are those that were refused since they ended last. -/
theorem isDoomed_run (hw : w.store.pool.isDoomed t = false) (ops : List Op) :
    (run ops w).store.pool.isDoomed t = true ↔ RefusedSince t ops w := by
  induction ops using List.reverseRecOn with
  | nil =>
    refine ⟨fun h => ?_, ?_⟩
    · exact absurd (hw.symm.trans h) Bool.false_ne_true
    · rintro ⟨before, op, after, he, -⟩
      exact absurd he.symm (List.append_ne_nil_of_right_ne_nil before (List.cons_ne_nil op after))
  | append_singleton ops op ih =>
    rw [refusedSince_concat, run_append, ← ih]
    exact isDoomed_apply (run ops w) op t

/-- Whoever does not end keeps what it holds, and its sentence. -/
theorem Stands.kept (h : w.Stands s₀) (later : List Op) (hs : Spares t later w)
    (hd : w.store.pool.isDoomed t = true) : (run later w).store.pool.isDoomed t = true ∧
    ∀ page m, w.store.mode? t page = some m → ∃ m', (run later w).store.mode? t page = some m' ∧ m'.covers m = true := by
  induction later generalizing w with
  | nil => exact ⟨hd, fun _ m hm => ⟨m, hm, m.covers_self⟩⟩
  | cons op later ih =>
    have hd' := (isDoomed_apply w op t).2 (Or.inr ⟨hd, hs.1⟩)
    obtain ⟨hdoomed, hlocks⟩ := ih (h.apply op) hs.2 hd'
    refine ⟨hdoomed, fun page m hm => ?_⟩
    have hkept : ∃ m', (w.apply op).store.mode? t page = some m' ∧ m'.covers m = true := by
      rcases locks_apply h op hm with hkept | ⟨⟨commits, rfl⟩, -⟩
      · exact hkept
      · have hbusy : w.uses? t = true := Bool.not_eq_false _ ▸ fun hidle => hs.1 ⟨rfl, hidle⟩
        rw [show w.apply (.complete t commits) = w from if_pos hbusy]
        exact ⟨m, hm, m.covers_self⟩
    obtain ⟨m₁, hm₁, hc₁⟩ := hkept
    obtain ⟨m₂, hm₂, hc₂⟩ := hlocks page m₁ hm₁
    exact ⟨m₂, hm₂, LockMode.covers_trans hc₂ hc₁⟩

end World

/-! ## The rollback of a doomed transaction -/

namespace Action

/-- An action that puts nothing into the log. -/
def Unlogged {α : Type} (x : Action α) : Prop := ∀ s, x.Ends s (fun _ s' => s'.log = s.log) fun _ s' => s'.log = s.log

namespace Unlogged

variable {α β : Type}

theorem bind {y : Action β} {f : β → Action α} (hy : Unlogged y) (hf : ∀ b, Unlogged (f b)) : Unlogged (y >>= f) := by
  intro s
  rw [ends_bind]
  refine (hy s).mono (fun b s₁ h₁ => ?_) fun _ _ h₁ => h₁
  exact (hf b s₁).mono (fun _ _ h₂ => h₂.trans h₁) fun _ _ h₂ => h₂.trans h₁

theorem modifyPool (g : Pool → Pool) : Unlogged (Action.modifyPool g) := fun _ => rfl

theorem forM {γ : Type} {body : γ → Action PUnit} (h : ∀ c, Unlogged (body c)) : ∀ l : List γ, Unlogged (l.forM body)
  | [] => fun _ => rfl
  | c :: l => bind (h c) fun _ => forM h l

theorem writePage (hd : HandleId) (page : PageId) (bytes : Bytes) : Unlogged (writePage hd page bytes) := by
  refine bind (bind (fun s => ?_) fun file => bind (fun _ => rfl) fun s => bind ?_ fun v _ => rfl) fun _ _ => rfl
  · exact (ends_file hd).mono (fun _ _ h => congrArg Store.log h.1) fun _ _ h => congrArg Store.log h
  · cases s.volume.writePage hd file page bytes with
    | ok v => exact fun _ => rfl
    | error e => exact fun _ => rfl

theorem resolve (table : TableId) : Unlogged (resolve table) := fun _ =>
  (ends_resolve_same table).mono (fun _ _ h => congrArg Store.log h) fun _ _ h => congrArg Store.log h

theorem restorePage (t : TxnId) (page : PageId) (f : FrameId) : Unlogged (restorePage t page f) := by
  refine bind (fun _ => rfl) fun s => ?_
  dsimp only
  split
  · split
    · exact fun _ => rfl
    · refine bind (modifyPool _) fun _ => ?_
      split
      · exact bind (resolve _) fun _ => bind (writePage _ _ _) fun _ => bind (modifyPool _) fun _ => modifyPool _
      · exact modifyPool _
  · exact fun _ => rfl

theorem restoreRetained (page : PageId) (b : BeforeImage) : Unlogged (restoreRetained page b) :=
  bind (resolve _) fun _ => bind (writePage _ _ _) fun _ => modifyPool _

end Unlogged

/-- A rollback puts its record into the log, and no other. -/
theorem ends_rollback_log (t : TxnId) (pages : List PageId) (s : Store) :
    (rollback t pages).Ends s (fun _ s' => s'.log = (s.log.append (.abort t)).force) fun _ _ => True := by
  unfold rollback
  rw [ends_bind, ends_note, ends_bind]
  have hpages : Unlogged (withPinned pages fun pinned => pinned.forM fun x => restorePage t x.1 x.2) := by
    refine .bind (fun _ => rfl) fun s => .bind (.modifyPool _) fun _ s' => ?_
    rw [ends_andAlways]
    exact Unlogged.forM (fun x : PageId × FrameId => .restorePage t x.1 x.2) _ s'
  refine (hpages _).mono (fun _ s₁ h₁ => ?_) fun _ _ _ => trivial
  rw [ends_bind, ends_get, ends_bind, ends_modifyPool, ends_bind]
  refine (Unlogged.forM (fun x : PageId × BeforeImage => .restoreRetained x.1 x.2) _ _).mono (fun _ s₂ h₂ => ?_)
    fun _ _ _ => trivial
  rw [ends_bind, ends_append, ends_bind, ends_force, ends_note]
  exact congrArg (fun log : Log => (log.append (.abort t)).force) (h₂.trans h₁)

/-- So does the end of a doomed transaction, whatever it wants. -/
theorem ends_complete_log (hd : s.pool.isDoomed t = true) (wantsCommit : Bool) :
    (Action.complete t wantsCommit).Ends s (fun _ s' => s'.log = (s.log.append (.abort t)).force)
      fun e s' => e = .deadlock t → s'.log = (s.log.append (.abort t)).force := by
  unfold Action.complete
  rw [ends_bind, ends_get]
  dsimp only
  rw [hd, ends_bind, ends_modifyPool, Bool.not_true, Bool.and_false, if_neg Bool.false_ne_true, ends_bind, ends_andAlways]
  have hdooms : ∀ pages, Dooms none (rollback t pages) := dooms_rollback t
  refine ((ends_rollback_log t _ _).and (hdooms _ _)).mono (fun _ s' h => ?_) fun e s' h he => ?_
  · rw [ends_bind, ends_modifyPool]
    cases wantsCommit with
    | true => exact fun _ => h.1
    | false => exact h.1
  · exact absurd (h.2.own t he) (Option.some_ne_none t).symm

end Action

/-- Once a transaction was rolled back, the cache has the bytes of its pages from before. -/
theorem Finished.restored {page : PageId} (hf : Finished t false s s') (h : Stands s₀ uses s) (h' : Stands s₀ uses s')
    (hin : Inside s.trace) (hown : (contents s₀.onFile s.trace).own t page ≠ none) {f : FrameId}
    (hc : s'.pool.find? page = some f) : (s'.pool.frame f).bytes = (contents s₀.onFile s.trace).committed page := by
  obtain ⟨hnone, hcommitted⟩ := hf.settled h hin hown
  obtain ⟨hc', ho, -⟩ := account_of_contents s₀.onFile (hf.inside hin) page
  have hcached := Store.cached_eq h'.pool.mapped ((h'.pool.mapped page f).1 hc)
  rw [if_neg Bool.false_ne_true] at hcommitted
  calc (s'.pool.frame f).bytes = (account s₀.onFile s'.trace page).current := (h'.pages page).content _ hcached
    _ = (account s₀.onFile s'.trace page).committed := Account.current_of_own_none fun u => (ho u).trans (hnone u)
    _ = (contents s₀.onFile s.trace).committed page := hc'.trans hcommitted

namespace World

theorem Stands.rollsBack (h : w.Stands s₀) (hin : Inside w.store.trace) {s : Store}
    (hs : TupleStore.Stands s₀ (w.uses s₀) s) (hf : Finished t false w.store s)
    (hlog : s.log = (w.store.log.append (.abort t)).force)
    (hdoomed : s.pool.isDoomed = (w.store.pool.pardon t).isDoomed) : w.RollsBack s₀.onFile t s where
  log := hlog
  file _ hown := (hf.keeps h.store hs hin hown).file
  cached _ hown _ hc := hf.restored h.store hs hin hown hc
  locks := hf.locks
  unlocked page := by
    rw [Store.mode?, hf.locks, LockTable.mode?_releaseAll h.store.locks, if_pos rfl]
  pardoned := by
    rw [hdoomed, Pool.isDoomed_pardon, decide_eq_false (not_not_intro rfl), Bool.and_false]

theorem Stands.onlyAborts (h : w.Stands s₀) (hin : Inside w.store.trace) (hd : w.store.pool.isDoomed t = true) :
    w.OnlyAborts s₀.onFile t where
  refused page mode := ⟨run_of_doomed hd page mode, request_of_doomed hd page mode⟩
  kept later hs := h.kept later hs hd
  ended hu := by
    have hend : ∀ wantsCommit, (Action.complete t wantsCommit).Ends w.store
        (fun _ s => wantsCommit = false ∧ w.RollsBack s₀.onFile t s)
        fun e s => wantsCommit = true ∧ e = .deadlock t ∧ w.RollsBack s₀.onFile t s := by
      intro wantsCommit
      refine (((h.store.complete (away_of_uses? s₀ hu) wantsCommit).and (ends_complete_log hd wantsCommit)).and
        (ends_complete_pardons t wantsCommit w.store)).mono (fun _ s hs => ?_) fun e s hs => ?_
      · obtain ⟨⟨⟨hs, hf, hclear⟩, hlog⟩, hpardon⟩ := hs
        have hwants : wantsCommit = false := Bool.eq_false_iff.2 fun hw => by
          cases (hclear hw).symm.trans hd
        subst hwants
        exact ⟨rfl, h.rollsBack hin hs hf hlog hpardon⟩
      · obtain ⟨⟨⟨hs, hf, rfl, hw, -⟩, hlog⟩, hpardon⟩ := hs
        exact ⟨hw, rfl, h.rollsBack hin hs hf (hlog rfl) hpardon⟩
    refine ⟨?_, ?_⟩
    · have htrue := hend true
      unfold Action.Ends at htrue
      cases hr : Action.complete t true w.store with
      | ok a s =>
        rw [hr] at htrue
        cases htrue.1
      | error e s =>
        rw [hr] at htrue
        exact ⟨s, by rw [htrue.2.1], htrue.2.2⟩
    · have hfalse := hend false
      unfold Action.Ends at hfalse
      cases hr : Action.complete t false w.store with
      | ok a s =>
        rw [hr] at hfalse
        exact ⟨s, rfl, hfalse.2⟩
      | error e s =>
        rw [hr] at hfalse
        cases hfalse.1

/-- After every run on a store that has just been opened, the doomed transactions are those that were refused since
they ended last, and they can only be rolled back. -/
theorem run_dooms (o : Opening s₀) (ops : List Op) (hops : ∀ op ∈ ops, op.Cached) (t : TxnId) :
    ((run ops { store := s₀ }).store.pool.isDoomed t = true ↔ RefusedSince t ops { store := s₀ }) ∧
      (RefusedSince t ops { store := s₀ } → (run ops { store := s₀ }).OnlyAborts s₀.onFile t) := by
  have hnone : (World.mk s₀ [] []).store.pool.isDoomed t = false := by
    obtain ⟨config, hpool⟩ := o.pool
    show s₀.pool.doomed.contains t = false
    rw [hpool]
    exact Std.TreeSet.contains_emptyc
  have hiff := isDoomed_run hnone ops
  exact ⟨hiff, fun hr => (stands_run o ops).onlyAborts (inside_run o hops) (hiff.2 hr)⟩

/-- Two transactions change a page each and ask for the page of the other. The second is refused. -/
def deadlocking : List Op :=
  [.ask ⟨1⟩ (.ofT 0) .write, .advance 0, .advance 0, .advance 0, .patch 0 0 [99], .drop 0,
    .ask ⟨2⟩ (.ofT 1) .write, .advance 0, .advance 0, .advance 0, .patch 0 0 [98], .drop 0,
    .ask ⟨1⟩ (.ofT 1) .write, .advance 0, .ask ⟨2⟩ (.ofT 0) .write, .advance 0]

theorem run_dooms_deadlocking :
    Opening .narrow ∧ (∀ op ∈ deadlocking, op.Cached) ∧
      (run deadlocking { store := .narrow }).store.pool.isDoomed ⟨2⟩ = true ∧
      (run deadlocking { store := .narrow }).OnlyAborts Store.narrow.onFile ⟨2⟩ := by
  have hcached : ∀ op ∈ deadlocking, op.Cached := by simp [deadlocking, Op.Cached]
  have hdoomed : (run deadlocking { store := .narrow }).store.pool.isDoomed ⟨2⟩ = true := by decide +kernel
  have h := run_dooms Opening.narrow deadlocking hcached ⟨2⟩
  exact ⟨Opening.narrow, hcached, hdoomed, h.2 (h.1.1 hdoomed)⟩

end World

end TupleStore
