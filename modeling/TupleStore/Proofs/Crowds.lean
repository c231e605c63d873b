import TupleStore.Proofs.Attribution
import TupleStore.Proofs.Pool.Finishing
import TupleStore.Proofs.Pool.Uninterrupted

/-!
# Crowds

In a world a transaction ends all at once. In a crowd it can also end in steps, as calls and flushes go on in
steps, so that others are at work in between. A transaction that ends does nothing else meanwhile.

* `Crowd.apply`, `Crowd.run` : what can happen in a crowd, and what comes of it;
* `Crowd.run_finish` : where no latch is in use and nobody comes in between, a transaction ends as in a world;
* `Crowd.overtakes` : a flush comes between a commit that has logged the change of a page and the force that is
  to follow, and would write the page. The frame has no before-image any more, so the flush does not know that
  something is to be forced first;
* `Crowd.heeds` : a run in which no flush does that;
* `Crowd.stands_run` : after such a run the invariant holds, and the trace says of each transaction that ends how far
  it has come.
-/

namespace TupleStore

set_option autoImplicit false

open TupleStore.Action

/-- A world with the ends of transactions that are on their way. -/
structure Crowd extends World where
  endings : List Ending := []

/-- What can happen in a crowd. Ends on their way are named by their places in their list. -/
inductive Crowd.Move where
  /-- Whatever can happen in a world. -/
  | op (op : Op)
  /-- Begin to end a transaction. -/
  | finish (txn : TxnId) (wantsCommit : Bool)
  /-- Take one step of the end of a transaction. -/
  | step (ending : Nat)

namespace Crowd

/-- Whether a transaction is about to end. -/
def isEnding (c : Crowd) (t : TxnId) : Bool := c.endings.any fun e => e.txn = t

/-- The crowd once a transaction has begun to end. One that has a page in use does not. -/
def finish (c : Crowd) (t : TxnId) (wantsCommit : Bool) : Crowd :=
  if c.uses? t || c.isEnding t then c
  else
    match Ending.start t wantsCommit c.store with
    | .ok e store => { c with store, endings := e :: c.endings }
    | .error _ store => { c with store }

/-- The crowd with one step of an end taken. An end that is over, or fails, is gone. -/
def step (c : Crowd) (i : Nat) : Crowd :=
  match c.endings[i]? with
  | none => c
  | some e =>
    match e.step c.store with
    | .error _ store => { c with store, endings := c.endings.eraseIdx i }
    | .ok (.finished _) store => { c with store, endings := c.endings.eraseIdx i }
    | .ok (.moved e) store => { c with store, endings := c.endings.set i e }
    | .ok (.blocked e) store => { c with store, endings := c.endings.set i e }

/-- The crowd after something has happened. -/
def apply (c : Crowd) : Move → Crowd
  | .op op => if (c.actor op).any c.isEnding then c else { c with toWorld := c.toWorld.apply op }
  | .finish t wantsCommit => c.finish t wantsCommit
  | .step i => c.step i

/-- The crowd after a run. -/
def run (moves : List Move) (c : Crowd) : Crowd := moves.foldl apply c

theorem of_finish {c : Crowd} {t : TxnId} {wantsCommit : Bool} {P : Crowd → Prop} (hc : P c)
    (h : c.uses? t = false → c.isEnding t = false → (Ending.start t wantsCommit).Ends c.store
      (fun e s => P { c with store := s, endings := e :: c.endings }) fun _ s => P { c with store := s }) :
    P (c.finish t wantsCommit) := by
  unfold finish
  split
  · exact hc
  · rename_i hidle
    obtain ⟨hu, hne⟩ := Bool.or_eq_false_iff.1 (Bool.eq_false_iff.2 hidle)
    have hstart := h hu hne
    unfold Ends at hstart
    split
    · rename_i hr
      rwa [hr] at hstart
    · rename_i hr
      rwa [hr] at hstart

theorem of_step {c : Crowd} {i : Nat} {P : Crowd → Prop} (hc : P c)
    (h : ∀ e, c.endings[i]? = some e → e.step.Ends c.store
      (fun p s => match p with
        | .finished _ => P { c with store := s, endings := c.endings.eraseIdx i }
        | .moved e' => P { c with store := s, endings := c.endings.set i e' }
        | .blocked e' => P { c with store := s, endings := c.endings.set i e' })
      fun _ s => P { c with store := s, endings := c.endings.eraseIdx i }) : P (c.step i) := by
  unfold step
  split
  · exact hc
  · rename_i e hi
    have hstep := h e hi
    unfold Ends at hstep
    split
    all_goals
      rename_i hr
      rwa [hr] at hstep

/-! ## Nothing in between -/

/-- The store that is left when all is over. -/
def left : EStateM.Result Error Store Unit → Store
  | .ok _ s => s
  | .error _ s => s

theorem run_steps {c : Crowd} {e : Ending} {s : Store} {r : EStateM.Result Error Store Unit} (h : Ending.Runs e s r)
    (rest : List Ending) :
    ∃ n, run (List.replicate n (.step 0)) { c with store := s, endings := e :: rest } =
      { c with store := left r, endings := rest } := by
  induction h with
  | finished h => exact ⟨1, by simp only [List.replicate, run, List.foldl, apply, step, List.getElem?_cons_zero, h]; rfl⟩
  | failed h => exact ⟨1, by simp only [List.replicate, run, List.foldl, apply, step, List.getElem?_cons_zero, h]; rfl⟩
  | moved h _ ih =>
    obtain ⟨n, hn⟩ := ih
    refine ⟨n + 1, ?_⟩
    rw [← hn]
    simp only [List.replicate, run, List.foldl, apply, step, List.getElem?_cons_zero, h]
    rfl

/-- A transaction that ends in steps, with nothing in between, ends as in a world, if no latch is in use. -/
theorem run_finish (c : Crowd) (hs : c.store.Unlatched) {t : TxnId} (hne : c.isEnding t = false) (wantsCommit : Bool) :
    ∃ n, run (.finish t wantsCommit :: List.replicate n (.step 0)) c = c.apply (.op (.complete t wantsCommit)) := by
  have hop : c.apply (.op (.complete t wantsCommit)) =
      { c with toWorld := c.toWorld.apply (.complete t wantsCommit) } := if_neg (Bool.eq_false_iff.1 hne)
  rw [hop]
  cases hu : c.uses? t with
  | true =>
    refine ⟨0, ?_⟩
    have hworld : c.toWorld.apply (.complete t wantsCommit) = c.toWorld := if_pos hu
    have hcrowd : c.finish t wantsCommit = c := if_pos (Bool.or_eq_true_iff.2 (Or.inl hu))
    rw [hworld]
    exact hcrowd
  | false =>
    have hstart := Ending.runs_complete hs t wantsCommit
    unfold Ends at hstart
    cases hr : Ending.start t wantsCommit c.store with
    | error err s =>
      rw [hr] at hstart
      exact hstart.elim
    | ok e s =>
      rw [hr] at hstart
      obtain ⟨n, hn⟩ := run_steps (c := c) hstart c.endings
      refine ⟨n, ?_⟩
      have hcrowd : c.finish t wantsCommit = { c with store := s, endings := e :: c.endings } := by
        rw [finish, hu, hne, hr]
        rfl
      have hworld : c.toWorld.apply (.complete t wantsCommit) =
          { c.toWorld with store := left (Action.complete t wantsCommit c.store) } := by
        simp only [World.apply, hu, World.perform]
        cases Action.complete t wantsCommit c.store <;> rfl
      rw [hworld, ← hn]
      exact congrArg (run (List.replicate n (.step 0))) hcrowd

/-! ## Flushes that come too early -/

/-- A step of a flush that writes a page before a commit has forced its change of it. -/
def overtakes (c : Crowd) : Move → Bool
  | .op (.advance i) =>
    match c.tasks[i]? with
    | some (.flush fl) => fl.overtakes c.store c.endings
    | _ => false
  | _ => false

/-- No flush overtakes a commit in a run. -/
def heeds : List Move → Crowd → Bool
  | [], _ => true
  | m :: moves, c => !c.overtakes m && heeds moves (c.apply m)

/-! ## The invariant -/

/-- The invariant of a crowd: that of its store beside all transactions that end, with well-formed guards and tasks,
and a trace that says how far the transactions have come. -/
structure Stands (s₀ : Store) (c : Crowd) : Prop where
  store : Standing c.endings s₀ (c.uses s₀) c.store
  guards : ∀ g ∈ c.guards, g.changed = true → g.mode = .write
  tasks : ∀ task ∈ c.tasks, task.Proper
  told : ∀ e ∈ c.endings, e.Told c.store.trace

end Crowd

theorem Standing.stewardship (s₀ : Store) (endings : List Ending) :
    Stewardship .any s₀ (fun _ _ => True)
      (fun t page s => (account s₀.onFile s.trace page).opener = some t ∧ ∀ e ∈ endings, e.txn ≠ t)
      (Standing endings s₀) (fun t => ∀ e ∈ endings, e.txn ≠ t) (Flush.MayGoOn s₀.onFile) where
  toCustody := custody s₀ endings
  startFlush only pages h := h.startFlush only pages
  flush hmay _ h hr := (h.flush hr hmay).mono (fun p _ h' => by
    cases p with
    | finished _ => exact h'
    | moved fl' => exact h'.2
    | blocked fl' =>
      obtain ⟨rfl, h'⟩ := h'
      exact ⟨hr, h'⟩) fun _ _ h' => h'.elim
  complete wantsCommit ht _ h haway := (h.complete_finishes haway ht wantsCommit).mono (fun _ _ h' => h'.1) fun _ _ h' => h'.1

namespace Crowd

variable {s₀ : Store} {c : Crowd} {t : TxnId}

theorem txn_ne_of_not_isEnding (h : c.isEnding t = false) : ∀ e ∈ c.endings, e.txn ≠ t := fun e he het =>
  absurd (List.any_eq_false.1 h e he) (by simp [het])

namespace Stands

theorem toKept (h : c.Stands s₀) : c.toWorld.Kept s₀ (fun _ => True) (Standing c.endings s₀) :=
  ⟨h.store, h.guards, h.tasks, fun _ _ _ _ => trivial⟩

/-- The end of a transaction all at once, beside others. -/
theorem finishes (h : c.Stands s₀) (hu : c.uses? t = false) (hne : c.isEnding t = false) (wantsCommit : Bool) :
    (Action.complete t wantsCommit).Ends c.store (fun _ s => Finishes t wantsCommit c.store s)
      fun e s => e = .deadlock t ∧ wantsCommit = true ∧ Finishes t false c.store s :=
  (h.store.complete_finishes (World.away_of_uses? s₀ hu) (txn_ne_of_not_isEnding hne) wantsCommit).mono
    (fun _ _ hs => hs.2.1) fun _ _ hs => ⟨hs.2.2.1, hs.2.2.2.1, hs.2.1⟩

/-! ### Operations -/

/-- What may happen in a world may happen beside transactions that end. -/
theorem mayHeed (h : c.Stands s₀) {op : Op} (hactor : (c.actor op).any c.isEnding = false)
    (hover : c.overtakes (.op op) = false) :
    op.Heeds (fun t => ∀ e ∈ c.endings, e.txn ≠ t) (Flush.MayGoOn s₀.onFile) c.toWorld := by
  cases op with
  | advance i =>
    intro task hi
    have htxn : c.actor (.advance i) = task.txn? := by
      rw [World.actor, show c.tasks[i]? = some task from hi, Option.bind_some]
    rw [htxn] at hactor
    cases task with
    | ask r => exact txn_ne_of_not_isEnding hactor
    | call q => exact txn_ne_of_not_isEnding hactor
    | flush fl =>
      rw [overtakes, hi] at hover
      exact (h.store.perm (World.uses_task hi)).mayGoOn (h.tasks _ (List.mem_of_getElem? hi)) h.told hover
  | complete t wantsCommit => exact txn_ne_of_not_isEnding hactor
  | iterate cursor => exact txn_ne_of_not_isEnding hactor
  | _ => trivial

/-- What others do is nothing to a transaction that ends. -/
theorem spares (h : c.Stands s₀) {op : Op} (hactor : (c.actor op).any c.isEnding = false) {e : Ending}
    (he : e ∈ c.endings) : Grown (Effect.Spares e.txn) c.store.trace (c.toWorld.apply op).store.trace := by
  have hne : c.actor op ≠ some e.txn := fun hop => by
    rw [hop] at hactor
    exact txn_ne_of_not_isEnding hactor e he rfl
  by_cases ho : op.Ongoing
  · by_cases hc : op.Cached
    · exact (World.leads_apply c.toWorld hc ho).trace.mono fun _ hx => hx.spares hne
    · cases op with
      | rewrite hd page bytes =>
        exact (World.leads_perform (emits_writeRaw (P := Effect.Spares e.txn) trivial) fun _ _ => rfl).trace
      | _ => exact absurd trivial hc
  · cases op with
    | complete t wantsCommit =>
      have ht : c.isEnding t = false := hactor
      simp only [World.apply]
      split
      · exact .refl _
      · rename_i hu
        have hspares : ∀ {commits : Bool} {s : Store}, Finishes t commits c.store s →
            Grown (Effect.Spares e.txn) c.store.trace s.trace := fun hs => by
          obtain ⟨past, htrace, hsealed⟩ := hs.trace
          rw [htrace]
          have hpast : Trails c.store.trace past := hsealed.forces.trails
          refine ((hpast.mono fun _ hx => hx.spares e.txn).cons (.completed t _) trivial).cons (.unlocked t) fun hte => ?_
          exact hne (congrArg some hte)
        refine World.of_perform (P := fun w => Grown (Effect.Spares e.txn) c.store.trace w.store.trace) ?_
        exact (h.finishes (Bool.eq_false_iff.2 hu) ht wantsCommit).mono (fun _ _ hs => hspares hs)
          fun _ _ hs => hspares hs.2.2
    | _ => exact absurd trivial ho

theorem op (h : c.Stands s₀) {op : Op} (hactor : (c.actor op).any c.isEnding = false)
    (hover : c.overtakes (.op op) = false) :
    Crowd.Stands s₀ { c with toWorld := c.toWorld.apply op } := by
  have hkept : (c.toWorld.apply op).Kept s₀ (fun _ => True) (Standing c.endings s₀) := by
    by_cases hc : op.Cached
    · exact h.toKept.apply (Standing.stewardship s₀ c.endings) hc (op.grips_any s₀ c.toWorld) (fun _ _ _ => trivial)
        (h.mayHeed hactor hover)
    · cases op with
      | rewrite hd page bytes =>
        simp only [World.apply]
        refine World.of_perform (P := World.Kept s₀ (fun _ => True) (Standing c.endings s₀)) ?_
        exact (h.store.writeRaw hd page bytes).mono (fun _ _ hs => h.toKept.withStore hs) fun _ _ hs => h.toKept.withStore hs
      | _ => exact absurd trivial hc
  exact ⟨hkept.store, hkept.guards, hkept.tasks, fun e he => (h.told e he).spared (h.spares hactor he)⟩

/-! ### Ends of transactions -/

theorem finish (h : c.Stands s₀) (t : TxnId) (wantsCommit : Bool) : (c.finish t wantsCommit).Stands s₀ := by
  refine of_finish h fun hu hne => ?_
  refine (h.store.start (World.away_of_uses? s₀ hu) (txn_ne_of_not_isEnding hne) wantsCommit).mono
    (fun e s hs => ?_) fun _ _ hs => hs.elim
  obtain ⟨-, -, -, htold, hs, haside⟩ := hs
  refine ⟨hs, h.guards, h.tasks, fun o ho => ?_⟩
  rcases List.mem_cons.1 ho with rfl | ho
  · exact htold
  · exact (h.told o ho).spared (haside.trace o.txn (txn_ne_of_not_isEnding hne o ho))

/-- A step of the end of a transaction, in its place among the others. -/
theorem ends_step (h : c.Stands s₀) {i : Nat} {e : Ending} (hi : c.endings[i]? = some e) :
    e.step.Ends c.store (e.Goes (c.endings.eraseIdx i) s₀ (c.uses s₀) c.store)
      (e.Refused (c.endings.eraseIdx i) s₀ (c.uses s₀) c.store) := by
  obtain ⟨hl, rfl⟩ := List.getElem?_eq_some_iff.1 hi
  exact (h.store.reorder (List.getElem_cons_eraseIdx_perm hl).symm).step (h.told _ (List.getElem_mem hl))

theorem step (h : c.Stands s₀) (i : Nat) : (c.step i).Stands s₀ := by
  refine of_step h fun e hi => ?_
  obtain ⟨hl, hget⟩ := List.getElem?_eq_some_iff.1 hi
  -- what the others have been told stays true
  have hothers : ∀ {s : Store}, (∀ u, u ≠ e.txn → Grown (Effect.Spares u) c.store.trace s.trace) →
      ∀ o ∈ c.endings.eraseIdx i, o.Told s.trace := fun hs o ho => by
    have hat := h.store.reorder (List.getElem_cons_eraseIdx_perm hl).symm
    exact (h.told o (List.mem_of_mem_eraseIdx ho)).spared (hs o.txn (hget ▸ hat.txn_ne o ho))
  have hended : ∀ {s : Store}, Standing (c.endings.eraseIdx i) s₀ (c.uses s₀) s → e.Ended c.store s →
      Crowd.Stands s₀ { c with store := s, endings := c.endings.eraseIdx i } := fun hs hend =>
    ⟨hs, h.guards, h.tasks, hothers fun u hu => hend.trace ▸ (Grown.refl _).cons (.unlocked e.txn) (Ne.symm hu)⟩
  refine (h.ends_step hi).mono (fun p s hs => ?_) fun _ _ hs => hended hs.stands hs.ended
  cases p with
  | finished _ => exact hended hs.1 hs.2
  | moved e' =>
    obtain ⟨hs, -, htold, haside⟩ := hs
    have hperm := List.set_perm_cons_eraseIdx hl e'
    refine ⟨hs.reorder hperm.symm, h.guards, h.tasks, fun o ho => ?_⟩
    rcases List.mem_cons.1 (hperm.mem_iff.1 ho) with rfl | ho
    · exact htold
    · exact hothers haside.trace o ho
  | blocked e' =>
    obtain ⟨rfl, rfl⟩ := hs
    have hsame : c.endings.set i e' = c.endings := by
      rw [← hget]
      exact List.set_getElem_self hl
    dsimp only
    rw [hsame]
    exact h

/-- Whatever happens, the invariant is kept, as long as no flush overtakes a commit. -/
theorem apply (h : c.Stands s₀) {m : Move} (hm : c.overtakes m = false) : (c.apply m).Stands s₀ := by
  cases m with
  | op op =>
    simp only [Crowd.apply]
    split
    · exact h
    · rename_i hactor
      exact h.op (Bool.eq_false_iff.2 hactor) hm
  | finish t wantsCommit => exact h.finish t wantsCommit
  | step i => exact h.step i

end Stands

/-- The invariant holds after every run in which no flush overtakes a commit. -/
theorem stands_run (o : Opening s₀) (moves : List Move) (hmoves : heeds moves { store := s₀ } = true) :
    (run moves { store := s₀ }).Stands s₀ := by
  have hrun : ∀ (moves : List Move) (c : Crowd), c.Stands s₀ → heeds moves c = true → (run moves c).Stands s₀ := by
    intro moves
    induction moves with
    | nil => exact fun _ h _ => h
    | cons m moves ih =>
      intro c h hm
      rw [heeds, Bool.and_eq_true, Bool.not_eq_true'] at hm
      exact ih _ (h.apply hm.1) hm.2
  refine hrun moves _ ⟨?_, nofun, nofun, nofun⟩ hmoves
  have hopen := o.stands
  rw [← standing_nil] at hopen
  exact hopen

end Crowd

end TupleStore
