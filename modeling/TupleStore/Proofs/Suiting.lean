import TupleStore.Proofs.Table.Attempting

/-!
# Calls on their way

What is known of a call that goes on, whatever has happened since the cache was empty.

* `Store.Fresh` : a store with which work begins;
* `Fresh.regular` : what is known of the store on which a call goes on, and of the frames that others use;
* `Fresh.suits` : a tuple on its way has the types of its table. They are compared once, when the call begins, and from
  then on the table keeps its types, and the call its tuple.
-/

namespace TupleStore

set_option autoImplicit false

open TupleStore.Action

/-! ## Tables and their types -/

/-- All tables are there that were, with the types that they had. -/
def Volume.KeepsTypes (v v' : Volume) : Prop := ∀ (hd : HandleId) (f : HeapFile), v.handles[hd]? = some f →
  ∃ f' : HeapFile, v'.handles[hd]? = some f' ∧ f'.schema = f.schema

namespace Volume.KeepsTypes

variable {v v' v'' : Volume}

theorem refl (v : Volume) : v.KeepsTypes v := fun _ f hf => ⟨f, hf, rfl⟩

/-- Tables that there are have not changed. -/
theorem then_same (h : v.KeepsTypes v')
    (hsame : ∀ hd : HandleId, v'.handles[hd]? ≠ none → v''.handles[hd]? = v'.handles[hd]?) : v.KeepsTypes v'' :=
  fun hd f hf => by
    obtain ⟨f', hf', hschema⟩ := h hd f hf
    exact ⟨f', (hsame hd (hf' ▸ Option.some_ne_none f')).trans hf', hschema⟩

/-- Tables keep their types, whatever happens to files. -/
theorem law (v : Volume) : Volume.Law v.KeepsTypes where
  write {_ h g} hv hg n _ _ := fun hd f hf => by
    obtain ⟨f', hf', hschema⟩ := hv hd f hf
    rw [Volume.getElem?_written hg]
    split
    · rename_i he
      subst he
      cases hg.symm.trans hf'
      exact ⟨_, rfl, hschema⟩
    · exact ⟨f', hf', hschema⟩
  create hv hc := hv.then_same fun _ hhd => Volume.file_create hc hhd
  openFile hv hc := hv.then_same fun _ hhd => Volume.file_openFile hc hhd

end Volume.KeepsTypes

/-! ## Tuples and their types -/

/-- The tuple has the types of its table. -/
def Insertion.Suits (i : Insertion) (v : Volume) : Prop :=
  ∃ f : HeapFile, v.handles[i.handle]? = some f ∧ i.tuple.schema.Agrees f.schema

/-- A tuple that a task is to insert has the types of its table. -/
def Task.Suits (v : Volume) : Task → Prop
  | .call (.insert i _) => i.Suits v
  | _ => True

variable {s s' : Store} {v v' : Volume} {i : Insertion} {c : Call} {r : Request} {w : World}

theorem Insertion.Suits.mono (h : i.Suits v) (hv : v.KeepsTypes v') : i.Suits v' := by
  obtain ⟨f, hf, hagrees⟩ := h
  obtain ⟨f', hf', hschema⟩ := hv i.handle f hf
  exact ⟨f', hf', hschema ▸ hagrees⟩

theorem Task.Suits.mono {task : Task} (h : task.Suits v) (hv : v.KeepsTypes v') : task.Suits v' := by
  cases task with
  | call c =>
    cases c with
    | insert i marks => exact Insertion.Suits.mono h hv
    | _ => trivial
  | _ => trivial

theorem ends_trivial {α : Type} (x : Action α) (s : Store) : x.Ends s (fun _ _ => True) fun _ _ => True := by
  unfold Ends
  split <;> trivial

/-- What a request comes to, whatever that is. -/
theorem ends_andThen {σ α : Type} {waiting : RequestStage → σ} {body : Guard → Action (Progress σ α)}
    {good : Progress σ α → Store → Prop} {bad : Error → Store → Prop}
    (hbody : ∀ g s', (body g).Ends s' good bad) (hwait : ∀ stage s', good (.blocked (waiting stage)) s')
    (herr : ∀ e s', bad e s') : (r.andThen waiting body).Ends s good bad := by
  unfold Request.andThen
  rw [ends_bind]
  refine (ends_trivial r.run s).mono (fun a s' _ => ?_) fun e s' _ => herr e s'
  cases a with
  | done g => exact hbody g s'
  | waiting r' => exact hwait r'.stage s'

/-- However an insertion goes on, it keeps its tuple and its table. -/
theorem Insertion.keeps_tuple (i : Insertion) : i.step.Ends s
    (fun p _ => match p with
      | .finished _ => True
      | .moved i' => ∃ stage asking, i' = { i with stage, asking }
      | .blocked i' => ∃ stage asking, i' = { i with stage, asking })
    fun _ _ => True := by
  unfold Insertion.step
  rw [ends_bind]
  refine (ends_file i.handle).mono (fun file s₁ _ => ?_) fun _ _ _ => trivial
  cases i.stage with
  | inspect n =>
    dsimp only
    split
    · exact ends_andThen (fun g s' => ⟨_, _, rfl⟩) (fun asking _ => ⟨_, asking, rfl⟩) fun _ _ => trivial
    · rw [ends_bind]
      exact (ends_trivial _ _).mono (fun _ _ _ => ⟨_, _, rfl⟩) fun _ _ _ => trivial
  | place n =>
    refine ends_andThen (fun g s' => ?_) (fun asking _ => ⟨_, asking, rfl⟩) fun _ _ => trivial
    rw [ends_bind, ends_get]
    dsimp only
    split
    · exact ⟨_, _, rfl⟩
    · rw [ends_bind]
      refine (ends_trivial _ _).mono (fun g' s₁ _ => ?_) fun _ _ _ => trivial
      split <;> trivial

/-- So it has the types of its table in the end, if it has had them before. -/
theorem Call.suits_step (h : (Task.call c).Suits v) : c.step.Ends s
    (fun p _ => match p with
      | .finished _ => True
      | .moved c' => (Task.call c').Suits v
      | .blocked c' => (Task.call c').Suits v)
    fun _ _ => True := by
  cases c with
  | insert i marks =>
    unfold Call.step
    rw [ends_bind]
    refine i.keeps_tuple.mono (fun p s₁ h₁ => ?_) fun _ _ _ => trivial
    rw [ends_bind]
    cases p with
    | finished a => cases marks <;> trivial
    | moved i' =>
      obtain ⟨stage, asking, rfl⟩ := h₁
      exact h
    | blocked i' =>
      obtain ⟨stage, asking, rfl⟩ := h₁
      exact h
  | read r =>
    unfold Call.step Call.readStep
    refine ends_andThen (fun _ _ => ?_) (fun _ _ => ?_) fun _ _ => trivial <;> trivial
  | write r patch =>
    unfold Call.step Call.writeStep
    refine ends_andThen (fun g s₁ => ?_) (fun _ _ => ?_) fun _ _ => trivial
    case refine_2 => trivial
    cases patch with
    | none => trivial
    | some x =>
      rw [ends_bind]
      refine (ends_trivial _ _).mono (fun g' s₂ _ => ?_) fun _ _ _ => trivial
      rw [ends_bind, ends_get]
      split <;> trivial
  | delete d marks =>
    unfold Call.step
    rw [ends_bind]
    refine (ends_trivial d.step s).mono (fun p s₁ _ => ?_) fun _ _ _ => trivial
    cases p with
    | finished a => cases marks <;> trivial
    | _ => trivial
  | scan q =>
    unfold Call.step
    rw [ends_bind]
    refine (ends_trivial q.step s).mono (fun p s₁ _ => ?_) fun _ _ _ => trivial
    cases p <;> trivial

theorem Task.suits_step {task : Task} (h : task.Suits v) : task.step.Ends s
    (fun p _ => match p with
      | .finished _ => True
      | .moved task' => task'.Suits v
      | .blocked task' => task'.Suits v)
    fun _ _ => True := by
  unfold Task.step
  cases task with
  | ask r =>
    rw [ends_bind]
    refine (ends_trivial r.step s).mono (fun p _ _ => ?_) fun _ _ _ => trivial
    cases p <;> trivial
  | flush fl =>
    rw [ends_bind]
    refine (ends_trivial fl.step s).mono (fun p _ _ => ?_) fun _ _ _ => trivial
    cases p <;> trivial
  | call c =>
    rw [ends_bind]
    refine (Call.suits_step h).mono (fun p _ h' => ?_) fun _ _ _ => trivial
    cases p with
    | finished a => trivial
    | _ => exact h'

/-- A call begins with a tuple only if it has the types of its table. -/
theorem Insertion.start_suits (txn : TxnId) (hd : HandleId) (tuple : Tuple) :
    (Insertion.start txn hd tuple).Ends s (fun i _ => i.Suits s.volume) fun _ _ => True := by
  unfold Insertion.start
  rw [ends_bind]
  refine (ends_file hd).mono (fun file s₁ h₁ => ?_) fun _ _ _ => trivial
  split
  · rename_i hagrees
    exact ⟨file, h₁.2, hagrees⟩
  · trivial

theorem Start.call_suits (start : Start) :
    start.call.Ends s (fun c _ => (Task.call c).Suits s.volume) fun _ _ => True := by
  have hbegins := start.ends_call (s := s)
  cases start with
  | insert txn hd tuple =>
    unfold Start.call
    rw [ends_bind]
    exact (Insertion.start_suits txn hd tuple).mono (fun _ _ hsuits => hsuits) fun _ _ h => h
  | insertById txn table tuple =>
    unfold Start.call Call.startInsert
    rw [ends_bind]
    refine (ends_resolve_same table).mono (fun hd s₁ h₁ => ?_) fun _ _ _ => trivial
    rw [ends_bind, h₁]
    exact (Insertion.start_suits txn hd tuple).mono (fun _ _ hsuits => hsuits) fun _ _ h => h
  | _ =>
    refine hbegins.mono (fun c s₁ h₁ => ?_) fun _ _ _ => trivial
    cases h₁.2
    trivial

namespace World

/-- Tuples on their way have the types of their tables. -/
def Suits (w : World) : Prop := ∀ task ∈ w.tasks, task.Suits w.store.volume

namespace Suits

theorem tasks_advance (h : w.Suits) (i : Nat) : ∀ task ∈ (w.advance i).tasks, task.Suits w.store.volume := by
  have hset : ∀ task', task'.Suits w.store.volume → ∀ task ∈ w.tasks.set i task', task.Suits w.store.volume := by
    intro task' htask' task hin
    rcases List.mem_or_eq_of_mem_set hin with hin | rfl
    · exact h task hin
    · exact htask'
  have herase : ∀ task ∈ w.tasks.eraseIdx i, task.Suits w.store.volume := fun task hin =>
    h task (List.mem_of_mem_eraseIdx hin)
  unfold World.advance
  cases hi : w.tasks[i]? with
  | none => exact h
  | some task =>
    have hstep := Task.suits_step (s := w.store) (h task (List.mem_of_getElem? hi))
    unfold Ends at hstep
    dsimp only
    cases hr : task.step w.store with
    | error e s' => exact herase
    | ok p s' =>
      rw [hr] at hstep
      cases p with
      | finished guard => exact herase
      | moved task' => exact hset task' hstep
      | blocked task' => exact hset task' hstep

theorem tasks_apply (h : w.Suits) (op : Op) : ∀ task ∈ (w.apply op).tasks, task.Suits w.store.volume := by
  have hadd : ∀ (task : Task) (s : Store), task.Suits w.store.volume →
      ∀ task' ∈ (addTask task { w with store := s }).tasks, task'.Suits w.store.volume := by
    intro task s htask task' hin
    rcases List.mem_cons.1 hin with rfl | hin
    · exact htask
    · exact h task' hin
  have hstay : ∀ {α : Type} (x : Action α) (guards : α → World → List Guard),
      ∀ task ∈ (w.perform x fun a w => { w with guards := guards a w }).tasks, task.Suits w.store.volume :=
    fun x guards => of_perform (P := fun w' => ∀ task ∈ w'.tasks, task.Suits w.store.volume)
      ((ends_trivial x _).mono (fun _ _ _ => h) fun _ _ _ => h)
  have hflush : ∀ only pages, ∀ task ∈ (w.perform (Flush.start only pages) fun flush => addTask (.flush flush)).tasks,
      task.Suits w.store.volume := fun only pages =>
    of_perform (P := fun w' => ∀ task ∈ w'.tasks, task.Suits w.store.volume)
      ((ends_trivial _ _).mono (fun fl s' _ => hadd (.flush fl) s' trivial) fun _ _ _ => h)
  cases op with
  | ask txn page mode => exact hadd (.ask { txn, page, mode }) w.store trivial
  | begin start =>
    exact of_perform (P := fun w' => ∀ task ∈ w'.tasks, task.Suits w.store.volume)
      (start.call_suits.mono (fun c s' hc => hadd (.call c) s' hc) fun _ _ _ => h)
  | flushPage page => exact hflush none [page]
  | flushAll => exact hflush none _
  | flushTxn txn => exact hflush (some txn) _
  | advance i => exact h.tasks_advance i
  | look i =>
    simp only [World.apply]
    cases w.guards[i]? with
    | none => exact h
    | some g => exact hstay g.look fun _ w => w.guards
  | patch i off data =>
    simp only [World.apply]
    cases w.guards[i]? with
    | none => exact h
    | some g => exact hstay (g.write off data) fun g w => w.guards.set i g
  | drop i =>
    simp only [World.apply]
    cases w.guards[i]? with
    | none => exact h
    | some g => exact hstay g.release fun _ w => w.guards.eraseIdx i
  | complete txn wantsCommit =>
    simp only [World.apply]
    split
    · exact h
    · exact hstay (Action.complete txn wantsCommit) fun _ w => w.guards
  | allocate hd => exact hstay (Action.allocatePage hd) fun _ w => w.guards
  | iterate cursor => exact hstay cursor.hasNext fun _ w => w.guards
  | rewrite hd page bytes => exact hstay (Action.writeRaw hd page bytes) fun _ w => w.guards

/-- Whatever happens, tables keep their types, and so tuples on their way have them still. -/
theorem handle (h : w.Suits) (hb : w.Balanced) (e : Event) : (w.handle e).Suits := by
  have htypes : w.store.volume.KeepsTypes (w.handle e).store.volume :=
    obeys_handle (Volume.KeepsTypes.law w.store.volume) hb (.refl _) e
  have hstay : ∀ {α : Type} (x : Action α), ∀ task ∈ (w.perform x fun _ w => w).tasks, task.Suits w.store.volume :=
    fun x => of_perform (P := fun w' => ∀ task ∈ w'.tasks, task.Suits w.store.volume)
      ((ends_trivial x _).mono (fun _ _ _ => h) fun _ _ _ => h)
  have htasks : ∀ task ∈ (w.handle e).tasks, task.Suits w.store.volume := by
    cases e with
    | op op => exact h.tasks_apply op
    | complete txn wantsCommit => exact hstay (Action.complete txn wantsCommit)
    | discard page => exact hstay (Action.discard page)
    | releaseLock txn page => exact hstay (Action.releaseLock txn page)
    | create path schema pageSize => exact hstay (Action.createFile path schema pageSize)
    | openFile path schema pageSize => exact hstay (Action.openFile path schema pageSize)
    | register hd name => exact hstay (Action.register hd name)
    | unregisterAll => exact hstay Action.unregisterAll
  exact fun task hin => (htasks task hin).mono htypes

theorem handleAll (h : w.Suits) (hb : w.Balanced) (events : List Event) : (World.handleAll events w).Suits := by
  induction events generalizing w with
  | nil => exact h
  | cons e events ih => exact ih (h.handle hb e) (hb.handle e)

end Suits

/-- The uses of pages behind all guards and tasks but one. -/
def others (w : World) (i : Nat) : List Use := World.uses w.store { w with tasks := w.tasks.eraseIdx i }

end World

/-! ## Stores with which work begins -/

/-- A store with which work begins: the cache is empty, the catalog lists tables that there are, one handle of each file
counts all its pages, and pages have room for tuples. -/
structure Store.Fresh (s : Store) : Prop where
  pool : ∃ config, s.pool = .ofConfig config
  tables : s.volume.Lists s.catalog
  spanned : s.volume.Spanned
  roomy : s.volume.Roomy

namespace Store.Fresh

open World

variable {events : List Event}

theorem balanced (h : s.Fresh) : World.Balanced { store := s } := by
  obtain ⟨config, hp⟩ := h.pool
  exact (tidy_of_fresh hp h.tables []).1

/-- What is known of the store after whatever has happened. -/
theorem settled (h : s.Fresh) (hw : w = handleAll events { store := s }) :
    w.Balanced ∧ w.store.Settled ((w.uses w.store).map Use.frame) := by
  obtain ⟨config, hp⟩ := h.pool
  obtain ⟨hb, ht⟩ : w.Balanced ∧ w.store.Tidy := hw ▸ tidy_of_fresh hp h.tables events
  have hfit : s.pool.clock.Fit := hp ▸ .ofCapacity config.poolPages
  have hfit : w.store.pool.clock.Fit := hw ▸ turns_handleAll events h.balanced hfit
  have hspanned : w.store.volume.Spanned := hw ▸ obeys_handleAll Volume.Spanned.law events h.balanced h.spanned
  have hroomy : w.store.volume.Roomy := hw ▸ obeys_handleAll Volume.Roomy.law events h.balanced h.roomy
  have hfirst : s.Housed s := ⟨fun f page hf => by
    have hfound : s.pool.find? page = some f := (h.balanced.store.pool.mapped page f).2 hf
    rw [hp] at hfound
    simp [Pool.ofConfig, Pool.find?] at hfound, .refl _⟩
  have hhoused : w.store.Housed w.store := hw ▸ housed_handleAll events h.balanced hfirst
  exact ⟨hb, ht, hb.store.pool, hfit, hhoused.pages, hspanned, hroomy⟩

/-- A call goes on from there, and the frames stay pinned that others use. -/
theorem regular (h : s.Fresh) (hw : w = handleAll events { store := s }) {i : Nat} (hi : w.tasks[i]? = some (.call c)) :
    w.store.Regular ((c.uses w.store ++ w.others i).map Use.frame) w.store := by
  have hs := (h.settled hw).2
  have hperm : (w.uses w.store).Perm (c.uses w.store ++ w.others i) := uses_task hi
  exact Store.Settled.regular { hs with accounted := hs.accounted.perm (hperm.map Use.frame) }

theorem suits (h : s.Fresh) (hw : w = handleAll events { store := s }) : w.Suits := by
  have hempty : World.Suits { store := s } := fun task hin => nomatch hin
  exact hw ▸ hempty.handleAll h.balanced events

end Store.Fresh

end TupleStore
