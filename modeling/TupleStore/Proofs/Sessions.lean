import Mathlib.Logic.Relation
import TupleStore.Proofs.Runs
import TupleStore.Session

/-!
# Sessions are runs

What a session does at once a world does step by step, so what holds after every run holds of sessions too.

* `World.run_advance` : step by step an operation comes to what it comes to at once;
* `Session.Mirrors` : a world with the store, the guards and the calls of a session;
* `Session.Step` : what can happen to a session, one operation at a time;
* `Session.reached` : whatever happens to a session, a run comes to a world that mirrors it.
-/

namespace TupleStore

set_option autoImplicit false

open TupleStore.Action

/-! ## Steps in a row -/

namespace World

/-- Step by step an operation comes to what it comes to at once. -/
theorem run_advance {σ α : Type} {step : σ → Action (Progress σ α)} {task : σ → Task} {guard : α → Option Guard}
    (htask : ∀ x, (task x).step = (do return (← step x).map task guard)) (n : Nat) {x : σ} {w : World} {i : Nat}
    (hi : w.tasks[i]? = some (task x)) :
    ∃ k, run (List.replicate k (.advance i)) w =
      match Action.advance step n x w.store with
      | .ok (.done a) s => ⟨s, (guard a).toList ++ w.guards, w.tasks.eraseIdx i⟩
      | .ok (.waiting x') s => { w with store := s, tasks := w.tasks.set i (task x') }
      | .error _ s => { w with store := s, tasks := w.tasks.eraseIdx i } := by
  induction n generalizing x w with
  | zero =>
    refine ⟨0, ?_⟩
    show w = { w with tasks := w.tasks.set i (task x) }
    obtain ⟨hl, he⟩ := List.getElem?_eq_some_iff.1 hi
    rw [← he, List.set_getElem_self]
  | succ n ih =>
    have happly : run [.advance i] w = w.advance i := rfl
    unfold World.advance at happly
    rw [hi] at happly
    dsimp only at happly
    rw [htask] at happly
    unfold Action.advance
    cases hr : step x w.store with
    | error e s =>
      rw [bind_of_error hr] at happly
      rw [bind_of_error hr]
      exact ⟨1, happly⟩
    | ok p s =>
      rw [bind_of_ok hr] at happly
      rw [bind_of_ok hr]
      cases p with
      | finished a => exact ⟨1, happly⟩
      | blocked x' => exact ⟨1, happly⟩
      | moved x' =>
        obtain ⟨hl, -⟩ := List.getElem?_eq_some_iff.1 hi
        have hi' : (w.tasks.set i (task x'))[i]? = some (task x') := List.getElem?_set_self hl
        obtain ⟨k, hk⟩ := ih (w := { w with store := s, tasks := w.tasks.set i (task x') }) hi'
        refine ⟨k + 1, ?_⟩
        show run (.advance i :: List.replicate k (.advance i)) w = _
        rw [show run (.advance i :: List.replicate k (.advance i)) w =
          run (List.replicate k (.advance i)) (run [.advance i] w) from rfl, happly]
        refine hk.trans ?_
        simp only [List.eraseIdx_set_eq, List.set_set]

/-- Nothing is written past the cache by steps of a task. -/
theorem cached_replicate {k i : Nat} : ∀ op ∈ List.replicate k (Op.advance i), op.Cached := by
  intro op hop
  rw [List.eq_of_mem_replicate hop]
  trivial

/-- An operation that has just begun comes to what it comes to at once. -/
theorem run_begun {σ α : Type} {step : σ → Action (Progress σ α)} {task : σ → Task} {guard : α → Option Guard}
    (htask : ∀ x, (task x).step = (do return (← step x).map task guard)) (n : Nat) {x : σ} {w w₁ : World} {op : Op}
    (hcached : op.Cached) (hop : w.apply op = w₁.addTask (task x)) :
    ∃ ops, (∀ op ∈ ops, op.Cached) ∧ run ops w =
      match Action.advance step n x w₁.store with
      | .ok (.done a) s => ⟨s, (guard a).toList ++ w₁.guards, w₁.tasks⟩
      | .ok (.waiting x') s => ⟨s, w₁.guards, task x' :: w₁.tasks⟩
      | .error _ s => ⟨s, w₁.guards, w₁.tasks⟩ := by
  obtain ⟨k, hrun⟩ := run_advance htask n (w := w₁.addTask (task x)) (i := 0) rfl
  refine ⟨op :: List.replicate k (.advance 0), fun op' hop' => ?_, ?_⟩
  · rcases List.mem_cons.1 hop' with rfl | hop'
    · exact hcached
    · exact cached_replicate op' hop'
  · rw [show run (op :: List.replicate k (.advance 0)) w = run (List.replicate k (.advance 0)) (w.apply op) from rfl, hop]
    exact hrun

theorem run_drop {w : World} {i : Nat} {g : Guard} (hi : w.guards[i]? = some g) :
    run [.drop i] w = { w with store := w.store.modifyPool g.giveBack, guards := w.guards.eraseIdx i } := by
  show w.apply (.drop i) = _
  simp only [World.apply, hi]
  rfl

theorem run_patch {w : World} {i : Nat} {g g' : Guard} {s' : Store} {off : Nat} {data : Bytes}
    (hi : w.guards[i]? = some g) (hw : g.write off data w.store = .ok g' s') :
    run [.patch i off data] w = { w with store := s', guards := w.guards.set i g' } := by
  show w.apply (.patch i off data) = _
  simp only [World.apply, hi]
  unfold World.perform
  rw [hw]

end World

/-! ## What a session holds -/

namespace Session

/-- The guards that are held, in the order of their keys. -/
def held (s : Session) : List Guard := s.guards.toList.map Prod.snd

/-- The calls that wait, as tasks. -/
def waiting (s : Session) : List Task := s.pending.map fun c => .call c.call

theorem release_of_none {s : Session} {key : String} (h : s.guards[key]? = none) : (s.release key).2 = s := by
  simp only [release, h]

theorem release_of_some {s : Session} {key : String} {g : Guard} (h : s.guards[key]? = some g) :
    (s.release key).2 = { s with store := s.store.modifyPool g.giveBack, guards := s.guards.erase key } := by
  simp only [release, h]

end Session

section Guards

variable {guards : Std.TreeMap String Guard} {key : String} {g : Guard}

theorem guards_insert_fresh (h : guards[key]? = none) (g : Guard) :
    ((guards.insert key g).toList.map Prod.snd).Perm (g :: guards.toList.map Prod.snd) := by
  have hperm := (Std.TreeMap.toList_insert_perm (t := guards) (k := key) (v := g)).map Prod.snd
  rw [List.filter_eq_self.2 fun x hx => ?_] at hperm
  · exact hperm
  · have hx : guards[x.1]? = some x.2 := Std.TreeMap.mem_toList_iff_getElem?_eq_some.1 hx
    refine decide_eq_true fun e => ?_
    rw [← eq_of_beq e, h] at hx
    cases hx

theorem guards_erase (h : guards[key]? = some g) :
    (guards.toList.map Prod.snd).Perm (g :: (guards.erase key).toList.map Prod.snd) := by
  have hequiv : Std.TreeMap.Equiv guards ((guards.erase key).insert key g) := by
    refine .of_forall_constGet?_eq fun k => ?_
    simp only [Std.TreeMap.getElem?_insert, Std.TreeMap.getElem?_erase, Std.compare_eq_iff_eq]
    split
    · rename_i e
      rw [← e, h]
    · rfl
  refine ((Std.TreeMap.equiv_iff_toList_perm.1 hequiv).map Prod.snd).trans (guards_insert_fresh ?_ g)
  simp

theorem guards_insert (guards : Std.TreeMap String Guard) (key : String) (g' : Guard) :
    ((guards.insert key g').toList.map Prod.snd).Perm (g' :: (guards.erase key).toList.map Prod.snd) := by
  have hequiv : Std.TreeMap.Equiv (guards.insert key g') ((guards.erase key).insert key g') := by
    refine .of_forall_constGet?_eq fun k => ?_
    simp only [Std.TreeMap.getElem?_insert, Std.TreeMap.getElem?_erase, Std.compare_eq_iff_eq]
    split <;> rfl
  refine ((Std.TreeMap.equiv_iff_toList_perm.1 hequiv).map Prod.snd).trans (guards_insert_fresh ?_ g')
  simp

end Guards

/-- A list of calls, the one with a certain number changed. -/
theorem pending_perm {pending : List PendingCall} (hn : (pending.map PendingCall.number).Nodup) {c : PendingCall}
    (hc : c ∈ pending) {f : PendingCall → PendingCall} (hf : ∀ d, d.number ≠ c.number → f d = d) :
    (pending.map f).Perm (f c :: pending.filter fun d => d.number ≠ c.number) := by
  induction pending with
  | nil => exact (List.not_mem_nil hc).elim
  | cons d pending ih =>
    obtain ⟨hd, hn⟩ := List.nodup_cons.1 hn
    rcases List.mem_cons.1 hc with rfl | hc
    · have hne : ∀ d ∈ pending, d.number ≠ c.number := fun d hin e => hd (e ▸ List.mem_map_of_mem hin)
      have hkept : pending.filter (fun d => d.number ≠ c.number) = pending :=
        List.filter_eq_self.2 fun d hin => decide_eq_true (hne d hin)
      rw [List.filter_cons_of_neg (by simp), hkept, List.map_cons, List.map_congr_left fun d hin => hf d (hne d hin)]
      simp
    · have hne : d.number ≠ c.number := fun e => hd (e ▸ List.mem_map_of_mem hc)
      rw [List.filter_cons_of_pos (by simpa using hne), List.map_cons, hf d hne]
      exact ((ih hn hc).cons d).trans (.swap ..)

/-! ## Mirrors -/

/-- A world with the store, the guards and the calls of a session. -/
structure Session.Mirrors (s : Session) (w : World) : Prop where
  store : w.store = s.store
  guards : w.guards.Perm s.held
  tasks : w.tasks.Perm s.waiting
  numbers : (s.pending.map PendingCall.number).Nodup

namespace Session.Mirrors

variable {s : Session} {w : World}

theorem task_of_pending (m : s.Mirrors w) {c : PendingCall} (hc : c ∈ s.pending) :
    ∃ i, w.tasks[i]? = some (.call c.call) ∧
      (w.tasks.eraseIdx i).Perm ((s.pending.filter fun d => d.number ≠ c.number).map fun d => .call d.call) := by
  have hmem : Task.call c.call ∈ w.tasks := m.tasks.mem_iff.2 (List.mem_map_of_mem hc)
  obtain ⟨i, hi⟩ := List.getElem?_of_mem hmem
  obtain ⟨hl, he⟩ := List.getElem?_eq_some_iff.1 hi
  refine ⟨i, hi, ?_⟩
  have hpending := (pending_perm m.numbers hc (f := id) fun _ _ => rfl).map fun d => Task.call d.call
  rw [List.map_id] at hpending
  have hall := (List.getElem_cons_eraseIdx_perm hl).trans (m.tasks.trans hpending)
  rw [he] at hall
  exact hall.cons_inv

theorem guard_of_held (m : s.Mirrors w) {key : String} {g : Guard} (hg : s.guards[key]? = some g) :
    ∃ i, w.guards[i]? = some g ∧ (w.guards.eraseIdx i).Perm ((s.guards.erase key).toList.map Prod.snd) := by
  have hall := m.guards.trans (guards_erase hg)
  obtain ⟨i, hi⟩ := List.getElem?_of_mem (hall.mem_iff.2 (List.mem_cons_self ..))
  obtain ⟨hl, he⟩ := List.getElem?_eq_some_iff.1 hi
  have hfirst := (List.getElem_cons_eraseIdx_perm hl).trans hall
  rw [he] at hfirst
  exact ⟨i, hi, hfirst.cons_inv⟩

end Session.Mirrors

/-- A run without pages written past the cache comes to a world that mirrors a session. -/
def World.Reaches (w : World) (s : Session) : Prop := ∃ ops, (∀ op ∈ ops, op.Cached) ∧ s.Mirrors (World.run ops w)

namespace Session.Mirrors

variable {s : Session} {w : World}

/-! ### Guards -/

theorem release (m : s.Mirrors w) (key : String) : w.Reaches (s.release key).2 := by
  cases hg : s.guards[key]? with
  | none =>
    rw [release_of_none hg]
    exact ⟨[], fun _ h => (List.not_mem_nil h).elim, m⟩
  | some g =>
    obtain ⟨i, hi, hperm⟩ := m.guard_of_held hg
    refine ⟨[.drop i], by simp [Op.Cached], ?_⟩
    rw [World.run_drop hi, release_of_some hg, m.store]
    exact ⟨rfl, hperm, m.tasks, m.numbers⟩

theorem hold (m : s.Mirrors w) (key : String) (t : TxnId) (page : PageId) (mode : LockMode) :
    w.Reaches (s.hold key t page mode).2 := by
  have hask : ∀ x, (Task.ask x).step = (do return (← Request.step x).map Task.ask some) := fun _ => rfl
  obtain ⟨ops, hcached, hrun⟩ := World.run_begun hask 3 (x := ⟨t, page, mode, .fresh⟩) (w := w)
    (show (Op.ask t page mode).Cached from trivial) rfl
  rw [m.store] at hrun
  unfold Session.hold Session.perform Action.request Request.run
  cases hr : Action.advance Request.step 3 ⟨t, page, mode, .fresh⟩ s.store with
  | error e s' =>
    rw [hr] at hrun
    refine ⟨ops, hcached, ?_⟩
    rw [hrun]
    exact ⟨rfl, m.guards, m.tasks, m.numbers⟩
  | ok a s' =>
    rw [hr] at hrun
    cases a with
    | waiting r => exact ⟨[], fun _ h => (List.not_mem_nil h).elim, m⟩
    | done g =>
      replace hrun : World.run ops w = ⟨s', g :: w.guards, w.tasks⟩ := hrun
      let s₁ : Session := { s with store := s' }
      show w.Reaches { (s₁.release key).2 with guards := (s₁.release key).2.guards.insert key g }
      cases hheld : s₁.guards[key]? with
      | none =>
        rw [release_of_none hheld]
        refine ⟨ops, hcached, ?_⟩
        rw [hrun]
        exact ⟨rfl, (m.guards.cons g).trans (guards_insert_fresh hheld g).symm, m.tasks, m.numbers⟩
      | some old =>
        rw [release_of_some hheld]
        obtain ⟨i, hi, hperm⟩ := m.guard_of_held hheld
        have hi' : (World.mk s' (g :: w.guards) w.tasks).guards[i + 1]? = some old := hi
        refine ⟨ops ++ [.drop (i + 1)], fun op hop => ?_, ?_⟩
        · rcases List.mem_append.1 hop with hop | hop
          · exact hcached op hop
          · rw [List.mem_singleton.1 hop]
            trivial
        · rw [World.run_append, hrun, World.run_drop hi']
          exact ⟨rfl, (hperm.cons g).trans (guards_insert_fresh (by simp) g).symm, m.tasks, m.numbers⟩

theorem beginChange_ok (g : Guard) (s : Store) : ∃ g' s', g.beginChange s = .ok g' s' := by
  unfold Guard.beginChange
  cases g.changed with
  | false => exact ⟨_, _, rfl⟩
  | true => exact ⟨_, _, rfl⟩

theorem write (m : s.Mirrors w) (key : String) (off : Nat) (data : Bytes) : w.Reaches (s.write key off data).2 := by
  have hstay : w.Reaches s := ⟨[], fun _ h => (List.not_mem_nil h).elim, m⟩
  unfold Session.write
  cases hg : s.guards[key]? with
  | none => exact hstay
  | some g =>
    dsimp only
    cases hm : g.mode with
    | read => exact hstay
    | write =>
      obtain ⟨i, hi, hperm⟩ := m.guard_of_held hg
      obtain ⟨g₁, s₁, hbegin⟩ := beginChange_ok g s.store
      have hput : ∀ {g' : Guard} {s' : Store}, g.write off data s.store = .ok g' s' →
          w.Reaches { s with store := s', guards := s.guards.insert key g' } := by
        intro g' s' hw
        rw [← m.store] at hw
        refine ⟨[.patch i off data], by simp [Op.Cached], ?_⟩
        rw [World.run_patch hi hw]
        obtain ⟨hl, -⟩ := List.getElem?_eq_some_iff.1 hi
        exact ⟨rfl, ((List.set_perm_cons_eraseIdx hl g').trans (hperm.cons g')).trans (guards_insert ..).symm,
          m.tasks, m.numbers⟩
      unfold Guard.write at hput
      rw [hm] at hput
      dsimp only at hput
      rw [bind_of_ok hbegin] at hput
      rw [bind_of_ok (run_get s₁)] at hput
      unfold Session.perform
      rw [bind_of_ok hbegin, bind_of_ok (run_get s₁)]
      cases hp : (g₁.bytes s₁).patch? off data with
      | none =>
        rw [hp] at hput
        exact hput rfl
      | some bytes =>
        rw [hp] at hput
        exact hput rfl

/-! ### Calls -/

theorem step_call (c : Call) : (Task.call c).step = (do return (← Call.step c).map Task.call fun _ => none) := rfl

theorem resume (m : s.Mirrors w) {c : PendingCall} (hc : c ∈ s.pending) : w.Reaches (s.resume c).2 := by
  obtain ⟨i, hi, hperm⟩ := m.task_of_pending hc
  obtain ⟨k, hrun⟩ := World.run_advance step_call (c.call.fuel s.store) hi
  have hgone : (List.map PendingCall.number (s.pending.filter fun d => d.number ≠ c.number)).Nodup :=
    m.numbers.sublist (List.filter_sublist.map _)
  rw [m.store] at hrun
  unfold Session.resume Session.perform
  rw [show c.call.run s.store = advance Call.step (c.call.fuel s.store) c.call s.store from rfl]
  refine ⟨List.replicate k (.advance i), World.cached_replicate, ?_⟩
  rw [hrun]
  cases hr : advance Call.step (c.call.fuel s.store) c.call s.store with
  | error e s' => exact ⟨rfl, m.guards, hperm, hgone⟩
  | ok a s' =>
    cases a with
    | done reply => exact ⟨rfl, m.guards, hperm, hgone⟩
    | waiting call =>
      have hpending := pending_perm m.numbers hc (f := fun d => if d.number = c.number then ⟨d.number, call⟩ else d)
        fun d hd => if_neg hd
      obtain ⟨hl, -⟩ := List.getElem?_eq_some_iff.1 hi
      have htasks := (List.set_perm_cons_eraseIdx hl (Task.call call)).trans (hperm.cons _)
      refine ⟨rfl, m.guards, htasks.trans ?_, ?_⟩
      · rw [if_pos rfl] at hpending
        exact (hpending.map fun d => Task.call d.call).symm
      · have hnumbers : (List.map PendingCall.number
            (s.pending.map fun d => if d.number = c.number then ⟨d.number, call⟩ else d)) =
            s.pending.map PendingCall.number := by
          rw [List.map_map]
          refine List.map_congr_left fun d _ => ?_
          simp only [Function.comp]
          split <;> rfl
        exact hnumbers ▸ m.numbers

theorem submit (m : s.Mirrors w) {number : Nat} (hnew : number ∉ s.pending.map PendingCall.number) (t : TxnId)
    (start : Start) : w.Reaches (s.submit number t start.call).2 := by
  unfold Session.submit
  split
  · exact ⟨[], fun _ h => (List.not_mem_nil h).elim, m⟩
  · unfold Session.perform
    cases hs : start.call s.store with
    | error e s' =>
      have hrun : World.run [.begin start] w = { w with store := s' } := by
        show World.perform w start.call _ = _
        unfold World.perform
        rw [m.store, hs]
      rw [bind_of_error hs]
      refine ⟨[.begin start], by simp [Op.Cached], ?_⟩
      rw [hrun]
      exact ⟨rfl, m.guards, m.tasks, m.numbers⟩
    | ok c s₁ =>
      have hbegin : w.apply (.begin start) = World.addTask (.call c) { w with store := s₁ } := by
        show World.perform w start.call _ = _
        unfold World.perform
        rw [m.store, hs]
      obtain ⟨ops, hcached, hrun⟩ := World.run_begun step_call (c.fuel s₁)
        (show (Op.begin start).Cached from trivial) hbegin
      rw [bind_of_ok hs, show c.run s₁ = advance Call.step (c.fuel s₁) c s₁ from rfl]
      refine ⟨ops, hcached, ?_⟩
      rw [hrun]
      dsimp only
      cases hr : advance Call.step (c.fuel s₁) c s₁ with
      | error e s' => exact ⟨rfl, m.guards, m.tasks, m.numbers⟩
      | ok a s' =>
        cases a with
        | done reply => exact ⟨rfl, m.guards, m.tasks, m.numbers⟩
        | waiting call =>
          let added : PendingCall := ⟨number, call⟩
          refine ⟨rfl, m.guards, ?_, ?_⟩
          · show (Task.call call :: w.tasks).Perm ((s.pending ++ [added]).map fun d => Task.call d.call)
            rw [List.map_append]
            exact (m.tasks.cons _).trans (List.perm_append_singleton ..).symm
          · show ((s.pending ++ [added]).map PendingCall.number).Nodup
            rw [List.map_append]
            exact (List.perm_append_singleton ..).nodup_iff.2 (List.nodup_cons.2 ⟨hnew, m.numbers⟩)

/-! ### The rest -/

/-- What a session does at once with its store, and a world too. -/
theorem perform {α : Type} (m : s.Mirrors w) {x : Action α} (op : Op) (hcached : op.Cached)
    (hop : w.apply op = w.perform x fun _ w => w) : w.Reaches (s.perform x).2 := by
  refine ⟨[op], fun op' hop' => List.mem_singleton.1 hop' ▸ hcached, ?_⟩
  rw [show World.run [op] w = w.apply op from rfl, hop]
  unfold World.perform Session.perform
  rw [m.store]
  cases x s.store <;> exact ⟨rfl, m.guards, m.tasks, m.numbers⟩

/-- A cursor is asked for its next tuple as it is asked whether there is one. -/
theorem next (m : s.Mirrors w) (cursor : Cursor) : w.Reaches (s.perform cursor.next).2 := by
  have hstore : (s.perform cursor.next).2 = (s.perform cursor.hasNext).2 := by
    unfold Session.perform Cursor.next
    cases hr : cursor.hasNext s.store with
    | error e s' => rw [bind_of_error hr]
    | ok a s' =>
      rw [bind_of_ok hr]
      split <;> rename_i hs <;> split at hs <;> cases hs <;> rfl
  rw [hstore]
  exact m.perform (.iterate cursor) trivial rfl

theorem take (m : s.Mirrors w) (cursor : Cursor) : w.Reaches (s.perform cursor.take).2 := by
  have hopen : (∃ c, cursor.openFirst s.store = .ok c s.store) ∨ ∃ e, cursor.openFirst s.store = .error e s.store := by
    unfold Cursor.openFirst
    cases hf : s.store.file? cursor.handle with
    | none =>
      have hfile : Action.file cursor.handle s.store = .error (.io .notFound) s.store := by
        unfold Action.file
        rw [bind_of_ok (run_get s.store), hf]
        rfl
      exact Or.inr ⟨_, bind_of_error hfile⟩
    | some f => exact Or.inl ⟨_, bind_of_ok (file_of_some hf)⟩
  cases hc : cursor.state with
  | some state =>
    have hnext : cursor.take = cursor.next := by
      unfold Cursor.take
      rw [hc]
    exact hnext ▸ m.next cursor
  | none =>
    have hnext : cursor.take = cursor.openFirst >>= Cursor.next := by
      unfold Cursor.take
      rw [hc]
    rw [hnext]
    rcases hopen with ⟨c, ho⟩ | ⟨e, ho⟩
    · have hstore : s.perform (cursor.openFirst >>= Cursor.next) = s.perform c.next := by
        unfold Session.perform
        rw [bind_of_ok ho]
      exact hstore ▸ m.next c
    · refine ⟨[], fun _ h => (List.not_mem_nil h).elim, ?_⟩
      unfold Session.perform
      rw [bind_of_error ho]
      exact m

theorem complete (m : s.Mirrors w) (t : TxnId) (wantsCommit : Bool) (hidle : ∀ g ∈ s.held, g.txn ≠ t) :
    w.Reaches (s.complete t wantsCommit).2 := by
  unfold Session.complete
  split
  · exact ⟨[], fun _ h => (List.not_mem_nil h).elim, m⟩
  · rename_i hbusy
    have huses : w.uses? t = false := by
      unfold World.uses?
      rw [Bool.or_eq_false_iff, List.any_eq_false, List.any_eq_false]
      refine ⟨fun g hg => ?_, fun task htask => ?_⟩
      · simpa using hidle g (m.guards.mem_iff.1 hg)
      · obtain ⟨c, hc, rfl⟩ := List.mem_map.1 (m.tasks.mem_iff.1 htask)
        have hother : c.call.txn ≠ t := fun e => hbusy (List.any_eq_true.2 ⟨c, hc, decide_eq_true e⟩)
        simp [Task.usesFor, hother]
    refine m.perform (.complete t wantsCommit) trivial ?_
    simp only [World.apply, huses]
    rfl

/-- A flush at once, where no latch is claimed. -/
theorem flush {s₀ : Store} (m : s.Mirrors w) (h : w.Stands s₀) (hu : s.store.Unclaimed) {x : Action Unit} (op : Op)
    {only : Option TxnId} {pages : List PageId} (hx : x s.store = Flush.whole only pages s.store)
    (hcached : op.Cached) (hop : w.apply op = w.perform (Flush.start only pages) fun fl => World.addTask (.flush fl)) :
    w.Reaches (s.perform x).2 := by
  have hflush : ∀ fl, (Task.flush fl).step = (do return (← Flush.step fl).map Task.flush fun _ => none) := fun _ => rfl
  have hstore : Stands s₀ (w.uses s₀) s.store := m.store ▸ h.store
  obtain ⟨fl, s₁, s', hstart, hadvance, hwhole⟩ := hstore.flush_whole hu only pages
  have hbegin : w.apply op = World.addTask (.flush fl) { w with store := s₁ } := by
    rw [hop]
    unfold World.perform
    rw [m.store, hstart]
  obtain ⟨ops, hops, hrun⟩ := World.run_begun hflush (fl.rest.length + 1) hcached hbegin
  refine ⟨ops, hops, ?_⟩
  rw [hrun, hadvance]
  unfold Session.perform
  rw [hx, hwhole]
  exact ⟨rfl, m.guards, m.tasks, m.numbers⟩

end Session.Mirrors

/-! ## Runs of sessions -/

/-- What can happen to a session. A transaction gives its guards back before it ends, and pages are flushed
while no latch is claimed. -/
inductive Session.Step (s : Session) : Session → Prop
  | submit (number : Nat) (t : TxnId) (start : Start) (fresh : number ∉ s.pending.map PendingCall.number) :
    Step s (s.submit number t start.call).2
  | resume (c : PendingCall) (pending : c ∈ s.pending) : Step s (s.resume c).2
  | hold (key : String) (t : TxnId) (page : PageId) (mode : LockMode) : Step s (s.hold key t page mode).2
  | write (key : String) (off : Nat) (data : Bytes) : Step s (s.write key off data).2
  | release (key : String) : Step s (s.release key).2
  | complete (t : TxnId) (wantsCommit : Bool) (idle : ∀ g ∈ s.held, g.txn ≠ t) : Step s (s.complete t wantsCommit).2
  | flushPage (page : PageId) (unclaimed : s.store.Unclaimed) : Step s (s.perform (Action.flushPage page)).2
  | flushAll (unclaimed : s.store.Unclaimed) : Step s (s.perform Action.flushAll).2
  | flushTxn (t : TxnId) (unclaimed : s.store.Unclaimed) : Step s (s.perform (Action.flushTxn t)).2
  | allocate (handle : HandleId) : Step s (s.perform (Action.allocatePage handle)).2
  | hasNext (cursor : Cursor) : Step s (s.perform cursor.hasNext).2
  | next (cursor : Cursor) : Step s (s.perform cursor.next).2
  | take (cursor : Cursor) : Step s (s.perform cursor.take).2

theorem Session.Step.reaches {s₀ : Store} {s s' : Session} {w : World} (hs : s.Step s') (m : s.Mirrors w)
    (h : w.Stands s₀) : w.Reaches s' := by
  cases hs with
  | submit number t start fresh => exact m.submit fresh t start
  | resume c pending => exact m.resume pending
  | hold key t page mode => exact m.hold key t page mode
  | write key off data => exact m.write key off data
  | release key => exact m.release key
  | complete t wantsCommit idle => exact m.complete t wantsCommit idle
  | flushPage page unclaimed =>
    exact m.flush h unclaimed (.flushPage page) (congrFun (flushPage_eq page) _) trivial rfl
  | flushAll unclaimed =>
    refine m.flush h unclaimed .flushAll (flushAll_eq _) trivial ?_
    rw [← m.store]
    rfl
  | flushTxn t unclaimed =>
    refine m.flush h unclaimed (.flushTxn t) (flushTxn_eq t _) trivial ?_
    rw [← m.store]
    rfl
  | allocate handle => exact m.perform (.allocate handle) trivial rfl
  | hasNext cursor => exact m.perform (.iterate cursor) trivial rfl
  | next cursor => exact m.next cursor
  | take cursor => exact m.take cursor

/-- Whatever happens to a session over a store that has just been opened, a run comes to the same. -/
theorem Session.reached {s₀ : Store} (o : Opening s₀) {s : Session}
    (hs : Relation.ReflTransGen Session.Step { store := s₀ } s) : (World.mk s₀ [] []).Reaches s := by
  induction hs with
  | refl => exact ⟨[], fun _ h => (List.not_mem_nil h).elim, ⟨rfl, .refl _, .refl _, List.nodup_nil⟩⟩
  | tail _ hstep ih =>
    obtain ⟨ops, hops, m⟩ := ih
    obtain ⟨ops', hops', m'⟩ := hstep.reaches m (World.stands_run o ops)
    refine ⟨ops ++ ops', fun op hop => ?_, World.run_append .. ▸ m'⟩
    rcases List.mem_append.1 hop with hop | hop
    · exact hops op hop
    · exact hops' op hop

/-- Pending calls taken up again, as often as it may be. -/
theorem Session.resumeAll_steps (n : Nat) (s : Session) : Relation.ReflTransGen Session.Step s (resumeAll n s).2 := by
  induction n generalizing s with
  | zero => exact .refl
  | succ n ih =>
    unfold resumeAll
    split
    · exact .refl
    · rename_i c hc
      exact .head (.resume c (List.mem_of_find?_eq_some hc)) (ih _)

theorem Session.settle_steps (s : Session) : Relation.ReflTransGen Session.Step s s.settle.2 :=
  resumeAll_steps s.fuel s

end TupleStore
