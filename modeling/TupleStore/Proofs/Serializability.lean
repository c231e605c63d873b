import TupleStore.Proofs.Refinement

/-!
# Serial runs

The transactions that have committed could have run one after the other, in the order of their commits: each
would have read the bytes that it did read, and the pages would be left as they are committed.

* `journal` : what a transaction has read and written since it began;
* `commits` : the journals of those that have committed, in order;
* `serial` : journals run one after the other, where a page is read only as it is;
* `Lawful.serial` : the journals in a lawful trace run to the committed bytes.

What carries the proof is that a transaction's journal so far runs on the committed bytes as they are now and
leaves the pages as the transaction sees them (`Serial`). A commit keeps this for the others, because it changes
no page that they have touched (`Serial.commit`).
-/

namespace TupleStore

set_option autoImplicit false

open TupleStore.Action

/-! ## Journals -/

/-- A page read or written. -/
inductive Access where
  | read (page : PageId) (bytes : Bytes)
  | write (page : PageId) (bytes : Bytes)
deriving DecidableEq, Repr

/-- The page of an access. -/
def Access.page : Access → PageId
  | read page _ => page
  | write page _ => page

/-- What a transaction has read and written since it began, in order. The newest event of the trace is first. -/
def journal (t : TxnId) : List Effect → List Access
  | [] => []
  | .saw u page bytes :: past => if u = t then journal t past ++ [.read page bytes] else journal t past
  | .changed u page bytes :: past => if u = t then journal t past ++ [.write page bytes] else journal t past
  | .completed u _ :: past => if u = t then [] else journal t past
  | _ :: past => journal t past

/-- The journals of the transactions that have committed, in the order of their commits. -/
def commits : List Effect → List (List Access)
  | [] => []
  | .completed t true :: past => commits past ++ [journal t past]
  | _ :: past => commits past

/-- The pages after an access, if a page that is read is as it was read. -/
def Access.replay (pages : PageId → Bytes) : Access → Option (PageId → Bytes)
  | read page bytes => if pages page = bytes then some pages else none
  | write page bytes => some fun q => if q = page then bytes else pages q

/-- The pages after a transaction that runs alone. -/
def replay (pages : PageId → Bytes) (accesses : List Access) : Option (PageId → Bytes) :=
  accesses.foldlM Access.replay pages

/-- The pages after transactions that run one after the other. -/
def serial (pages : PageId → Bytes) (journals : List (List Access)) : Option (PageId → Bytes) :=
  journals.foldlM replay pages

/-! ## Journals replayed -/

theorem replay_snoc (pages : PageId → Bytes) (accesses : List Access) (a : Access) :
    replay pages (accesses ++ [a]) = (replay pages accesses).bind fun pages => a.replay pages := by
  unfold replay
  rw [List.foldlM_append]
  simp

theorem serial_snoc (pages : PageId → Bytes) (journals : List (List Access)) (j : List Access) :
    serial pages (journals ++ [j]) = (serial pages journals).bind fun pages => replay pages j := by
  unfold serial
  rw [List.foldlM_append]
  simp

/-- A journal runs on other pages as well if those that it is about are the same. -/
theorem replay_congr {j : List Access} {d e : PageId → Bytes} (d' : PageId → Bytes) (h : ∀ a ∈ j, d a.page = d' a.page)
    (hr : replay d j = some e) :
    ∃ e', replay d' j = some e' ∧
      ∀ page, (d page = d' page → e page = e' page) ∧ ((∀ a ∈ j, a.page ≠ page) → e' page = d' page) := by
  induction j generalizing d d' with
  | nil =>
    cases hr
    exact ⟨d', rfl, fun _ => ⟨id, fun _ => rfl⟩⟩
  | cons a j ih =>
    have htail : ∀ b ∈ j, d b.page = d' b.page := fun b hb => h b (List.mem_cons_of_mem _ hb)
    cases a with
    | read page bytes =>
      have hpage : d page = d' page := h (.read page bytes) (List.mem_cons_self ..)
      by_cases hb : d page = bytes
      · have hr' : replay d j = some e := by
          rw [← hr]
          simp [replay, List.foldlM_cons, Access.replay, hb]
        obtain ⟨e', he', hp⟩ := ih d' htail hr'
        refine ⟨e', ?_, fun q => ⟨(hp q).1, fun hq => (hp q).2 fun b hb => hq b (List.mem_cons_of_mem _ hb)⟩⟩
        rw [← he']
        simp [replay, List.foldlM_cons, Access.replay, ← hpage, hb]
      · simp [replay, List.foldlM_cons, Access.replay, hb] at hr
    | write page bytes =>
      let put (d : PageId → Bytes) : PageId → Bytes := fun q => if q = page then bytes else d q
      have hput : ∀ q, d q = d' q → put d q = put d' q := fun q hq => by
        show (if q = page then bytes else d q) = if q = page then bytes else d' q
        rw [hq]
      obtain ⟨e', he', hp⟩ := ih (d := put d) (put d') (fun b hb => hput _ (htail b hb)) hr
      refine ⟨e', he', fun q => ⟨fun hq => (hp q).1 (hput q hq), fun hq => ?_⟩⟩
      rw [(hp q).2 fun b hb => hq b (List.mem_cons_of_mem _ hb)]
      exact if_neg (Ne.symm (hq (.write page bytes) (List.mem_cons_self ..)))

/-! ## Journals in a trace -/

variable {first : PageId → Bytes} {trace past now : List Effect} {t u : TxnId} {page : PageId}

/-- A journal is about pages that its transaction has touched. -/
theorem touched_of_journal {a : Access} (h : a ∈ journal t trace) : Touched t a.page trace := by
  induction trace with
  | nil => cases h
  | cons e past ih =>
    cases e with
    | saw u page bytes =>
      unfold journal at h
      split at h
      · rename_i hu
        rcases List.mem_append.1 h with h | h
        · exact Or.inr (ih h)
        · rw [List.mem_singleton.1 h]
          exact Or.inl ⟨hu, rfl⟩
      · exact Or.inr (ih h)
    | changed u page bytes =>
      unfold journal at h
      split at h
      · rename_i hu
        rcases List.mem_append.1 h with h | h
        · exact Or.inr (ih h)
        · rw [List.mem_singleton.1 h]
          exact Or.inl ⟨hu, rfl⟩
      · exact Or.inr (ih h)
    | completed u commits =>
      unfold journal at h
      split at h
      · cases h
      · rename_i hu
        exact ⟨hu, ih h⟩
    | _ => exact ih h

/-- What a transaction has left in a page, it has touched. -/
theorem touched_of_own (h : (contents first trace).own t page ≠ none) : Touched t page trace := by
  induction trace with
  | nil => exact absurd rfl h
  | cons e past ih =>
    cases e with
    | changed u p bytes =>
      by_cases hu : t = u ∧ page = p
      · exact Or.inl ⟨hu.1.symm, hu.2.symm⟩
      · refine Or.inr (ih fun hn => h ?_)
        exact (if_neg hu).trans hn
    | completed u commits =>
      by_cases hu : t = u
      · exact absurd (congrFun (if_pos hu) page) h
      · refine ⟨Ne.symm hu, ih fun hn => h ?_⟩
        exact (congrFun (if_neg hu) page).trans hn
    | saw u p bytes => exact Or.inr (ih h)
    | _ => exact ih h

/-! ## Serial traces -/

/-- The journals of a trace run serially: those of the committed transactions to the committed bytes, and from
there each other one to what its transaction sees. -/
structure Serial (first : PageId → Bytes) (trace : List Effect) : Prop where
  committed : serial first (commits trace) = some (contents first trace).committed
  journals : ∀ t, replay (contents first trace).committed (journal t trace) = some ((contents first trace).view t)

namespace Serial

theorem saw (h : Serial first past) {bytes : Bytes} (hb : bytes = (contents first past).view t page) :
    Serial first (.saw t page bytes :: past) := by
  refine ⟨h.committed, fun u => ?_⟩
  show replay _ (if t = u then journal u past ++ [.read page bytes] else journal u past) = _
  split
  · rename_i hu
    subst hu
    rw [replay_snoc, show (contents first (_ :: past)).committed = (contents first past).committed from rfl,
      h.journals t]
    exact if_pos hb.symm
  · exact h.journals u

theorem changed (h : Serial first past) (t : TxnId) (page : PageId) (bytes : Bytes) :
    Serial first (.changed t page bytes :: past) := by
  have hview : ∀ u q, (contents first (.changed t page bytes :: past)).view u q =
      if u = t ∧ q = page then bytes else (contents first past).view u q := by
    intro u q
    show Option.getD (if u = t ∧ q = page then some bytes else _) _ = _
    split <;> rfl
  refine ⟨h.committed, fun u => ?_⟩
  show replay _ (if t = u then journal u past ++ [.write page bytes] else journal u past) = _
  split
  · rename_i hu
    subst hu
    rw [replay_snoc, show (contents first (_ :: past)).committed = (contents first past).committed from rfl,
      h.journals t]
    refine congrArg some (funext fun q => ?_)
    rw [hview]
    simp
  · rename_i hu
    refine (h.journals u).trans (congrArg some (funext fun q => ?_))
    rw [hview, if_neg fun hh => hu hh.1.symm]

/-- A commit, which changes no page that another transaction has touched. -/
theorem commit (h : Serial first past)
    (hlaw : ∀ u page, u ≠ t → Touched u page past → (contents first past).own t page = none) :
    Serial first (.completed t true :: past) := by
  let c := contents first past
  have hcommitted : (contents first (.completed t true :: past)).committed = c.view t := rfl
  refine ⟨?_, fun u => ?_⟩
  · show serial first (commits past ++ [journal t past]) = _
    rw [serial_snoc, h.committed]
    exact h.journals t
  · show replay (c.view t) (if t = u then [] else journal u past) = _
    split
    · rename_i hu
      subst hu
      refine congrArg some (funext fun q => ?_)
      show _ = Option.getD ((if t = t then fun _ => none else c.own t) q) (c.view t q)
      rw [if_pos rfl]
      rfl
    · rename_i hu
      have hkept : ∀ q, c.own t q = none → c.committed q = c.view t q := fun q hq => by
        rw [Contents.view, hq, Option.getD_none]
      obtain ⟨e, he, hp⟩ := replay_congr (c.view t)
        (fun a ha => hkept _ (hlaw u a.page (Ne.symm hu) (touched_of_journal ha))) (h.journals u)
      refine he.trans (congrArg some (funext fun q => ?_))
      have hview : (contents first (.completed t true :: past)).view u q = (c.own u q).getD (c.view t q) := by
        show Option.getD ((if u = t then fun _ => none else c.own u) q) _ = _
        rw [if_neg (Ne.symm hu)]
        rfl
      rw [hview]
      by_cases hq : c.own t q = none
      · rw [← (hp q).1 (hkept q hq), ← hkept q hq]
        rfl
      · -- what is committed now the other transaction has not touched
        have hnot : ¬ Touched u q past := fun ht => hq (hlaw u q (Ne.symm hu) ht)
        have hown : c.own u q = none := Classical.byContradiction fun hn => hnot (touched_of_own hn)
        rw [hown, Option.getD_none]
        exact (hp q).2 fun a ha e => hnot (e ▸ touched_of_journal ha)

theorem abort (h : Serial first past) (t : TxnId) : Serial first (.completed t false :: past) := by
  refine ⟨h.committed, fun u => ?_⟩
  show replay _ (if t = u then [] else journal u past) = _
  have hview : ∀ q, (contents first (.completed t false :: past)).view u q =
      if u = t then (contents first past).committed q else (contents first past).view u q := by
    intro q
    show Option.getD ((if u = t then fun _ => none else (contents first past).own u) q) _ = _
    split <;> rfl
  split
  · rename_i hu
    refine congrArg some (funext fun q => ?_)
    rw [hview, if_pos hu.symm]
    rfl
  · rename_i hu
    refine (h.journals u).trans (congrArg some (funext fun q => ?_))
    rw [hview, if_neg (Ne.symm hu)]

end Serial

/-- A lawful trace is serial, if nothing was written past the cache. -/
theorem Lawful.serial (h : Lawful first trace) (hin : Inside trace) : Serial first trace := by
  induction trace with
  | nil => exact ⟨rfl, fun _ => rfl⟩
  | cons e past ih =>
    have hpast := ih h.2 hin.of_cons
    cases e with
    | saw t page bytes => exact hpast.saw (h.1.trans (view_of_contents hin.of_cons t page))
    | changed t page bytes => exact hpast.changed t page bytes
    | completed t commits =>
      cases commits with
      | false => exact hpast.abort t
      | true =>
        refine hpast.commit fun u page hu ht => ?_
        rw [← (account_of_contents first hin.of_cons page).2.1]
        exact h.1 u page hu ht
    | _ => exact ⟨hpast.committed, hpast.journals⟩

/-! ## Runs -/

/-- The transactions that have committed could have run one after the other. -/
structure World.Serializable (first : PageId → Bytes) (w : World) : Prop where
  /-- Each would have read what it has read, and the pages would be left as they are committed. -/
  serial : serial first (commits w.store.trace) = some (w.contents first).committed
  /-- A transaction comes last in their order when it commits. -/
  ended : ∀ t wantsCommit, w.uses? t = false → (Action.complete t wantsCommit).Ends w.store
    (fun _ s => commits s.trace =
      if wantsCommit then commits w.store.trace ++ [journal t w.store.trace] else commits w.store.trace)
    fun e s => e = .deadlock t ∧ commits s.trace = commits w.store.trace
  /-- Nothing else changes their order. -/
  ongoing : ∀ op : Op, op.Cached → op.Ongoing → commits (w.apply op).store.trace = commits w.store.trace

theorem commits_of_grown {P : Effect → Prop} (h : Grown P past now) (hP : ∀ t c, ¬ P (.completed t c)) :
    commits now = commits past := by
  obtain ⟨more, rfl, hm⟩ := h
  induction more with
  | nil => rfl
  | cons e more ih =>
    have ih := ih fun e' he' => hm e' (List.mem_cons_of_mem _ he')
    have he := hm e (List.mem_cons_self ..)
    cases e with
    | completed t c => exact absurd he (hP t c)
    | _ => exact ih

theorem Trails.journal_eq (h : Trails past now) (t : TxnId) : journal t now = journal t past := by
  obtain ⟨more, rfl, hm⟩ := h
  induction more with
  | nil => rfl
  | cons e more ih =>
    have ih := ih fun e' he' => hm e' (List.mem_cons_of_mem _ he')
    have he := hm e (List.mem_cons_self ..)
    cases e with
    | logged _ => exact ih
    | forced => exact ih
    | wrote _ _ => exact ih
    | undoing _ => exact ih
    | _ => exact he.elim

variable {s₀ s s' : Store} {w : World} {c : Bool}

theorem Finished.commits_eq (h : Finished t c s s') :
    commits s'.trace = if c then commits s.trace ++ [journal t s.trace] else commits s.trace := by
  obtain ⟨past, htrace, hforces⟩ := h.trace
  have hcommits : commits past = commits s.trace := commits_of_grown hforces.trails fun _ _ => id
  rw [htrace, ← hcommits, ← hforces.trails.journal_eq t]
  cases c <;> rfl

namespace World

theorem Stands.serializable (h : w.Stands s₀) (hin : Inside w.store.trace) : w.Serializable s₀.onFile where
  serial := (h.store.lawful.serial hin).committed
  ended _ wantsCommit hu := (h.completes hu wantsCommit).mono (fun _ _ hs => hs.1.commits_eq)
    fun _ _ hs => ⟨hs.2.1, hs.1.commits_eq⟩
  ongoing _ hc ho := commits_of_grown (leads_apply w hc ho).trace fun _ _ => id

/-- After every run on a store that has just been opened, the transactions that have committed are serializable
in the order of their commits. -/
theorem run_serializable (o : Opening s₀) (ops : List Op) (hops : ∀ op ∈ ops, op.Cached) :
    (run ops { store := s₀ }).Serializable s₀.onFile :=
  (stands_run o ops).serializable (inside_run o hops)

/-- Two transactions that have committed, one of which has read and written. -/
theorem run_serializable_stealing :
    Opening .narrow ∧ (∀ op ∈ Op.stealing true, op.Cached) ∧
      commits (run (Op.stealing true) { store := .narrow }).store.trace =
        [[.read (.ofT 0) [0, 1, 2, 3, 4, 5, 6, 7], .write (.ofT 0) [99, 1, 2, 3, 4, 5, 6, 7]],
          [.read (.ofT 1) [8, 9, 10, 11, 12, 13, 14, 15]]] ∧
      (run (Op.stealing true) { store := .narrow }).Serializable Store.narrow.onFile :=
  ⟨Opening.narrow, cached_stealing true, by decide +kernel,
    run_serializable Opening.narrow (Op.stealing true) (cached_stealing true)⟩

end World

end TupleStore
