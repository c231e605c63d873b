import Mathlib.Data.Fintype.Card
import Mathlib.Data.Fintype.EquivFin
import Mathlib.Order.WellFounded
import TupleStore.Lock.Queue
import TupleStore.Proofs.Lock.Holders
import TupleStore.Proofs.Lock.Reach

/-!
# No deadlock goes unseen

A cycle of waiting transactions is looked for only when a request starts to wait, and among the entries that
the table has at that time. It is never closed otherwise.

* `LockQueue.Op`, `LockQueue.run` : requests, requests made again in any order, and releases, also by
  transactions that wait;
* `LockQueue.WaitsFor` : who waits for whom, by the locks as they are;
* `LockQueue.Sound` : what every operation preserves. A transaction that waits is registered as waiting, or it
  has given up all its locks meanwhile and so nobody waits for it;
* `LockQueue.Live`, `LockQueue.run_live` : the waiting transactions form no cycle, no request is refused when it
  is made again, and some of them waits only for transactions that are free to go on.

A lock that is granted adds edges to its new holder only, which waits for nobody. A release takes edges away. So
only a request that starts to wait can close a cycle, and then all of the cycle is registered.
-/

namespace TupleStore

set_option autoImplicit false

open Relation

/-- New edges at one node close a cycle only through that node. -/
theorem Paths.cycle_of_edges_at {α : Type} {r r' : α → α → Prop} {s c : α}
    (hnew : ∀ x y, r' x y → r x y ∨ x = s ∨ y = s) (h : TransGen r' c c) :
    TransGen r c c ∨ TransGen r' s s := by
  have hsplit : ∀ {x y}, TransGen r' x y →
      TransGen r x y ∨ ReflTransGen r' x s ∧ ReflTransGen r' s y := by
    intro x y hp
    induction hp with
    | single hxy =>
      rcases hnew _ _ hxy with hxy' | rfl | rfl
      · exact .inl (.single hxy')
      · exact .inr ⟨.refl, .single hxy⟩
      · exact .inr ⟨.single hxy, .refl⟩
    | tail hxb hbc ih =>
      rcases ih with ih | ih
      · rcases hnew _ _ hbc with hbc' | rfl | rfl
        · exact .inl (.tail ih hbc')
        · exact .inr ⟨hxb.to_reflTransGen, .single hbc⟩
        · exact .inr ⟨hxb.to_reflTransGen.tail hbc, .refl⟩
      · exact .inr ⟨ih.1, ih.2.tail hbc⟩
  rcases hsplit h with hr | ⟨hcs, hsc⟩
  · exact .inl hr
  · exact .inr ((TransGen.trans_right hsc h).trans_left hcs)

namespace LockTable

variable {t : LockTable} {txn b : TxnId} {page : PageId} {mode : LockMode}

theorem mem_blockers (h : t.Sound) : b ∈ t.blockers txn page mode ↔
    b ≠ txn ∧ (t.mode? b page = some .write ∨ t.mode? b page = some .read ∧ mode = .write) :=
  PageLock.mem_blockers (h.lock page)

/-- Whoever stands in the way of a request by the locks of one table does so by those of another table in which
it has the same lock. -/
theorem mem_blockers_of_mode?_eq {t' : LockTable} (h : t.Sound) (h' : t'.Sound)
    (hm : t'.mode? b page = t.mode? b page) (hb : b ∈ t'.blockers txn page mode) :
    b ∈ t.blockers txn page mode := by
  rw [mem_blockers h'] at hb
  rw [mem_blockers h, ← hm]
  exact hb

/-- Every lock of a table is also in another one. -/
def Weaker (t t' : LockTable) : Prop := ∀ txn page, t.mode? txn page = none ∨ t.mode? txn page = t'.mode? txn page

theorem weaker_release (h : t.Sound) (txn : TxnId) (page : PageId) : (t.release txn page).2.Weaker t := by
  intro u q
  rw [mode?_release h]
  split
  · exact .inl rfl
  · exact .inr rfl

theorem weaker_releaseAll (h : t.Sound) (txn : TxnId) : (t.releaseAll txn).Weaker t := by
  intro u q
  rw [mode?_releaseAll h]
  split
  · exact .inl rfl
  · exact .inr rfl

/-! ## Entries of waiting transactions -/

/-- The edges of the wait graph are those of the registered requests. -/
theorem edge_waitGraph (h : t.Sound) {a : TxnId} : t.waitGraph.Edge a b ↔
    ∃ page mode, t.waiting[a]? = some (page, mode) ∧ b ∈ t.blockers a page mode := by
  simp only [waitGraph, WaitGraph.Edge, Std.TreeMap.getElem?_filterMap']
  cases ha : t.waiting[a]? with
  | none => simp
  | some entry =>
    obtain ⟨page, mode⟩ := entry
    have hself : b ∈ (t.blockers a page mode).erase a ↔ b ∈ t.blockers a page mode := by
      simp only [Std.TreeSet.mem_erase, ne_eq, Std.LawfulEqCmp.compare_eq_iff_eq, and_iff_right_iff_imp]
      intro hb
      exact Ne.symm ((mem_blockers h).1 hb).1
    simp only [Option.bind_some, WaitGraph.edgesOf?, Option.some.injEq, Prod.mk.injEq]
    constructor
    · rintro ⟨holders, hg, hb⟩
      split at hg
      · cases hg
      · obtain rfl := Option.some.inj hg
        exact ⟨page, mode, ⟨rfl, rfl⟩, hself.1 hb⟩
    · rintro ⟨_, _, ⟨rfl, rfl⟩, hb⟩
      have hne : ¬((t.blockers a page mode).erase a).isEmpty = true := fun he =>
        Std.TreeSet.isEmpty_iff_forall_not_mem.1 he b (hself.2 hb)
      rw [if_neg hne]
      exact ⟨_, rfl, hself.2 hb⟩

theorem waiting_acquire (u : TxnId) : (t.acquire txn page mode).2.waiting[u]? =
    if u = txn then
      if (t.acquire txn page mode).1 = .waits then some (page, mode) else none
    else t.waiting[u]? := by
  unfold acquire
  split
  · simp only [stopWaiting, LockTable.grant, Std.TreeMap.getElem?_erase,
      Std.LawfulEqCmp.compare_eq_iff_eq, reduceCtorEq, if_false]
    simp only [eq_comm]
  · dsimp only
    split
    · simp only [stopWaiting, startWaiting, Std.TreeMap.getElem?_erase, Std.TreeMap.getElem?_insert,
        Std.LawfulEqCmp.compare_eq_iff_eq, reduceCtorEq, if_false]
      by_cases hu : txn = u
      · simp [hu]
      · simp [hu, Ne.symm hu]
    · simp only [startWaiting, Std.TreeMap.getElem?_insert, Std.LawfulEqCmp.compare_eq_iff_eq, if_true]
      simp only [eq_comm]

theorem waiting_release : (t.release txn page).2.waiting = t.waiting := by
  unfold release
  split <;> rfl

theorem waiting_releaseAll (u : TxnId) : (t.releaseAll txn).waiting[u]? =
    if u = txn then none else t.waiting[u]? := by
  have hfold : ∀ (pages : List PageId) (t : LockTable),
      (pages.foldl (fun t page => t.dropLock txn page) t).waiting = t.waiting := by
    intro pages
    induction pages with
    | nil => exact fun _ => rfl
    | cons page pages ih => exact fun t => ih _
  rw [show (t.releaseAll txn).waiting = _ from congrArg (·.erase txn) (hfold (t.lockedBy txn) t),
    Std.TreeMap.getElem?_erase]
  simp only [Std.LawfulEqCmp.compare_eq_iff_eq, eq_comm (a := u)]

/-- A request that is refused would, if it waited, have its transaction wait for itself. -/
theorem cycle_of_refused (h : (t.acquire txn page mode).1 = .refused) :
    TransGen (t.startWaiting txn page mode).waitGraph.Edge txn txn := by
  unfold acquire at h
  split at h
  · cases h
  · dsimp only at h
    split at h
    · rename_i hd
      exact WaitGraph.isDeadlocked_iff.1 hd
    · cases h

theorem acquire_waits (h : (t.acquire txn page mode).1 = .waits) :
    (t.acquire txn page mode).2 = t.startWaiting txn page mode ∧
      ¬TransGen (t.startWaiting txn page mode).waitGraph.Edge txn txn := by
  unfold acquire at h ⊢
  split
  · rename_i hb
    rw [if_pos hb] at h
    cases h
  · rename_i hb
    rw [if_neg hb] at h
    dsimp only at h ⊢
    split
    · rename_i hd
      rw [if_pos hd] at h
      cases h
    · rename_i hd
      exact ⟨rfl, fun hc => hd (WaitGraph.isDeadlocked_iff.2 hc)⟩

end LockTable

/-! ## Operations -/

namespace LockQueue

/-- A request of the queue made again. It stays in the queue if it still has to wait. -/
def again (q : LockQueue) (r : LockRequest) : LockAnswer × LockQueue :=
  let (answer, table) := q.table.acquire r.txn r.page r.mode
  (answer, ⟨table, if answer = .waits then q.pending else q.pending.erase r⟩)

inductive Op where
  | request (r : LockRequest)
  | retry (r : LockRequest)
  | release (txn : TxnId) (page : PageId)
  | releaseAll (txn : TxnId)

/-- One operation. A transaction that waits makes no other request, and only what waits is made again. -/
def apply (q : LockQueue) : Op → LockQueue
  | .request r => if q.isBusy r.txn then q else (q.request r).2
  | .retry r => if r ∈ q.pending then (q.again r).2 else q
  | .release txn page => q.withTable (q.table.release txn page).2
  | .releaseAll txn => q.withTable (q.table.releaseAll txn)

def run (q : LockQueue) (ops : List Op) : LockQueue := ops.foldl apply q

/-- Whether a request that waits is granted in the course of some operations. -/
def Grants (q : LockQueue) (r : LockRequest) : List Op → Prop
  | [] => False
  | op :: ops => (op = .retry r ∧ r ∈ q.pending ∧ (q.again r).1 = .granted) ∨ (q.apply op).Grants r ops

/-- Who stands in the way of a request. -/
def blockers (q : LockQueue) (r : LockRequest) : Std.TreeSet TxnId := q.table.blockers r.txn r.page r.mode

/-- A transaction waits for those that stand in the way of its request. -/
def WaitsFor (q : LockQueue) (a b : TxnId) : Prop := ∃ r ∈ q.pending, r.txn = a ∧ b ∈ q.blockers r

theorem isBusy_iff {q : LockQueue} {txn : TxnId} : q.isBusy txn = true ↔ ∃ r ∈ q.pending, r.txn = txn := by
  simp [isBusy]

/-! ## What every operation preserves -/

structure Sound (q : LockQueue) : Prop where
  table : q.table.Sound
  distinct : (q.pending.map (·.txn)).Nodup
  registered : ∀ r ∈ q.pending,
    q.table.waiting[r.txn]? = some (r.page, r.mode) ∨ ∀ page, q.table.mode? r.txn page = none
  pending : ∀ txn page mode, q.table.waiting[txn]? = some (page, mode) →
    ∃ r ∈ q.pending, r.txn = txn ∧ r.page = page ∧ r.mode = mode
  acyclic : ∀ txn, ¬TransGen q.WaitsFor txn txn

variable {q : LockQueue}

theorem sound_empty : Sound {} where
  table := LockTable.sound_empty
  distinct := List.nodup_nil
  registered := by simp
  pending := by simp
  acyclic txn h := by
    obtain ⟨_, ⟨r, hr, -⟩, -⟩ := TransGen.head'_iff.1 h
    cases hr

theorem Sound.eq_of_txn (h : q.Sound) {r r' : LockRequest} (hr : r ∈ q.pending) (hr' : r' ∈ q.pending)
    (e : r.txn = r'.txn) : r = r' :=
  List.inj_on_of_nodup_map h.distinct hr hr' e

/-- Whoever stands in the way when locks have been given back stood there before, and holds a lock still. -/
theorem Sound.blockers_withTable (h : q.Sound) {t : LockTable} (ht : t.Sound) (hweaker : t.Weaker q.table)
    {r : LockRequest} {b : TxnId} (hb : b ∈ (q.withTable t).blockers r) :
    b ∈ q.blockers r ∧ t.mode? b r.page ≠ none := by
  have hheld : t.mode? b r.page ≠ none := fun hn => by
    have hm := ((LockTable.mem_blockers ht).1 hb).2
    simp [hn] at hm
  exact ⟨LockTable.mem_blockers_of_mode?_eq h.table ht ((hweaker b r.page).resolve_left hheld) hb, hheld⟩

theorem Sound.withTable (h : q.Sound) {t : LockTable} (ht : t.Sound) (hweaker : t.Weaker q.table)
    (hwait : ∀ u, t.waiting[u]? = q.table.waiting[u]? ∨
      t.waiting[u]? = none ∧ (∀ page, t.mode? u page = none) ∨
      ∃ r ∈ q.pending, r.txn = u ∧ t.waiting[u]? = some (r.page, r.mode)) :
    (q.withTable t).Sound where
  table := ht
  distinct := h.distinct
  registered r hr := by
    rcases hwait r.txn with hw | hw | ⟨r', hr', e, hw⟩
    · refine (h.registered r hr).imp (fun hreg => hw.trans hreg) fun hnone page => ?_
      rcases hweaker r.txn page with hm | hm
      · exact hm
      · exact hm.trans (hnone page)
    · exact .inr hw.2
    · obtain rfl := h.eq_of_txn hr' hr e
      exact .inl hw
  pending txn page mode hw' := by
    rcases hwait txn with hw | hw | ⟨r, hr, e, hw⟩
    · exact h.pending txn page mode (hw ▸ hw')
    · exact absurd (hw.1.symm.trans hw') (by simp)
    · cases hw.symm.trans hw'
      exact ⟨r, hr, e, rfl, rfl⟩
  acyclic txn hc := by
    refine h.acyclic txn (TransGen.mono ?_ _ _ hc)
    rintro a b ⟨r, hr, ha, hb⟩
    exact ⟨r, hr, ha, (h.blockers_withTable ht hweaker hb).1⟩

theorem Sound.release (h : q.Sound) (txn : TxnId) (page : PageId) :
    (q.withTable (q.table.release txn page).2).Sound := by
  refine h.withTable (h.table.release txn page) (LockTable.weaker_release h.table txn page) fun u => .inl ?_
  rw [LockTable.waiting_release]

theorem Sound.releaseAll (h : q.Sound) (txn : TxnId) : (q.withTable (q.table.releaseAll txn)).Sound := by
  refine h.withTable (h.table.releaseAll txn) (LockTable.weaker_releaseAll h.table txn) fun u => ?_
  rw [LockTable.waiting_releaseAll]
  split
  · rename_i hu
    refine .inr (.inl ⟨rfl, fun p => ?_⟩)
    rw [LockTable.mode?_releaseAll h.table, if_pos hu]
  · exact .inl rfl

/-- A request that is granted adds edges to its transaction alone, and that transaction waits no more. -/
theorem Sound.granted (h : q.Sound) {r : LockRequest} {pending : List LockRequest}
    (hg : (q.table.acquire r.txn r.page r.mode).1 = .granted)
    (hsub : pending.Sublist q.pending)
    (hothers : ∀ r', r' ∈ pending ↔ r' ∈ q.pending ∧ r'.txn ≠ r.txn) :
    Sound ⟨(q.table.acquire r.txn r.page r.mode).2, pending⟩ where
  table := h.table.acquire _ _ _
  distinct := h.distinct.sublist (hsub.map _)
  registered r' hr' := by
    obtain ⟨hr', hne⟩ := (hothers r').1 hr'
    rw [LockTable.waiting_acquire, if_neg hne]
    refine (h.registered r' hr').imp_right fun hnone page => ?_
    rw [LockTable.mode?_acquire_granted hg, if_neg fun e => hne e.1]
    exact hnone page
  pending txn page mode hw := by
    rw [LockTable.waiting_acquire, hg] at hw
    split at hw
    · simp at hw
    · rename_i hne
      obtain ⟨r', hr', e, hp⟩ := h.pending txn page mode hw
      exact ⟨r', (hothers r').2 ⟨hr', e ▸ hne⟩, e, hp⟩
  acyclic txn hc := by
    have hnew : ∀ a b, WaitsFor ⟨(q.table.acquire r.txn r.page r.mode).2, pending⟩ a b →
        q.WaitsFor a b ∨ a = r.txn ∨ b = r.txn := by
      rintro a b ⟨r', hr', ha, hb⟩
      by_cases e : b = r.txn
      · exact .inr (.inr e)
      · refine .inl ⟨r', ((hothers r').1 hr').1, ha, ?_⟩
        refine LockTable.mem_blockers_of_mode?_eq h.table (h.table.acquire _ _ _) ?_ hb
        rw [LockTable.mode?_acquire_granted hg, if_neg fun e' => e e'.1]
    rcases Paths.cycle_of_edges_at hnew hc with hc | hc
    · exact h.acyclic txn hc
    · obtain ⟨_, ⟨r', hr', e, -⟩, -⟩ := TransGen.head'_iff.1 hc
      exact ((hothers r').1 hr').2 e

/-- A cycle through a waiting request goes only through transactions that hold something, and they are all
registered. -/
theorem Sound.cycle_registered (h : q.Sound) {r : LockRequest} {pending : List LockRequest}
    (hpending : ∀ r', r' ∈ pending ↔ r' ∈ q.pending ∧ r'.txn ≠ r.txn ∨ r' = r)
    (hc : TransGen (WaitsFor ⟨q.table.startWaiting r.txn r.page r.mode, pending⟩) r.txn r.txn) :
    TransGen (q.table.startWaiting r.txn r.page r.mode).waitGraph.Edge r.txn r.txn := by
  have hsound : (q.table.startWaiting r.txn r.page r.mode).Sound := h.table.congr rfl rfl
  have hedge : ∀ {a b}, (a = r.txn ∨ ∃ page, q.table.mode? a page ≠ none) →
      WaitsFor ⟨q.table.startWaiting r.txn r.page r.mode, pending⟩ a b →
      (q.table.startWaiting r.txn r.page r.mode).waitGraph.Edge a b := by
    rintro a b hold ⟨r', hr', rfl, hb⟩
    rw [LockTable.edge_waitGraph hsound]
    refine ⟨r'.page, r'.mode, ?_, hb⟩
    rw [LockTable.startWaiting, Std.TreeMap.getElem?_insert]
    rcases (hpending r').1 hr' with ⟨hq, hne⟩ | rfl
    · rw [if_neg fun e => hne (Std.LawfulEqCmp.eq_of_compare e).symm]
      rcases h.registered r' hq with hreg | hnone
      · exact hreg
      · rcases hold with e | ⟨page, hp⟩
        · exact absurd e hne
        · exact absurd (hnone page) hp
    · rw [if_pos Std.ReflCmp.compare_self]
  have hall : ∀ {c}, TransGen (WaitsFor ⟨q.table.startWaiting r.txn r.page r.mode, pending⟩) r.txn c →
      TransGen (q.table.startWaiting r.txn r.page r.mode).waitGraph.Edge r.txn c := by
    intro c hp
    induction hp with
    | single hb => exact .single (hedge (.inl rfl) hb)
    | tail hab hbc ih =>
      refine .tail ih (hedge (.inr ?_) hbc)
      -- somebody waits for this transaction, so it holds a page
      obtain ⟨_, -, r', -, -, hb⟩ := TransGen.tail'_iff.1 hab
      refine ⟨r'.page, fun hn => ?_⟩
      have hb := ((LockTable.mem_blockers hsound).1 hb).2
      rw [show (q.table.startWaiting r.txn r.page r.mode).mode? _ r'.page = none from hn] at hb
      simp at hb
  exact hall hc

theorem Sound.request (h : q.Sound) {r : LockRequest} (hidle : q.isBusy r.txn = false) :
    (q.request r).2.Sound := by
  have hother : ∀ r' ∈ q.pending, r'.txn ≠ r.txn := fun r' hr' e =>
    absurd (isBusy_iff.2 ⟨r', hr', e⟩) (by simp [hidle])
  have hnone : q.table.waiting[r.txn]? = none := by
    cases hw : q.table.waiting[r.txn]? with
    | none => rfl
    | some entry =>
      obtain ⟨r', hr', e, -⟩ := h.pending r.txn entry.1 entry.2 hw
      exact absurd e (hother r' hr')
  unfold LockQueue.request
  cases ha : (q.table.acquire r.txn r.page r.mode).1 with
  | granted =>
    simp only [ha, reduceCtorEq, if_false]
    exact h.granted ha (List.Sublist.refl _) fun r' => ⟨fun hr' => ⟨hr', hother r' hr'⟩, And.left⟩
  | refused =>
    simp only [ha, reduceCtorEq, if_false]
    refine h.withTable (h.table.acquire _ _ _) (fun u page => .inr ?_) fun u => .inl ?_
    · exact LockTable.mode?_acquire_of_ne_granted (by simp [ha]) u page
    · rw [LockTable.waiting_acquire, ha]
      split
      · rename_i e
        rw [e, hnone]
        rfl
      · rfl
  | waits =>
    obtain ⟨ht, hnocycle⟩ := LockTable.acquire_waits ha
    simp only [ha, if_true, ht]
    have hmem : ∀ r', r' ∈ q.pending ++ [r] ↔ r' ∈ q.pending ∧ r'.txn ≠ r.txn ∨ r' = r := by
      intro r'
      rw [List.mem_append, List.mem_singleton]
      exact or_congr_left ⟨fun hr' => ⟨hr', hother r' hr'⟩, And.left⟩
    refine ⟨h.table.congr rfl rfl, ?_, fun r' hr' => ?_, fun txn page mode hw => ?_, fun txn hc => ?_⟩
    · rw [List.map_append, List.nodup_append]
      refine ⟨h.distinct, List.nodup_singleton _, fun a ha b hb => ?_⟩
      obtain ⟨r', hr', rfl⟩ := List.mem_map.1 ha
      obtain rfl := List.mem_singleton.1 hb
      exact hother r' hr'
    · rw [LockTable.startWaiting, Std.TreeMap.getElem?_insert]
      rcases (hmem r').1 hr' with ⟨hq, hne⟩ | rfl
      · rw [if_neg fun e => hne (Std.LawfulEqCmp.eq_of_compare e).symm]
        exact h.registered r' hq
      · rw [if_pos Std.ReflCmp.compare_self]
        exact .inl rfl
    · rw [LockTable.startWaiting, Std.TreeMap.getElem?_insert] at hw
      split at hw
      · rename_i e
        cases hw
        exact ⟨r, (hmem r).2 (.inr rfl), Std.LawfulEqCmp.eq_of_compare e, rfl, rfl⟩
      · obtain ⟨r', hr', hp⟩ := h.pending txn page mode hw
        exact ⟨r', List.mem_append_left _ hr', hp⟩
    · have hnew : ∀ a b, WaitsFor ⟨q.table.startWaiting r.txn r.page r.mode, q.pending ++ [r]⟩ a b →
          q.WaitsFor a b ∨ a = r.txn ∨ b = r.txn := by
        rintro a b ⟨r', hr', e, hb⟩
        rcases (hmem r').1 hr' with ⟨hq, -⟩ | rfl
        · exact .inl ⟨r', hq, e, hb⟩
        · exact .inr (.inl e.symm)
      rcases Paths.cycle_of_edges_at hnew hc with hc | hc
      · exact h.acyclic txn hc
      · exact hnocycle (h.cycle_registered hmem hc)

/-! ## Requests made again -/

/-- A request that waits is never refused when it is made again: the cycle would have been there before. -/
theorem Sound.again_ne_refused (h : q.Sound) {r : LockRequest} (hr : r ∈ q.pending) :
    (q.table.acquire r.txn r.page r.mode).1 ≠ .refused := by
  intro ha
  refine h.acyclic r.txn (TransGen.mono ?_ _ _ (LockTable.cycle_of_refused ha))
  intro a b hab
  have hsound : (q.table.startWaiting r.txn r.page r.mode).Sound := h.table.congr rfl rfl
  rw [LockTable.edge_waitGraph hsound] at hab
  obtain ⟨page, mode, hw, hb⟩ := hab
  rw [LockTable.startWaiting, Std.TreeMap.getElem?_insert] at hw
  split at hw
  · rename_i e
    obtain rfl := Std.LawfulEqCmp.eq_of_compare e
    cases hw
    exact ⟨r, hr, rfl, hb⟩
  · obtain ⟨r', hr', rfl, rfl, rfl⟩ := h.pending a page mode hw
    exact ⟨r', hr', rfl, hb⟩

theorem Sound.again (h : q.Sound) {r : LockRequest} (hr : r ∈ q.pending) : (q.again r).2.Sound := by
  have hnodup : q.pending.Nodup := List.Nodup.of_map _ h.distinct
  unfold LockQueue.again
  cases ha : (q.table.acquire r.txn r.page r.mode).1 with
  | granted =>
    simp only [ha, reduceCtorEq, if_false]
    refine h.granted ha List.erase_sublist fun r' => ?_
    rw [hnodup.mem_erase_iff, and_comm]
    exact and_congr_right fun hr' => not_congr ⟨congrArg _, h.eq_of_txn hr' hr⟩
  | waits =>
    simp only [ha, if_true]
    refine h.withTable (h.table.acquire _ _ _) (fun u page => .inr ?_) fun u => ?_
    · exact LockTable.mode?_acquire_of_ne_granted (by simp [ha]) u page
    · rw [LockTable.waiting_acquire, ha]
      split
      · rename_i e
        exact .inr (.inr ⟨r, hr, e.symm, rfl⟩)
      · exact .inl rfl
  | refused => exact absurd ha (h.again_ne_refused hr)

theorem Sound.apply (h : q.Sound) (op : Op) : (q.apply op).Sound := by
  cases op with
  | request r =>
    rw [LockQueue.apply]
    split
    · exact h
    · rename_i hb
      exact h.request (by simpa using hb)
  | retry r =>
    rw [LockQueue.apply]
    split
    · rename_i hr
      exact h.again hr
    · exact h
  | release txn page => exact h.release txn page
  | releaseAll txn => exact h.releaseAll txn

theorem Sound.run (h : q.Sound) (ops : List Op) : (q.run ops).Sound := by
  induction ops generalizing q with
  | nil => exact h
  | cons op ops ih => exact ih (h.apply op)

/-! ## The round of the queue -/

/-- The round that the queue makes is one retry after another, in order, and each request is granted or waits
on. -/
theorem Sound.retry (done : List LockRequest) {table : LockTable} {rest : List LockRequest}
    (h : LockQueue.Sound ⟨table, done ++ rest⟩) :
    LockQueue.run ⟨table, done ++ rest⟩ (rest.map Op.retry) =
        ⟨(LockQueue.retry table rest).1, done ++ (LockQueue.retry table rest).2.1⟩ ∧
      ∀ x ∈ (LockQueue.retry table rest).2.2, x.2 = .granted := by
  induction rest generalizing table done with
  | nil => exact ⟨rfl, fun x hx => absurd hx (List.not_mem_nil)⟩
  | cons r rest ih =>
    have hr : r ∈ done ++ r :: rest := by simp
    have hnodup : (done ++ r :: rest).Nodup := List.Nodup.of_map _ h.distinct
    have herase : (done ++ r :: rest).erase r = done ++ rest := by
      have hr' : r ∉ done := fun hd => by
        rw [List.nodup_append] at hnodup
        exact hnodup.2.2 r hd r (List.mem_cons_self) rfl
      rw [List.erase_append_right _ hr', List.erase_cons_head]
    have hstep : LockQueue.run ⟨table, done ++ r :: rest⟩ ((r :: rest).map Op.retry) =
        LockQueue.run (LockQueue.again ⟨table, done ++ r :: rest⟩ r).2 (rest.map Op.retry) := by
      show LockQueue.run (LockQueue.apply _ (.retry r)) (rest.map Op.retry) = _
      rw [LockQueue.apply, if_pos hr]
    have hagain := h.again hr
    have hne := h.again_ne_refused hr
    rw [hstep]
    unfold LockQueue.again at hagain ⊢
    rw [LockQueue.retry]
    cases ha : (table.acquire r.txn r.page r.mode).1 with
    | granted =>
      simp only [ha, reduceCtorEq, if_false, herase] at hagain ⊢
      obtain ⟨h₁, h₂⟩ := ih _ hagain
      refine ⟨h₁, fun x hx => ?_⟩
      rcases List.mem_cons.1 hx with rfl | hx
      · rfl
      · exact h₂ x hx
    | waits =>
      simp only [ha, if_true] at hagain ⊢
      have hassoc : done ++ r :: rest = (done ++ [r]) ++ rest := by simp
      rw [hassoc] at hagain ⊢
      obtain ⟨h₁, h₂⟩ := ih _ hagain
      refine ⟨h₁.trans ?_, h₂⟩
      simp
    | refused => exact absurd ha hne

theorem Sound.settle (h : q.Sound) :
    q.settle.2 = q.run (q.pending.map Op.retry) ∧ ∀ x ∈ q.settle.1, x.2 = .granted := by
  obtain ⟨h₁, h₂⟩ := Sound.retry [] h
  exact ⟨h₁.symm, h₂⟩

/-! ## Some request goes on -/

/-- As no cycle of waiting transactions is left, one of them waits only for others that do not wait. -/
theorem Sound.exists_unblocked (h : q.Sound) (hne : q.pending ≠ []) :
    ∃ r ∈ q.pending, ∀ b ∈ q.blockers r, q.isBusy b = false := by
  let before : {r // r ∈ q.pending} → {r // r ∈ q.pending} → Prop := fun r r' =>
    TransGen q.WaitsFor r'.1.txn r.1.txn
  have htrans : IsTrans _ before := ⟨fun _ _ _ h₁ h₂ => h₂.trans h₁⟩
  have hirrefl : Std.Irrefl before := ⟨fun r hc => h.acyclic r.1.txn hc⟩
  obtain ⟨r, hr⟩ := List.exists_mem_of_ne_nil _ hne
  obtain ⟨⟨m, hm⟩, -, hmin⟩ :=
    (Finite.wellFounded_of_trans_of_irrefl before).has_min Set.univ ⟨⟨r, hr⟩, trivial⟩
  refine ⟨m, hm, fun b hb => Bool.not_eq_true _ ▸ fun hbusy => ?_⟩
  obtain ⟨r', hr', rfl⟩ := isBusy_iff.1 hbusy
  exact hmin ⟨r', hr'⟩ trivial (.single ⟨m, hm, rfl, hb⟩)

/-- Once all that stand in the way of a request have given up their locks, and the request is made again, some
request that was waiting has been granted: if no other was, nobody has come in the way. The induction is on the
operations. -/
theorem Sound.grants (h : q.Sound) {r : LockRequest} (hr : r ∈ q.pending) {ops : List Op}
    (hops : ∀ r', .request r' ∉ ops) (hfree : ∀ b ∈ q.blockers r, .releaseAll b ∈ ops) :
    ∃ r' ∈ q.pending, q.Grants r' (ops ++ [.retry r]) := by
  induction ops generalizing q with
  | nil =>
    have he : (q.table.blockers r.txn r.page r.mode).isEmpty = true :=
      Std.TreeSet.isEmpty_iff_forall_not_mem.2 fun b hb => absurd (hfree b hb) List.not_mem_nil
    refine ⟨r, hr, .inl ⟨rfl, hr, ?_⟩⟩
    show (q.table.acquire r.txn r.page r.mode).1 = .granted
    rw [LockTable.acquire, if_pos he]
  | cons op ops ih =>
    have hops' : ∀ r', .request r' ∉ ops := fun r' hr' => hops r' (.tail _ hr')
    -- whatever leaves the queue as it is lets the rest of the operations grant a request
    have hrest : (q.apply op).pending = q.pending →
        (∀ b ∈ (q.apply op).blockers r, .releaseAll b ∈ ops) →
        ∃ r' ∈ q.pending, q.Grants r' (op :: ops ++ [.retry r]) := by
      intro hpend hfree'
      obtain ⟨r', hr', hg⟩ := ih (h.apply op) (hpend ▸ hr) hops' hfree'
      exact ⟨r', hpend ▸ hr', .inr hg⟩
    have hfree' : ∀ b ∈ q.blockers r, op ≠ .releaseAll b → .releaseAll b ∈ ops := by
      intro b hb hne
      exact (List.mem_cons.1 (hfree b hb)).resolve_left (Ne.symm hne)
    cases op with
    | request r' => exact absurd (.head _) (hops r')
    | release txn page =>
      refine hrest rfl fun b hb => hfree' b ?_ (by simp)
      exact (h.blockers_withTable (h.table.release txn page) (LockTable.weaker_release h.table txn page) hb).1
    | releaseAll txn =>
      refine hrest rfl fun b hb => ?_
      obtain ⟨hb, hheld⟩ :=
        h.blockers_withTable (h.table.releaseAll txn) (LockTable.weaker_releaseAll h.table txn) hb
      refine hfree' b hb fun e => hheld ?_
      rw [LockTable.mode?_releaseAll h.table, if_pos (Op.releaseAll.inj e).symm]
    | retry r' =>
      by_cases hr' : r' ∈ q.pending
      · cases ha : (q.again r').1 with
        | granted => exact ⟨r', hr', .inl ⟨rfl, hr', ha⟩⟩
        | refused => exact absurd ha (h.again_ne_refused hr')
        | waits =>
          have happly : q.apply (.retry r') = ⟨(q.table.acquire r'.txn r'.page r'.mode).2, q.pending⟩ := by
            rw [LockQueue.apply, if_pos hr']
            unfold LockQueue.again at ha ⊢
            simp only at ha ⊢
            rw [if_pos ha]
          have hmode := LockTable.mode?_acquire_of_ne_granted
            (show (q.table.acquire r'.txn r'.page r'.mode).1 ≠ .granted from fun e => by cases e.symm.trans ha)
          refine hrest (by rw [happly]) fun b hb => hfree' b ?_ (by simp)
          rw [happly] at hb
          exact LockTable.mem_blockers_of_mode?_eq h.table (h.table.acquire _ _ _) (hmode b r.page) hb
      · have happly : q.apply (.retry r') = q := if_neg hr'
        refine hrest (by rw [happly]) fun b hb => hfree' b ?_ (by simp)
        rwa [happly] at hb

/-- The requests that wait never end up waiting for each other in a circle, and never wait in vain. -/
structure Live (q : LockQueue) : Prop where
  acyclic : ∀ txn, ¬TransGen q.WaitsFor txn txn
  /-- A transaction waits for one lock at a time. -/
  distinct : (q.pending.map (·.txn)).Nodup
  /-- Only a new request can be refused. -/
  retried : ∀ r ∈ q.pending, (q.again r).1 ≠ .refused
  /-- The same in the round that the queue makes, which is a run of such retries. -/
  settled : q.settle.2 = q.run (q.pending.map Op.retry) ∧ ∀ x ∈ q.settle.1, x.2 = .granted
  /-- Some request has only transactions in its way that do not wait. When they have given up their locks, in any
  order and with retries and other releases in between, and that request is made again, one of those that wait
  has been granted. -/
  progress : q.pending ≠ [] → ∃ r ∈ q.pending, (∀ b ∈ q.blockers r, q.isBusy b = false) ∧
    ∀ ops, (∀ r', .request r' ∉ ops) → (∀ b ∈ q.blockers r, .releaseAll b ∈ ops) →
      ∃ r' ∈ q.pending, q.Grants r' (ops ++ [.retry r])

theorem run_live (ops : List Op) : (run {} ops).Live := by
  have h : (run {} ops).Sound := sound_empty.run ops
  refine ⟨h.acyclic, h.distinct, fun r hr => h.again_ne_refused hr, h.settle, fun hne => ?_⟩
  obtain ⟨r, hr, hfree⟩ := h.exists_unblocked hne
  exact ⟨r, hr, hfree, fun ops hops hall => h.grants hr hops hall⟩

end LockQueue

end TupleStore
