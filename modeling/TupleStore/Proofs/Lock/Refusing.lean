import TupleStore.Proofs.Lock.Modes
import TupleStore.Proofs.Lock.Waiting

/-!
# Which requests are refused

A new request is granted if nobody stands in its way. Otherwise it is refused exactly if one of those who do waits,
over any number of others, for the transaction that asks, and it waits in all other cases. What counts are the locks
as they are now, whatever they were when the others began to wait.

* `LockMap.Blocks`, `LockMap.WaitsFor` : who stands in whose way, told by the map of locks and the requests that wait;
* `LockQueue.Sound.refused_iff` : the search of the wait graph finds what this relation says;
* `LockQueue.Answers`, `LockQueue.run_answers` : the answer to a new request after any operations, and what a refusal
  leaves as it was.
-/

namespace TupleStore

set_option autoImplicit false

open Relation

/-! ## The relation -/

namespace LockMap

/-- A transaction has a lock on a page that does not go with the request of another one. -/
def Blocks (m : LockMap) (b txn : TxnId) (page : PageId) (mode : LockMode) : Prop :=
  b ≠ txn ∧ ∃ held, m b page = some held ∧ (held = .write ∨ mode = .write)

/-- A transaction whose request is not answered waits for all that stand in its way. -/
def WaitsFor (m : LockMap) (pending : List LockRequest) (a b : TxnId) : Prop :=
  ∃ r ∈ pending, r.txn = a ∧ m.Blocks b r.txn r.page r.mode

end LockMap

namespace LockTable

variable {t : LockTable} {txn b : TxnId} {page : PageId} {mode : LockMode}

theorem mem_blockers_iff_blocks (h : t.Sound) :
    b ∈ t.blockers txn page mode ↔ LockMap.Blocks t.mode? b txn page mode := by
  rw [mem_blockers h, LockMap.Blocks]
  refine and_congr_right fun _ => ?_
  constructor
  · rintro (hw | ⟨hr, hmode⟩)
    · exact ⟨.write, hw, .inl rfl⟩
    · exact ⟨.read, hr, .inr hmode⟩
  · rintro ⟨held, hheld, hclash⟩
    cases held with
    | write => exact .inl hheld
    | read => exact .inr ⟨hheld, hclash.resolve_left (by simp)⟩

theorem admits_iff_not_blocks : LockMap.Admits t.mode? txn page mode ↔
    ∀ b, ¬ LockMap.Blocks t.mode? b txn page mode := by
  unfold LockMap.Admits LockMap.Blocks
  refine forall_congr' fun b => ?_
  rcases hm : t.mode? b page with _ | held
  · simp
  · cases held <;> cases mode <;> simp

/-- A request is refused if it is not granted and, as it began to wait, its transaction would wait for itself. -/
theorem acquire_refused_iff : (t.acquire txn page mode).1 = .refused ↔
    (t.acquire txn page mode).1 ≠ .granted ∧
      TransGen (t.startWaiting txn page mode).waitGraph.Edge txn txn := by
  constructor
  · intro h
    exact ⟨by simp [h], cycle_of_refused h⟩
  · rintro ⟨hne, hcycle⟩
    cases ha : (t.acquire txn page mode).1 with
    | granted => exact absurd ha hne
    | refused => rfl
    | waits => exact absurd hcycle (acquire_waits ha).2

/-- A refusal leaves the entries of all who wait as they were. -/
theorem waitingCount_acquire_refused (h : (t.acquire txn page mode).1 = .refused)
    (hnone : t.waiting[txn]? = none) : (t.acquire txn page mode).2.waitingCount = t.waitingCount := by
  have hout : txn ∉ t.waiting := by
    rw [Std.TreeMap.mem_iff_isSome_getElem?, hnone]
    simp
  have htable : (t.acquire txn page mode).2 = (t.startWaiting txn page mode).stopWaiting txn := by
    unfold acquire at h ⊢
    split
    · rename_i he
      rw [if_pos he] at h
      cases h
    · rename_i he
      rw [if_neg he] at h
      dsimp only at h ⊢
      split
      · rfl
      · rename_i hd
        rw [if_neg hd] at h
        cases h
  rw [htable]
  simp [waitingCount, stopWaiting, startWaiting, Std.TreeMap.size_erase, Std.TreeMap.size_insert, hout]

end LockTable

/-! ## The search -/

namespace LockQueue

variable {q : LockQueue} {r : LockRequest}

theorem Sound.waitsFor_iff (h : q.Sound) {a b : TxnId} :
    q.WaitsFor a b ↔ LockMap.WaitsFor q.table.mode? q.pending a b := by
  unfold WaitsFor LockMap.WaitsFor LockQueue.blockers
  simp only [LockTable.mem_blockers_iff_blocks h.table]

/-- A transaction without a request has no entry. -/
theorem Sound.waiting_eq_none (h : q.Sound) {txn : TxnId} (hidle : q.isBusy txn = false) :
    q.table.waiting[txn]? = none := by
  cases hw : q.table.waiting[txn]? with
  | none => rfl
  | some entry =>
    obtain ⟨r, hr, rfl, -⟩ := h.pending txn entry.1 entry.2 hw
    exact absurd (isBusy_iff.2 ⟨r, hr, rfl⟩) (by simp [hidle])

/-- The edges of the wait graph, as a request begins to wait, are those of the relation for all others, and lead from
its own transaction to those in its way. -/
theorem Sound.edge_startWaiting (h : q.Sound) {a b : TxnId}
    (he : (q.table.startWaiting r.txn r.page r.mode).waitGraph.Edge a b) :
    if a = r.txn then b ∈ q.blockers r else q.WaitsFor a b := by
  have hsound : (q.table.startWaiting r.txn r.page r.mode).Sound := h.table.congr rfl rfl
  rw [LockTable.edge_waitGraph hsound] at he
  obtain ⟨page, mode, hw, hb⟩ := he
  rw [LockTable.startWaiting, Std.TreeMap.getElem?_insert] at hw
  split at hw
  · rename_i e
    cases hw
    rw [if_pos (Std.LawfulEqCmp.eq_of_compare e).symm]
    obtain rfl := Std.LawfulEqCmp.eq_of_compare e
    exact hb
  · rename_i e
    rw [if_neg fun e' => e (by rw [e']; exact Std.ReflCmp.compare_self)]
    obtain ⟨r', hr', rfl, rfl, rfl⟩ := h.pending a page mode hw
    exact ⟨r', hr', rfl, hb⟩

/-- The search says that a request must not wait exactly if somebody in its way waits for its transaction. -/
theorem Sound.cycle_iff (h : q.Sound) (hidle : q.isBusy r.txn = false) :
    TransGen (q.table.startWaiting r.txn r.page r.mode).waitGraph.Edge r.txn r.txn ↔
      ∃ b ∈ q.blockers r, ReflTransGen q.WaitsFor b r.txn := by
  have hfrom : ∀ {b}, (q.table.startWaiting r.txn r.page r.mode).waitGraph.Edge r.txn b → b ∈ q.blockers r :=
    fun hb => by simpa using h.edge_startWaiting hb
  have hmono : ∀ {b}, ReflTransGen (fun x y =>
      (q.table.startWaiting r.txn r.page r.mode).waitGraph.Edge x y ∧ x ≠ r.txn) b r.txn →
      ReflTransGen q.WaitsFor b r.txn := fun hp => by
    refine ReflTransGen.mono (fun x y hxy => ?_) _ _ hp
    simpa [hxy.2] using h.edge_startWaiting hxy.1
  constructor
  · intro hc
    obtain ⟨b, hb, hp⟩ := TransGen.head'_iff.1 hc
    -- the path back is taken from its last visit of the transaction on
    rcases Paths.avoid r.txn hp with hp | ⟨d, hd, hp⟩
    · exact ⟨b, hfrom hb, hmono hp⟩
    · exact ⟨d, hfrom hd, hmono hp⟩
  · rintro ⟨b, hb, hp⟩
    have hother : ∀ r' ∈ q.pending, r'.txn ≠ r.txn := fun r' hr' e =>
      absurd (isBusy_iff.2 ⟨r', hr', e⟩) (by simp [hidle])
    have hmem : ∀ r', r' ∈ q.pending ++ [r] ↔ r' ∈ q.pending ∧ r'.txn ≠ r.txn ∨ r' = r := by
      intro r'
      rw [List.mem_append, List.mem_singleton]
      exact or_congr_left ⟨fun hr' => ⟨hr', hother r' hr'⟩, And.left⟩
    let q' : LockQueue := ⟨q.table.startWaiting r.txn r.page r.mode, q.pending ++ [r]⟩
    have hhead : q'.WaitsFor r.txn b := ⟨r, (hmem r).2 (.inr rfl), rfl, hb⟩
    have hrest : ReflTransGen q'.WaitsFor b r.txn := by
      refine ReflTransGen.mono ?_ _ _ hp
      rintro x y ⟨r', hr', hx, hy⟩
      exact ⟨r', List.mem_append_left _ hr', hx, hy⟩
    exact h.cycle_registered hmem (.head' hhead hrest)

/-! ## Answers -/

/-- How a new request is answered, and what a refusal leaves as it was. -/
structure Answers (q : LockQueue) (r : LockRequest) : Prop where
  granted_iff : (q.request r).1 = .granted ↔ ∀ b, ¬ LockMap.Blocks q.table.mode? b r.txn r.page r.mode
  refused_iff : (q.request r).1 = .refused ↔ ∃ b, LockMap.Blocks q.table.mode? b r.txn r.page r.mode ∧
    ReflTransGen (LockMap.WaitsFor q.table.mode? q.pending) b r.txn
  waits_iff : (q.request r).1 = .waits ↔ (∃ b, LockMap.Blocks q.table.mode? b r.txn r.page r.mode) ∧
    ∀ b, LockMap.Blocks q.table.mode? b r.txn r.page r.mode →
      ¬ ReflTransGen (LockMap.WaitsFor q.table.mode? q.pending) b r.txn
  /-- A refusal changes no lock and no request of anybody. -/
  harmless : (q.request r).1 = .refused →
    (q.request r).2.table.mode? = q.table.mode? ∧ (q.request r).2.pending = q.pending ∧
      ∀ txn : TxnId, (q.request r).2.table.waiting[txn]? = q.table.waiting[txn]?
  /-- Nor is the transaction that was refused counted as waiting. -/
  idle : (q.request r).1 = .refused → (q.request r).2.isBusy r.txn = false ∧
    (q.request r).2.table.waiting[r.txn]? = none ∧
      (q.request r).2.table.waitingCount = q.table.waitingCount

theorem Sound.answers (h : q.Sound) (hidle : q.isBusy r.txn = false) : q.Answers r := by
  have hgranted : (q.request r).1 = .granted ↔ ∀ b, ¬ LockMap.Blocks q.table.mode? b r.txn r.page r.mode :=
    (LockTable.acquire_granted_iff h.table).trans LockTable.admits_iff_not_blocks
  have hcycle : TransGen (q.table.startWaiting r.txn r.page r.mode).waitGraph.Edge r.txn r.txn ↔
      ∃ b, LockMap.Blocks q.table.mode? b r.txn r.page r.mode ∧
        ReflTransGen (LockMap.WaitsFor q.table.mode? q.pending) b r.txn := by
    have hrel : q.WaitsFor = LockMap.WaitsFor q.table.mode? q.pending := by
      funext a b
      exact propext h.waitsFor_iff
    rw [h.cycle_iff hidle, hrel]
    simp only [LockQueue.blockers, LockTable.mem_blockers_iff_blocks h.table]
  have hrefused : (q.request r).1 = .refused ↔ ∃ b, LockMap.Blocks q.table.mode? b r.txn r.page r.mode ∧
      ReflTransGen (LockMap.WaitsFor q.table.mode? q.pending) b r.txn := by
    refine LockTable.acquire_refused_iff.trans ?_
    rw [hcycle, and_iff_right_iff_imp]
    rintro ⟨b, hb, -⟩ hg
    exact hgranted.1 hg b hb
  have hkept : (q.request r).1 = .refused →
      (q.request r).2.pending = q.pending ∧ ∀ txn : TxnId,
        (q.request r).2.table.waiting[txn]? = q.table.waiting[txn]? := by
    intro ha
    have ha : (q.table.acquire r.txn r.page r.mode).1 = .refused := ha
    refine ⟨by simp [LockQueue.request, ha], fun txn => ?_⟩
    show (q.table.acquire r.txn r.page r.mode).2.waiting[txn]? = _
    rw [LockTable.waiting_acquire, ha]
    split
    · rename_i e
      rw [e, h.waiting_eq_none hidle]
      rfl
    · rfl
  refine ⟨hgranted, hrefused, ?_, fun ha => ⟨?_, hkept ha⟩, fun ha => ⟨?_, ?_, ?_⟩⟩
  · constructor
    · intro ha
      refine ⟨?_, fun b hb hp => ?_⟩
      · by_contra hn
        exact absurd (hgranted.2 fun b hb => hn ⟨b, hb⟩) (by simp [ha])
      · exact absurd (hrefused.2 ⟨b, hb, hp⟩) (by simp [ha])
    · rintro ⟨⟨b, hb⟩, hno⟩
      cases ha : (q.request r).1 with
      | granted => exact absurd hb (hgranted.1 ha b)
      | waits => rfl
      | refused =>
        obtain ⟨b', hb', hp⟩ := hrefused.1 ha
        exact absurd hp (hno b' hb')
  · funext txn page
    have ha : (q.table.acquire r.txn r.page r.mode).1 = .refused := ha
    exact LockTable.mode?_acquire_of_ne_granted (by simp [ha]) txn page
  · rw [LockQueue.isBusy, (hkept ha).1]
    exact hidle
  · rw [(hkept ha).2, h.waiting_eq_none hidle]
  · exact LockTable.waitingCount_acquire_refused ha (h.waiting_eq_none hidle)

/-- After any operations, with requests made again in any order, the request of a transaction that has none is refused
exactly if it would wait for itself. -/
theorem run_answers (ops : List Op) (r : LockRequest) (hidle : (run {} ops).isBusy r.txn = false) :
    (run {} ops).Answers r :=
  (sound_empty.run ops).answers hidle

/-- Two transactions read a page, and the first asks to write it. -/
def upgrading : List Op :=
  [.request ⟨0, ⟨1⟩, ⟨⟨0⟩, 0⟩, .read⟩, .request ⟨1, ⟨2⟩, ⟨⟨0⟩, 0⟩, .read⟩, .request ⟨2, ⟨1⟩, ⟨⟨0⟩, 0⟩, .write⟩]

/-- Then the second is refused, and a third one is not. -/
theorem run_answers_upgrading :
    (run {} upgrading).isBusy ⟨2⟩ = false ∧
      (run {} upgrading).Answers ⟨3, ⟨2⟩, ⟨⟨0⟩, 0⟩, .write⟩ ∧
      ((run {} upgrading).request ⟨3, ⟨2⟩, ⟨⟨0⟩, 0⟩, .write⟩).1 = .refused ∧
      ((run {} upgrading).request ⟨3, ⟨3⟩, ⟨⟨0⟩, 0⟩, .write⟩).1 = .waits := by
  have hidle : (run {} upgrading).isBusy ⟨2⟩ = false := by decide +kernel
  exact ⟨hidle, run_answers upgrading ⟨3, ⟨2⟩, ⟨⟨0⟩, 0⟩, .write⟩ hidle, by decide +kernel, by decide +kernel⟩

end LockQueue

end TupleStore
