import TupleStore.Pool.Completion
import TupleStore.Proofs.Pool.Standing

/-!
# Transactions that begin to end, go on, and are gone

One transaction at a time works on its pages, while all others stay as they are.

* `Standing.enlist` : a transaction begins to end. All of its pages that are cached are pinned;
* `Parted.restage`, `Parted.takeUp`, `Standing.follow` : it goes on to another stage, and a page with it;
* `Standing.letGo` : its pages are unpinned;
* `Standing.conclude` : its end is put into the trace. From then on it has no page open;
* `Standing.unlock` : it gives its locks up, and is gone.
-/

namespace TupleStore

set_option autoImplicit false

open TupleStore.Action

variable {s₀ s : Store} {uses pins : List Use} {ok : PageId → Copies → Account → Prop} {f : FrameId} {page : PageId}
  {t : TxnId} {e : Ending} {others : List Ending} {mode? : TxnId → PageId → Option LockMode} {x x' : Copies}
  {a a' : Account} {stage : EndingStage} {commits : Bool}

/-! ## Pinned pages -/

theorem mem_cachedOf {p : Pool} {pages : List PageId} {e : PageId × FrameId} :
    e ∈ cachedOf p pages ↔ e.1 ∈ pages ∧ p.find? e.1 = some e.2 := by
  obtain ⟨page, f⟩ := e
  unfold cachedOf
  rw [List.mem_filterMap]
  constructor
  · rintro ⟨q, hq, he⟩
    obtain ⟨g, hg, he⟩ := Option.map_eq_some_iff.1 he
    cases he
    exact ⟨hq, hg⟩
  · rintro ⟨hp, hf⟩
    exact ⟨page, hp, by rw [hf]; rfl⟩

theorem Invariant.pinAll (pinned : List (PageId × FrameId)) {uses : List Use} {s : Store}
    (h : Invariant s₀ uses ok s) (hp : ∀ e ∈ pinned, (s.pool.frame e.2).page = some e.1) :
    Invariant s₀ (pinsOf pinned ++ uses) ok
      (s.modifyPool fun p => pinned.foldl (fun p (_, f) => p.pin f) p) := by
  induction pinned generalizing uses s with
  | nil => exact h
  | cons e rest ih =>
    have h₁ := h.pin (u := ⟨e.2, e.1, none, false⟩) (hp e (List.mem_cons_self ..)) fun _ _ he => by cases he
    refine (ih h₁ fun e' he' => ?_).perm List.perm_middle
    refine Eq.trans ?_ (hp e' (List.mem_cons_of_mem _ he'))
    exact Pool.modifyFrame_keeps s.pool e.2 e'.2 Frame.page fun _ => rfl

theorem Invariant.unpinAll (pinned : List (PageId × FrameId)) {uses : List Use} {s : Store}
    (h : Invariant s₀ (pinsOf pinned ++ uses) ok s) :
    Invariant s₀ uses ok (s.modifyPool fun p => pinned.foldl (fun p (_, f) => p.unpin f) p) := by
  induction pinned generalizing s with
  | nil => exact h
  | cons e rest ih => exact ih (Invariant.unpin (u := ⟨e.2, e.1, none, false⟩) h nofun)

namespace Standing

/-- Nobody works on a page that a transaction without uses has locked to write. -/
theorem idle (h : Standing others s₀ uses s) (haway : ∀ u ∈ uses, ∀ m, u.holder ≠ some (t, m))
    (hm : s.mode? t page = some .write) (v : TxnId) : ¬WorksOn uses page v := by
  rintro ⟨u, hu, rfl, -, hv⟩
  have hne := (h.mode_of_use hu hv).ne_none
  rw [h.locks.eq_of_write hm hne] at hv
  exact haway u hu .write hv

/-- A cached page that a transaction has opened is among those that it locked. -/
theorem mem_pinned (h : Standing others s₀ uses s) (ho : (account s₀.onFile s.trace page).opener = some t)
    (hc : (s.copies page).cached ≠ none) : ∃ f, (page, f) ∈ cachedOf s.pool (s.pool.locks.lockedBy t) := by
  obtain ⟨c, hc⟩ := Option.ne_none_iff_exists'.1 hc
  obtain ⟨f, hf, -⟩ := Option.map_eq_some_iff.1 hc
  refine ⟨f, mem_cachedOf.2 ⟨?_, hf⟩⟩
  rw [LockTable.mem_lockedBy h.locks, show s.pool.locks.mode? t page = _ from (h.pages page).locked ho]
  exact Option.some_ne_none _

/-- A transaction that has nothing in use begins to end. Its pages are as it has left them. -/
theorem enlist (h : Standing others s₀ uses s) (haway : ∀ u ∈ uses, ∀ m, u.holder ≠ some (e.txn, m))
    (hne : ∀ o ∈ others, o.txn ≠ e.txn) (hpinned : e.pinned = cachedOf s.pool (s.pool.locks.lockedBy e.txn))
    (hproper : e.Proper s₀) (howed : e.owed = [])
    (hhas : ∀ page x a, x.Owned e.txn a → (x.cached ≠ none → ∃ f, (page, f) ∈ e.pinned) → e.Has page x a) :
    Standing (e :: others) s₀ uses (s.modifyPool fun p => e.pinned.foldl (fun p (_, f) => p.pin f) p) := by
  have hpages : Invariant s₀ (uses ++ others.flatMap Ending.pins) (Parted (e :: others) s.mode? uses) s := by
    refine h.toInvariant.mono fun page hp => ⟨fun o ho hoa => ?_, fun o ho b hb => ?_, fun hfree => ?_⟩
    · rcases List.mem_cons.1 ho with rfl | ho
      · have hlocked := hp.locked hoa
        have hagree := hp.others fun o' ho' hoa' => hne o' ho' (Option.some.inj (hoa'.symm.trans hoa))
        refine ⟨hlocked, hhas page _ _ (hagree.owned (h.idle haway hlocked) hoa) fun hc => ?_⟩
        rw [hpinned]
        exact h.mem_pinned hoa hc
      · exact hp.ended o ho hoa
    · rcases List.mem_cons.1 ho with rfl | ho
      · rw [howed] at hb
        exact (List.not_mem_nil hb).elim
      · exact hp.owed o ho b hb
    · exact hp.others fun o ho => hfree o (List.mem_cons_of_mem _ ho)
  have hcached : ∀ x ∈ e.pinned, s.mode? e.txn x.1 ≠ none ∧ (s.pool.frame x.2).page = some x.1 := fun x hx => by
    rw [hpinned] at hx
    obtain ⟨hl, hf⟩ := mem_cachedOf.1 hx
    exact ⟨(LockTable.mem_lockedBy h.locks).1 hl, (h.pool.mapped _ _).1 hf⟩
  have hmode : (s.modifyPool fun p => e.pinned.foldl (fun p (_, f) => p.pin f) p).mode? = s.mode? :=
    Store.mode?_congr (Pool.locks_pinAll e.pinned s.pool)
  refine ⟨?_, fun o ho => ?_, fun o ho => ?_, fun o ho => ?_, ?_⟩
  · rw [hmode]
    exact (hpages.pinAll e.pinned fun x hx => (hcached x hx).2).perm (List.perm_append_comm_assoc ..)
  · rcases List.mem_cons.1 ho with rfl | ho
    · exact haway
    · exact h.away o ho
  · rcases List.mem_cons.1 ho with rfl | ho
    · exact hproper
    · exact h.proper o ho
  · rw [hmode]
    rcases List.mem_cons.1 ho with rfl | ho
    · exact fun x hx => (hcached x hx).1
    · exact h.held o ho
  · refine List.nodup_cons.2 ⟨fun hin => ?_, h.distinct⟩
    obtain ⟨o, ho, hoe⟩ := List.mem_map.1 hin
    exact hne o ho hoe

/-- The other transactions that end are others. -/
theorem txn_ne (h : Standing (e :: others) s₀ uses s) : ∀ o ∈ others, o.txn ≠ e.txn := fun _ ho hoe =>
  (List.nodup_cons.1 h.distinct).1 (hoe ▸ List.mem_map_of_mem ho)

end Standing

/-! ## Transactions that go on -/

namespace Parted

/-- A page when one of the transactions that end goes on, and does nothing to it. -/
theorem restage {e' : Ending} (h : Parted (e :: others) mode? uses page x a) (htxn : e'.txn = e.txn)
    (howed : ∀ b, (page, b) ∈ e'.owed → (page, b) ∈ e.owed)
    (hhas : a.opener = some e.txn → e.Has page x a → e'.Has page x a) : Parted (e' :: others) mode? uses page x a := by
  refine ⟨fun o ho hoa => ?_, fun o ho b hb => ?_, fun hfree => h.others fun o ho => ?_⟩
  · rcases List.mem_cons.1 ho with rfl | ho
    · rw [htxn] at hoa ⊢
      obtain ⟨hm, hp⟩ := h.ended e (List.mem_cons_self ..) hoa
      exact ⟨hm, hhas hoa hp⟩
    · exact h.ended o (List.mem_cons_of_mem _ ho) hoa
  · rcases List.mem_cons.1 ho with rfl | ho
    · rw [htxn]
      exact h.owed e (List.mem_cons_self ..) b (howed b hb)
    · exact h.owed o (List.mem_cons_of_mem _ ho) b hb
  · rcases List.mem_cons.1 ho with rfl | ho
    · rw [← htxn]
      exact hfree e' (List.mem_cons_self ..)
    · exact hfree o (List.mem_cons_of_mem _ ho)

/-- A page on which one of the transactions that end works, as it has it open. -/
theorem takeUp {e' : Ending} (h : Parted (e :: others) mode? uses page x a) (hne : ∀ o ∈ others, o.txn ≠ e.txn)
    (ho : a.opener = some e.txn) (htxn : e'.txn = e.txn) (howed : ∀ b, (page, b) ∈ e'.owed → b.bytes = a'.committed)
    (hopener : a'.opener = a.opener) (hhas : e'.Has page x' a') :
    Parted (e' :: others) mode? uses page x' a' := by
  have hm := (h.ended e (List.mem_cons_self ..) ho).1
  rw [← hopener] at ho
  have hother : ∀ o ∈ others, a.opener ≠ some o.txn := fun o hin hoa =>
    hne o hin (Option.some.inj (hoa.symm.trans (hopener.symm.trans ho)))
  refine ⟨fun o hin hoa => ?_, fun o hin b hb => ?_, fun hfree => ?_⟩
  · rcases List.mem_cons.1 hin with rfl | hin
    · rw [htxn]
      exact ⟨hm, hhas⟩
    · exact absurd (hopener.symm.trans hoa) (hother o hin)
  · rcases List.mem_cons.1 hin with rfl | hin
    · rw [htxn]
      exact ⟨ho, howed b hb⟩
    · exact absurd (h.owed o (List.mem_cons_of_mem _ hin) b hb).1 (hother o hin)
  · exact absurd (htxn ▸ ho) (hfree e' (List.mem_cons_self ..))

/-- A page when the end of a transaction is put into the trace. If the transaction had it open, it agrees with its
account again. -/
theorem conclude (h : Parted (e :: others) mode? uses page x a) (hne : ∀ o ∈ others, o.txn ≠ e.txn)
    (hdone : a.opener = some e.txn → mode? e.txn page = some .write → e.Has page x a →
      Agree mode? uses page x' (a.complete e.txn commits))
    (hsame : a.opener ≠ some e.txn → x' = x) :
    Parted (e.letGo .unlocking :: others) mode? uses page x' (a.complete e.txn commits) := by
  by_cases ho : a.opener = some e.txn
  · obtain ⟨hm, hp⟩ := h.ended e (List.mem_cons_self ..) ho
    have hopener : (a.complete e.txn commits).opener = none := by rw [Account.complete, if_pos ho]
    refine ⟨fun o _ hoa => ?_, fun o hin b hb => ?_, fun _ => hdone ho hm hp⟩
    · rw [hopener] at hoa
      cases hoa
    · rcases List.mem_cons.1 hin with rfl | hin
      · exact (List.not_mem_nil hb).elim
      · have hoa := (h.owed o (List.mem_cons_of_mem _ hin) b hb).1
        exact absurd (Option.some.inj (hoa.symm.trans ho)) (hne o hin)
  · rw [hsame ho, Account.complete_of_ne ho (Classical.byContradiction fun hown => ho (h.own hown))]
    exact h.restage rfl (fun b hb => (List.not_mem_nil hb).elim) fun hoa => absurd hoa ho

end Parted

namespace Standing

/-- One of the transactions that end is at another stage, and has no more pinned than it had. -/
theorem follow {e' : Ending} {s' : Store} (h : Standing (e :: others) s₀ uses s) (htxn : e'.txn = e.txn)
    (hproper : e'.Proper s₀) (hpinned : ∀ x ∈ e'.pinned, x ∈ e.pinned)
    (h' : Invariant s₀ (uses ++ (e' :: others).flatMap Ending.pins) (Parted (e' :: others) s.mode? uses) s')
    (hmode : s'.mode? = s.mode?) : Standing (e' :: others) s₀ uses s' := by
  refine ⟨hmode ▸ h', fun o ho => ?_, fun o ho => ?_, fun o ho => ?_, ?_⟩
  · rcases List.mem_cons.1 ho with rfl | ho
    · exact htxn ▸ h.away e (List.mem_cons_self ..)
    · exact h.away o (List.mem_cons_of_mem _ ho)
  · rcases List.mem_cons.1 ho with rfl | ho
    · exact hproper
    · exact h.proper o (List.mem_cons_of_mem _ ho)
  · rw [hmode]
    rcases List.mem_cons.1 ho with rfl | ho
    · exact fun x hx => htxn ▸ h.held e (List.mem_cons_self ..) x (hpinned x hx)
    · exact h.held o (List.mem_cons_of_mem _ ho)
  · rw [List.map_cons, htxn]
    exact h.distinct

/-- One of the transactions that end goes on. -/
theorem goOn {s' : Store} (h : Standing (e :: others) s₀ uses s) (hproper : (e.goto stage).Proper s₀)
    (h' : Invariant s₀ (uses ++ (e :: others).flatMap Ending.pins) (Parted (e.goto stage :: others) s.mode? uses) s')
    (hmode : s'.mode? = s.mode?) : Standing (e.goto stage :: others) s₀ uses s' :=
  h.follow rfl hproper (fun _ hx => hx) h' hmode

/-- One of the transactions that end goes on, and does nothing to any page. -/
theorem restage (h : Standing (e :: others) s₀ uses s) (stage : EndingStage) (hproper : (e.goto stage).Proper s₀)
    (howed : ∀ y ∈ (e.goto stage).owed, y ∈ e.owed)
    (hhas : ∀ page, (account s₀.onFile s.trace page).opener = some e.txn →
      e.Has page (s.copies page) (account s₀.onFile s.trace page) →
      (e.goto stage).Has page (s.copies page) (account s₀.onFile s.trace page)) :
    Standing (e.goto stage :: others) s₀ uses s :=
  h.goOn hproper (h.toInvariant.mono fun page hp => hp.restage rfl (fun b => howed (page, b)) (hhas page)) rfl

/-- The pages of a transaction that ends are unpinned. -/
theorem letGo (h : Standing (e :: others) s₀ uses s) (stage : EndingStage) (hproper : (e.letGo stage).Proper s₀)
    (howed : ∀ y ∈ (e.letGo stage).owed, y ∈ e.owed) (hhas : ∀ page x a, e.Has page x a → (e.letGo stage).Has page x a) :
    Standing (e.letGo stage :: others) s₀ uses (e.unpinAll s) := by
  have hmode : (e.unpinAll s).mode? = s.mode? := Store.mode?_congr (Pool.locks_unpinAll e.pinned s.pool)
  have h₁ := (h.toInvariant.perm (List.perm_append_comm_assoc uses e.pins _)).unpinAll e.pinned
  refine h.follow rfl hproper (fun _ hx => (List.not_mem_nil hx).elim) (h₁.mono fun page hp => ?_) hmode
  exact hp.restage rfl (fun b => howed (page, b)) fun _ => hhas page _ _

/-! ## Transactions that have ended -/

/-- The end of a transaction put into the trace, once every page is as it is to be afterwards. -/
theorem conclude (s' : Store) (h : Standing (e :: others) s₀ uses s) (hpinned : e.pinned = [])
    (h' : Invariant s₀ (uses ++ (e :: others).flatMap Ending.pins)
      (fun page x a => Parted (e.letGo .unlocking :: others) s.mode? uses page x (a.complete e.txn commits)) s')
    (hmode : s'.mode? = s.mode?) (hlaw : Effect.Lawful s₀.onFile s'.trace (.completed e.txn commits)) :
    Standing (e.letGo .unlocking :: others) s₀ uses { s' with trace := .completed e.txn commits :: s'.trace } := by
  have hpins : (e :: others).flatMap Ending.pins = (e.letGo .unlocking :: others).flatMap Ending.pins := by
    rw [List.flatMap_cons, List.flatMap_cons, Ending.pins, hpinned]
    rfl
  rw [hpins] at h'
  have h₁ := h'.note s'.log hlaw (fun _ _ ht => Or.inl ht.2) (fun _ hp => hp) fun _ _ hu => Or.inl hu.2
  exact h.follow rfl (rfl : (e.letGo .unlocking).Proper s₀) (fun _ hx => (List.not_mem_nil hx).elim) h₁ hmode

/-- A transaction that has ended gives its locks up. It has seen and changed nothing since. -/
theorem unlock (h : Standing (e.letGo .unlocking :: others) s₀ uses s)
    (htouched : ∀ page, ¬Touched e.txn page s.trace)
    (hforced : ForcedSince e.txn (.commit e.txn) s.trace ∨ ForcedSince e.txn (.abort e.txn) s.trace) :
    Standing others s₀ uses (Action.unlock e.txn s) := by
  have hmode : ∀ u, u ≠ e.txn → ∀ q, (s.pool.locks.releaseAll e.txn).mode? u q = s.mode? u q := fun u hu q => by
    rw [LockTable.mode?_releaseAll h.locks, if_neg hu]
    rfl
  have hgone : (e.letGo .unlocking :: others).flatMap Ending.pins = others.flatMap Ending.pins := rfl
  have hopener : ∀ q, (account s₀.onFile s.trace q).opener ≠ some e.txn := fun q ho =>
    ((h.pages q).ended _ (List.mem_cons_self ..) ho).2
  have hinv := h.toInvariant
  rw [hgone] at hinv
  have h₁ : Invariant s₀ (uses ++ others.flatMap Ending.pins) (Parted others (Action.unlock e.txn s).mode? uses)
      (s.modifyPool fun p => { p with locks := p.locks.releaseAll e.txn }) := by
    refine (hinv.relock rfl (h.locks.releaseAll e.txn) (fun u hu v m hv => ?_) fun v q hv => ?_).mono fun q hq => ?_
    · have hne : v ≠ e.txn := by
        rintro rfl
        rcases List.mem_append.1 hu with hu | hu
        · exact h.away _ (List.mem_cons_self ..) u hu m hv
        · obtain ⟨o, -, hu⟩ := List.mem_flatMap.1 hu
          obtain ⟨y, -, rfl⟩ := List.mem_map.1 hu
          cases hv
      rw [hmode v hne]
      exact hinv.covered u hu v m hv
    · have hne : v ≠ e.txn := by
        rintro rfl
        exact htouched q hv
      rw [hmode v hne]
      exact h.touched v q hv
    · have hq' : Parted others s.mode? uses q _ _ :=
        ⟨fun o ho => hq.ended o (List.mem_cons_of_mem _ ho), fun o ho => hq.owed o (List.mem_cons_of_mem _ ho),
          fun hfree => hq.others fun o ho => by
            rcases List.mem_cons.1 ho with rfl | ho
            · exact hopener q
            · exact hfree o ho⟩
      refine hq'.relock fun v ho hv => ?_
      have hne : v ≠ e.txn := by
        rintro rfl
        exact hopener q ho
      exact (hmode v hne q).trans hv
  have h₂ := Invariant.congr (p := { s.pool.signal with locks := s.pool.locks.releaseAll e.txn }) h₁ rfl rfl rfl rfl
    rfl rfl rfl rfl
  refine ⟨h₂.note s.log hforced (fun _ _ hv => Or.inl hv) fun _ hq => hq,
    fun o ho => h.away o (List.mem_cons_of_mem _ ho), fun o ho => h.proper o (List.mem_cons_of_mem _ ho),
    fun o ho y hy => ?_, (List.nodup_cons.1 h.distinct).2⟩
  have hheld := h.held o (List.mem_cons_of_mem _ ho) y hy
  rwa [← hmode o.txn (h.txn_ne o ho) y.1] at hheld

end Standing

end TupleStore
