import TupleStore.Pool.Request
import TupleStore.Proofs.Pool.Fetching

/-!
# Requests and guards

The invariant is kept by a request for a page on its way, and by what is done through a guard.

* `Guard.use`, `Request.uses` : the uses that stand behind a guard and a request;
* `Standing.bytes_eq_view` : a page that is used has the bytes that its user is to see;
* `Standing.look`, `Standing.beginChange`, `Standing.setBytes`, `Standing.release` : work through a guard;
* `Standing.lock` : the lock of a page asked for, and the page fetched.
-/

namespace TupleStore

set_option autoImplicit false

open TupleStore.Action

/-! ## Uses -/

/-- The use behind a guard. -/
def Guard.use (g : Guard) : Use := ⟨g.frame, g.page, some (g.txn, g.mode), g.changed⟩

/-- The uses behind a request: none before its page is fetched. -/
def Request.uses (r : Request) : List Use :=
  match r.stage with
  | .fresh => []
  | .locking _ => []
  | .fetched f => [⟨f, r.page, some (r.txn, r.mode), false⟩]
  | .entered f => [⟨f, r.page, some (r.txn, r.mode), false⟩]

/-- A guard that a request was made for, not yet used for anything. -/
structure Guard.Answers (g : Guard) (r : Request) : Prop where
  page : g.page = r.page
  txn : g.txn = r.txn
  mode : g.mode = r.mode
  unchanged : g.changed = false

variable {s₀ s : Store} {uses : List Use} {endings : List Ending}

/-! ## Locks -/

namespace LockTable

variable {locks : LockTable} {t u : TxnId} {page q : PageId} {mode m : LockMode}

/-- A request takes no lock away. -/
theorem covered_acquire (hc : Covered (locks.mode? u q) m) :
    Covered ((locks.acquire t page mode).2.mode? u q) m := by
  by_cases hg : (locks.acquire t page mode).1 = .granted
  · rw [mode?_acquire_granted hg]
    split
    · rename_i e
      obtain ⟨rfl, rfl⟩ := e
      obtain ⟨held, hheld, hm⟩ := hc
      unfold LockMode.raise
      rw [hheld]
      split
      · exact covered_of_write rfl m
      · rename_i hr
        cases held with
        | read =>
          cases m with
          | read => cases mode <;> exact ⟨_, rfl, rfl⟩
          | write => cases hm
        | write => exact absurd rfl hr
    · exact hc
  · rw [mode?_acquire_of_ne_granted hg]
    exact hc

/-- A request that is granted has its lock. -/
theorem covered_of_granted (hg : (locks.acquire t page mode).1 = .granted) :
    Covered ((locks.acquire t page mode).2.mode? t page) mode := by
  rw [mode?_acquire_granted hg, if_pos ⟨rfl, rfl⟩]
  unfold LockMode.raise
  split
  · exact covered_of_write rfl mode
  · refine ⟨mode, rfl, ?_⟩
    cases mode <;> rfl

end LockTable

theorem covered_of_ne_none {held : Option LockMode} (h : held ≠ none) : Covered held .read := by
  obtain ⟨m, hm⟩ := Option.ne_none_iff_exists'.1 h
  refine ⟨m, hm, ?_⟩
  cases m <;> rfl

theorem Standing.acquire (h : Standing endings s₀ uses s) (t : TxnId) (page : PageId) (mode : LockMode) :
    Standing endings s₀ uses (s.modifyPool fun p => { p with locks := (s.pool.locks.acquire t page mode).2 }) := by
  have h' := h.toInvariant.relock (p := { s.pool with locks := (s.pool.locks.acquire t page mode).2 }) rfl
    (h.locks.acquire t page mode)
    (fun u hu v m e => LockTable.covered_acquire (h.covered u hu v m e))
    fun v q ht => (LockTable.covered_acquire (covered_of_ne_none (h.touched v q ht))).ne_none
  refine ⟨h'.mono fun q hq => hq.relock fun v _ hv => ?_, h.away, h.proper, fun e he x hx => ?_, h.distinct⟩
  · exact (LockTable.covered_acquire (covered_of_write hv .write)).write
  · exact (LockTable.covered_acquire (covered_of_ne_none (h.held e he x hx))).ne_none

/-! ## Guards -/

/-- What a frame is once it has a before-image: the same, with one. -/
structure Frame.Captured (x x' : Frame) : Prop where
  page : x'.page = x.page
  pins : x'.pins = x.pins
  bytes : x'.bytes = x.bytes
  dirtyBy : x'.dirtyBy = x.dirtyBy
  before : x'.before ≠ none

theorem Frame.capture_captured (x : Frame) (t : TxnId) : x.Captured (x.capture t) := by
  unfold capture
  split
  · rename_i b hb
    refine ⟨rfl, rfl, rfl, rfl, fun hn => ?_⟩
    unfold beforeOf? at hb
    rw [hn] at hb
    cases hb
  · exact ⟨rfl, rfl, rfl, rfl, Option.some_ne_none _⟩

theorem Copy.Fits.capture {x : Frame} {size : Nat} {t : TxnId} (h : x.copy.Fits size) :
    (x.capture t).copy.Fits size := by
  unfold Frame.capture
  split
  · exact h
  · refine ⟨h.1, fun b hb => ?_⟩
    cases hb
    exact h.1

/-- With a guard that its transaction begins to change a page through, it works on one page more. -/
theorem Guard.worksOn_changed (g : Guard) (hc : g.changed = false) (hm : g.mode = .write) (rest : List Use) (page : PageId)
    (t : TxnId) :
    WorksOn (Guard.use { g with changed := true } :: rest) page t ↔
      (page = g.page ∧ t = g.txn) ∨ WorksOn (g.use :: rest) page t := by
  rw [worksOn_cons, worksOn_cons_of_unchanged (u := g.use) hc]
  refine or_congr ⟨fun hh => ?_, fun hh => ?_⟩ Iff.rfl
  · obtain ⟨rfl, -, he⟩ := hh
    exact ⟨rfl, (congrArg Prod.fst (Option.some.inj he)).symm⟩
  · obtain ⟨rfl, rfl⟩ := hh
    exact ⟨rfl, rfl, by rw [← hm]; rfl⟩

theorem Invariant.changed {g : Guard} {ok : PageId → Copies → Account → Prop} (h : Invariant s₀ (g.use :: uses) ok s)
    (hc : g.changed = false) (hm : g.mode = .write) :
    Invariant s₀ (Guard.use { g with changed := true } :: uses) ok s :=
  { h with
    pool := h.pool.replace rfl rfl
    covered := fun v hv => by
      rcases List.mem_cons.1 hv with rfl | hv
      · exact h.covered g.use (List.mem_cons_self ..)
      · exact h.covered v (List.mem_cons_of_mem _ hv)
    unlogged := fun t q hu =>
      (h.unlogged t q hu).mono fun hw => Or.inl (hw.imp fun v hv => (g.worksOn_changed hc hm _ q v).2 (Or.inr hv)) }

namespace Standing

variable {u : Use} {g : Guard} {t : TxnId} {m : LockMode} {page : PageId}

/-- A page that is used has the bytes that its user is to see. -/
theorem bytes_eq_view (h : Standing endings s₀ uses s) (hu : u ∈ uses) (ht : u.holder = some (t, m)) :
    (s.pool.frame u.frame).bytes = (account s₀.onFile s.trace u.page).view t := by
  have hp := h.agree_of_use hu ht
  have hcontent := hp.content _ (Store.cached_eq h.pool.mapped (h.pool.used u (List.mem_append_left _ hu)))
  refine hcontent.trans (hp.current_eq_view fun v hv => ?_)
  exact (h.locks.eq_of_write hv (h.mode_of_use hu ht).ne_none).symm

theorem look (h : Standing endings s₀ uses s) (hg : g.use ∈ uses) :
    g.look.Ends s
      (fun bytes s' => Standing endings s₀ uses s' ∧ bytes = g.bytes s ∧
        s' = { s with trace := .saw g.txn g.page (g.bytes s) :: s.trace })
      fun _ _ => False := by
  unfold Guard.look
  rw [ends_bind, ends_get, ends_bind, ends_note, ends_pure]
  refine ⟨?_, rfl, rfl⟩
  refine h.same (h.toInvariant.note s.log (h.bytes_eq_view hg rfl) (fun v q hv => ?_) fun _ hq => hq) rfl
  rcases hv with ⟨rfl, rfl⟩ | hv
  · exact Or.inr (h.mode_of_use hg rfl).ne_none
  · exact Or.inl hv

/-- Who holds the lock to write may open the page. -/
theorem lawful_opened (h : Standing endings s₀ uses s) (hcov : Covered (s.mode? t page) .write) :
    Effect.Lawful s₀.onFile s.trace (.opened t page) := by
  cases ho : (account s₀.onFile s.trace page).opener with
  | none => exact Or.inl ho
  | some v =>
    have hv : v = t := (h.locks.eq_of_write ((h.pages page).locked ho) hcov.ne_none).symm
    exact Or.inr (hv ▸ ho)

/-- A change of the page of a guard, once the page agrees with its account again. -/
theorem onUse {s' : Store} (h : Standing endings s₀ (g.use :: uses) s) (g' : Guard) (htxn : g'.txn = g.txn)
    (hmode : s'.mode? = s.mode?)
    (h' : Invariant s₀ (g'.use :: uses ++ endings.flatMap Ending.pins)
      (Off g.page (Parted endings s.mode? (g.use :: uses))) s')
    (hworks : ∀ q, q ≠ g.page → ∀ t, WorksOn (g'.use :: uses) q t ↔ WorksOn (g.use :: uses) q t)
    (ho : (account s₀.onFile s'.trace g.page).opener = some g.txn)
    (ha : Agree s.mode? (g'.use :: uses) g.page (s'.copies g.page) (account s₀.onFile s'.trace g.page)) :
    Standing endings s₀ (g'.use :: uses) s' := by
  have hg : g.use ∈ g.use :: uses := List.mem_cons_self ..
  refine ⟨h'.mono fun q hq => ?_, fun e he u hu m hh => ?_, h.proper, hmode ▸ h.held, h.distinct⟩
  · rw [hmode]
    by_cases e : q = g.page
    · subst e
      refine (h.pages g.page).of_agree (h.free_of_use hg rfl) (fun e he hoe => ?_) ha
      exact h.txn_ne_of_use hg rfl e he (Option.some.inj (ho.symm.trans hoe)).symm
    · exact (hq e).rebusy (hworks q e)
  · rcases List.mem_cons.1 hu with rfl | hu
    · exact h.txn_ne_of_use hg rfl e he ((congrArg Prod.fst (Option.some.inj hh)).symm.trans htxn)
    · exact h.away e he u (List.mem_cons_of_mem _ hu) m hh

theorem beginChange (h : Standing endings s₀ (g.use :: uses) s) (hm : g.mode = .write) :
    g.beginChange.Ends s
      (fun g' s' => g' = { g with changed := true } ∧ Standing endings s₀ (g'.use :: uses) s' ∧ g'.bytes s' = g.bytes s)
      fun _ _ => False := by
  unfold Guard.beginChange
  cases hc : g.changed with
  | true =>
    have hg : { g with changed := true } = g := by rw [← hc]
    simp only [Bool.not_true, Bool.false_eq_true, if_false, ends_pure, hg]
    exact ⟨trivial, h, trivial⟩
  | false =>
    have hu : g.use ∈ g.use :: uses := List.mem_cons_self ..
    have hf : (s.pool.frame g.frame).page = some g.page := h.pool.used _ (List.mem_append_left _ hu)
    have hcached := Store.cached_eq h.pool.mapped hf
    have hcov : Covered (s.mode? g.txn g.page) .write := h.mode_of_use hu (by rw [← hm]; rfl)
    have hfits := ((h.fit g.page).cached _ hcached).2
    simp only [Bool.not_false, if_true, ends_bind, ends_modifyPool, ends_note, ends_pure]
    have hcapture := (s.pool.frame g.frame).capture_captured g.txn
    have h₁ := (h.off g.page).modifyFrame hf (c := fun x => x.capture g.txn)
      (fun x => (x.capture_captured g.txn).page) (fun x => (x.capture_captured g.txn).pins) hfits.capture
      (Or.inr ⟨fun _ => hcapture.before, fun hd => hcapture.dirtyBy ▸ hd⟩)
    have hself := Store.copies_modifyFrame h.pool.mapped hf fun x => x.capture g.txn
    -- the use changes with the account of its page: from now on the transaction works on it
    let g' : Guard := { g with changed := true }
    have hworks := g.worksOn_changed hc hm
    have h₂ : Invariant s₀ (g'.use :: uses ++ endings.flatMap Ending.pins)
        (Off g.page (Parted endings s.mode? (g.use :: uses))) _ := h₁.changed hc hm
    have h₃ : Invariant s₀ (g'.use :: uses ++ endings.flatMap Ending.pins)
        (Off g.page (Parted endings s.mode? (g.use :: uses))) _ :=
      h₂.note (e := .opened g.txn g.page) s.log (h.lawful_opened hcov) (fun _ _ ht => Or.inl ht) (fun q hq hne => by
        rw [show ∀ a : Account, a.record q (.opened g.txn g.page) = a from fun a => if_neg (Ne.symm hne)]
        exact hq hne) fun t q hu => by
          rcases hu with ⟨rfl, rfl⟩ | hu
          · refine Or.inr ?_
            rw [hself]
            exact ⟨_, rfl, hcapture.before, Or.inr ⟨_, (hworks _ _ _).2 (Or.inl ⟨rfl, rfl⟩)⟩⟩
          · exact Or.inl hu
    have ha : account s₀.onFile (.opened g.txn g.page :: s.trace) g.page =
        { account s₀.onFile s.trace g.page with opener := some g.txn } := if_pos rfl
    refine ⟨trivial, h.onUse g' rfl rfl h₃ (fun q hne t => ?_) ?_ ?_, ?_⟩
    · refine (hworks uses q t).trans ?_
      simp [hne]
    · exact congrArg Account.opener ha
    · show Agree s.mode? (g'.use :: uses) g.page _ (account s₀.onFile (_ :: s.trace) g.page)
      rw [ha]
      refine Eq.subst (motive := fun x => Agree s.mode? (g'.use :: uses) g.page x _) hself.symm ?_
      refine (h.agree_of_use hu rfl).openFor hcached hcov.write (fun v hv => ?_) ?_ fun v hv => ?_
      · exact (h.locks.eq_of_write hv hcov.ne_none).symm
      · exact (hworks _ _ _).2 (Or.inl ⟨rfl, rfl⟩)
      · exact ((hworks _ _ _).1 hv).imp And.right id
    · show ((s.pool.modifyFrame g.frame _).frame g.frame).bytes = _
      rw [Pool.frame_modifyFrame_self hf]
      exact hcapture.bytes

theorem setBytes (h : Standing endings s₀ (g.use :: uses) s) (hm : g.mode = .write) (hc : g.changed = true) {bytes : Bytes}
    (hl : bytes.length = (g.bytes s).length) :
    (g.setBytes bytes).Ends s
      (fun _ s' => Standing endings s₀ (g.use :: uses) s' ∧ g.bytes s' = bytes)
      fun _ _ => False := by
  have hu : g.use ∈ g.use :: uses := List.mem_cons_self ..
  have hf : (s.pool.frame g.frame).page = some g.page := h.pool.used _ (List.mem_append_left _ hu)
  have hcached := Store.cached_eq h.pool.mapped hf
  have hfits := ((h.fit g.page).cached _ hcached).2
  have hcov : Covered (s.mode? g.txn g.page) .write := h.mode_of_use hu (by rw [← hm]; rfl)
  have hworks : WorksOn (g.use :: uses) g.page g.txn := ⟨g.use, hu, rfl, hc, by rw [← hm]; rfl⟩
  unfold Guard.setBytes
  rw [ends_bind, ends_modifyPool, ends_note]
  have h₁ := (h.off g.page).modifyFrame hf (c := fun x => { x with bytes }) (fun _ => rfl) (fun _ => rfl)
    ⟨hl.trans hfits.1, hfits.2⟩ (Or.inr ⟨id, id⟩)
  have hself := Store.copies_modifyFrame h.pool.mapped hf fun x => { x with bytes }
  have hagree : Agree s.mode? (g.use :: uses) g.page (s.copies g.page) (account s₀.onFile s.trace g.page) :=
    h.agree_of_use hu rfl
  have ho := hagree.working _ hworks
  have hbefore : (s.pool.frame g.frame).before ≠ none := fun hn => by
    rw [hagree.opener, Copies.before, hcached] at ho
    obtain ⟨b, hb, -⟩ := Option.map_eq_some_iff.1 ho
    cases hb.symm.trans hn
  have h₂ : Invariant s₀ _ (Off g.page (Parted endings s.mode? (g.use :: uses))) _ :=
    h₁.note (e := .changed g.txn g.page bytes) s.log ho (fun v q hv => by
      rcases hv with ⟨rfl, rfl⟩ | hv
      · exact Or.inr hcov.ne_none
      · exact Or.inl hv) (fun q hq hne => by
      rw [show ∀ a : Account, a.record q (.changed g.txn g.page bytes) = a from fun a => if_neg (Ne.symm hne)]
      exact hq hne) fun v q hu => by
        rcases hu with ⟨rfl, rfl⟩ | hu
        · refine Or.inr ?_
          rw [hself]
          exact ⟨_, rfl, hbefore, Or.inr ⟨_, hworks.append _⟩⟩
        · exact Or.inl hu
  have ha : account s₀.onFile (.changed g.txn g.page bytes :: s.trace) g.page =
      (account s₀.onFile s.trace g.page).setOwn g.txn (some bytes) := if_pos rfl
  refine ⟨h.onUse g rfl rfl h₂ (fun _ _ _ => Iff.rfl) ?_ ?_, ?_⟩
  · exact (congrArg Account.opener ha).trans ho
  · show Agree s.mode? (g.use :: uses) g.page _ (account s₀.onFile (_ :: s.trace) g.page)
    rw [ha]
    refine Eq.subst (motive := fun x => Agree s.mode? (g.use :: uses) g.page x _) hself.symm ?_
    exact hagree.setBytes hcached hworks bytes
  · show ((s.pool.modifyFrame g.frame _).frame g.frame).bytes = bytes
    rw [Pool.frame_modifyFrame_self hf]

/-- A guard given back. The page of a guard that was opened for change is dirty from then on. -/
theorem release (h : Standing endings s₀ (g.use :: uses) s) (hm : g.changed = true → g.mode = .write) :
    Standing endings s₀ uses (s.modifyPool g.giveBack) ∧
      (g.changed = true → (account s₀.onFile s.trace g.page).opener = some g.txn) := by
  have hu : g.use ∈ g.use :: uses := List.mem_cons_self ..
  have hf : (s.pool.frame g.frame).page = some g.page := h.pool.used _ (List.mem_append_left _ hu)
  have hcached := Store.cached_eq h.pool.mapped hf
  have haway : ∀ e ∈ endings, ∀ u ∈ uses, ∀ m, u.holder ≠ some (e.txn, m) := fun e he u hu =>
    h.away e he u (List.mem_cons_of_mem _ hu)
  -- the pin and the latch show in no copy of a page
  have hleave : ∀ {s₁ : Store} {ok : PageId → Copies → Account → Prop},
      Invariant s₀ (g.use :: uses ++ endings.flatMap Ending.pins) ok s₁ →
      (g.changed = true → ∀ c, (s₁.copies g.page).cached = some c → c.dirtyBy ≠ none) →
      Invariant s₀ (uses ++ endings.flatMap Ending.pins) ok (s₁.modifyPool fun p => (p.unpin g.frame).leave g.frame g.mode) := fun h₁ hdirty =>
    have h₂ := h₁.unpin hdirty
    h₂.modifyFrame_of_copy (f := g.frame)
      (c := fun x => { x with latch := x.latch.leave g.mode })
      (h₂.pool.modifyFrame g.frame (fun _ => rfl) fun _ => rfl) (fun _ => rfl) h₂.covered fun _ _ hw => Or.inl hw
  cases hc : g.changed with
  | false =>
    refine ⟨?_, fun e => by cases e⟩
    have hgive : g.giveBack = fun p => (p.unpin g.frame).leave g.frame g.mode := by
      unfold Guard.giveBack
      simp [hc]
    rw [hgive]
    exact h.reuse (hleave h.toInvariant fun e => nomatch hc.symm.trans e) rfl haway fun page t =>
      (worksOn_cons_of_unchanged (u := g.use) hc uses page t).symm
  | true =>
    have hmode := hm hc
    have hworks : WorksOn (g.use :: uses) g.page g.txn := ⟨g.use, hu, rfl, hc, by rw [← hmode]; rfl⟩
    have hagree : Agree s.mode? (g.use :: uses) g.page (s.copies g.page) (account s₀.onFile s.trace g.page) :=
      h.agree_of_use hu rfl
    have ho := hagree.working _ hworks
    have hfree := h.free_of_use hu rfl
    refine ⟨?_, fun _ => ho⟩
    have hgive : g.giveBack = fun p =>
        ((p.modifyFrame g.frame fun x => { x with dirtyBy := some g.txn }).unpin g.frame).leave g.frame g.mode := by
      unfold Guard.giveBack
      simp [hc]
    have h₁ := (h.off g.page).modifyFrame hf (c := fun x => { x with dirtyBy := some g.txn }) (fun _ => rfl)
      (fun _ => rfl) ((h.fit g.page).cached _ hcached).2 (Or.inr ⟨id, fun _ => Option.some_ne_none _⟩)
    have hself := Store.copies_modifyFrame h.pool.mapped hf fun x => { x with dirtyBy := some g.txn }
    have h₂ : Invariant s₀ _ (Parted endings s.mode? uses) _ := h₁.mono fun q hq => by
      by_cases e : q = g.page
      · subst e
        rw [hself]
        refine (h.pages g.page).of_agree hfree hfree ?_
        exact hagree.markDirty hcached ho fun v hv => (worksOn_cons ..).2 (Or.inr hv)
      · refine (hq e).rebusy fun t => ?_
        rw [worksOn_cons]
        refine ⟨Or.inr, fun hh => hh.resolve_left fun hh => e ?_⟩
        exact hh.1.symm
    rw [hgive]
    refine ⟨hleave h₂ fun _ c hc => ?_, haway, h.proper, h.held, h.distinct⟩
    rw [hself] at hc
    cases hc
    exact Option.some_ne_none _

/-- The page of a transaction that has it open can be marked once more. -/
theorem markDirty (h : Standing endings s₀ uses s) {page : PageId} (ht : ∀ e ∈ endings, e.txn ≠ t)
    (ho : (account s₀.onFile s.trace page).opener = some t) :
    Standing endings s₀ uses (s.modifyPool fun p => p.markDirty page t) := by
  cases hp : s.pool.find? page with
  | none =>
    have hsame : (s.modifyPool fun p => p.markDirty page t) = s := by
      unfold Store.modifyPool Pool.markDirty
      simp only [hp]
    rw [hsame]
    exact h
  | some f =>
    have hf := (h.pool.mapped page f).1 hp
    have hcached := Store.cached_eq h.pool.mapped hf
    have hmark : (s.modifyPool fun p => p.markDirty page t) =
        s.modifyPool fun p => p.modifyFrame f fun x => { x with dirtyBy := some t } := by
      unfold Store.modifyPool Pool.markDirty
      simp only [hp]
    have h₁ := (h.off page).modifyFrame hf (c := fun x => { x with dirtyBy := some t }) (fun _ => rfl)
      (fun _ => rfl) ((h.fit page).cached _ hcached).2 (Or.inr ⟨id, fun _ => Option.some_ne_none _⟩)
    have hfree : ∀ e ∈ endings, (account s₀.onFile s.trace page).opener ≠ some e.txn := fun e he hoe =>
      ht e he (Option.some.inj (ho.symm.trans hoe)).symm
    rw [hmark]
    refine h.same (h₁.on ?_) rfl
    rw [Store.copies_modifyFrame h.pool.mapped hf]
    refine (h.pages page).of_agree hfree hfree ?_
    exact ((h.pages page).others hfree).markDirty hcached ho fun _ hv => hv

/-! ## Requests -/

/-- The lock of a page is asked for, and the page fetched once it is granted. A transaction that ends asks for none. -/
theorem lock {r : Request} (h : Standing endings s₀ uses s) (ht : ∀ e ∈ endings, e.txn ≠ r.txn) :
    r.lock.Ends s
      (fun p s' => match p with
        | .finished _ => False
        | .moved r' => (∃ stage, r' = r.goto stage) ∧ Standing endings s₀ (r'.uses ++ uses) s'
        | .blocked r' => (∃ stage, r' = r.goto stage) ∧ Standing endings s₀ (r'.uses ++ uses) s')
      fun _ s' => Standing endings s₀ uses s' := by
  have h₁ := h.acquire r.txn r.page r.mode
  have hgranted : (s.pool.locks.acquire r.txn r.page r.mode).1 = .granted → _ := LockTable.covered_of_granted
  unfold Request.lock
  rw [ends_bind, ends_get]
  cases ha : s.pool.locks.acquire r.txn r.page r.mode with
  | mk answer locks =>
    rw [ha] at h₁ hgranted
    dsimp only
    rw [ends_bind, ends_modifyPool]
    cases answer with
    | granted =>
      have hfetch := h₁.fetch r.page (hgranted rfl) ht
      show (Action.fetch r.page >>= _).Ends _ _ _
      rw [ends_bind]
      exact hfetch.mono (fun f s' h' => ⟨⟨_, rfl⟩, h'.1⟩) fun _ s' h' => h'.1
    | waits => exact ⟨⟨_, rfl⟩, h₁⟩
    | refused => exact h₁.same (h₁.toInvariant.congr rfl rfl rfl rfl rfl rfl rfl rfl) rfl

end Standing

end TupleStore
