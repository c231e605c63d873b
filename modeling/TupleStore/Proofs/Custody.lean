import TupleStore.Call
import TupleStore.Proofs.Page.Slots
import TupleStore.Proofs.Pool.Guarding

/-!
# What requests and calls keep

A request, a call and a cursor do nothing to a store but what a few building blocks do: they lock a page and fetch
it, look at it and change it through a guard, give the guard back, mark the page as changed, and append a page to
a file. So what these keep is kept by every step of a call. `Custody k s₀ may marks I` says that they keep `I`, which
speaks of the uses of pages and of the store. Some calls mark the page that they changed once more when they end:
`may` says who is free to do so, and `marks` what has to hold of the store then. Only transactions of which `asks`
holds ask for locks.

* `Call.uses` : the uses that stand behind a call on its way;
* `Grip` : what is to be known of the frame of a page in use. A page can be lost to its user, by a discard, and
  then the user asks for no other page before it is given back;
* `Custody.andThen` : a request, and what is done with its guard;
* `Custody.call`, `Custody.hasNext` : the operations.
-/

namespace TupleStore

set_option autoImplicit false

open TupleStore.Action

/-! ## Uses -/

/-- The page at which an insertion is, and the lock that it asks for. -/
def Insertion.target? (i : Insertion) (s₀ : Store) : Option (PageId × LockMode) :=
  (s₀.file? i.handle).bind fun file =>
    match i.stage with
    | .inspect number => if number < i.limit then some (⟨file.id, number⟩, .read) else none
    | .place number => some (⟨file.id, number⟩, .write)

/-- The page at which a scan is, and the lock that it asks for. -/
def Scan.target? (c : Scan) (s₀ : Store) : Option (PageId × LockMode) :=
  (s₀.file? c.handle).bind fun file =>
    if c.state.next < c.state.limit then some (⟨file.id, c.state.next⟩, .read) else none

/-- The page at which a deletion is, and the lock that it asks for. -/
def Deletion.target? (d : Deletion) (s₀ : Store) : Option (PageId × LockMode) :=
  (s₀.file? d.handle).map fun _ => (d.recordId.page, .write)

/-- The uses behind a request for a page, if there is a page to be asked for. -/
def usesAt (t : TxnId) (target : Option (PageId × LockMode)) (asking : RequestStage) : List Use :=
  match target with
  | none => []
  | some (page, mode) => Request.uses ⟨t, page, mode, asking⟩

theorem usesAt_fresh (t : TxnId) (target : Option (PageId × LockMode)) : usesAt t target .fresh = [] := by
  unfold usesAt
  split <;> rfl

/-- The uses behind a call. -/
def Call.uses (s₀ : Store) : Call → List Use
  | .read r => r.uses
  | .write r _ => r.uses
  | .insert i _ => usesAt i.txn (i.target? s₀) i.asking
  | .delete d _ => usesAt d.txn (d.target? s₀) d.asking
  | .scan c => usesAt c.txn (c.target? s₀) c.asking

/-- A call asks for what it needs: pages are written under a lock to write. -/
def Call.Proper : Call → Prop
  | .write r _ => r.mode = .write
  | _ => True

/-- Whether a request at a stage keeps its page pinned. -/
def RequestStage.isPinned : RequestStage → Bool
  | fresh => false
  | locking _ => false
  | fetched _ => true
  | entered _ => true

/-- A handle stands for the same table as at the beginning. -/
theorem ends_file_extends {s₀ s : Store} (e : s₀.volume.Extends s.volume) (hd : HandleId) :
    (Action.file hd).Ends s
      (fun file s' => s' = s ∧ s.volume.handles[hd]? = some file ∧ ∃ file₀, s₀.file? hd = some file₀ ∧ file₀.id = file.id)
      fun _ s' => s' = s ∧ s₀.file? hd = none := by
  unfold Action.file
  rw [ends_bind, ends_get]
  cases hf : s.file? hd with
  | some file =>
    obtain ⟨file₀, hfile, hshape⟩ := e.file_back hf
    exact ⟨rfl, hf, file₀, hfile, (congrArg Prod.fst hshape).symm⟩
  | none =>
    refine ⟨rfl, ?_⟩
    cases h₀ : s₀.file? hd with
    | none => rfl
    | some file₀ =>
      obtain ⟨file, hfile, -⟩ := e.file h₀
      rw [show s.volume.handles[hd]? = none from hf] at hfile
      cases hfile

/-- The handle of the table that a call works on, if it works on one. -/
def Call.handle? : Call → Option HandleId
  | .read _ => none
  | .write _ _ => none
  | .insert i _ => some i.handle
  | .delete d _ => some d.handle
  | .scan c => some c.handle

/-! ## Custody -/

/-- What is to be known of the frame of a page in use: nothing, that it holds the page, or that it holds no page any
more. -/
inductive Grip where
  | any
  | firm
  | lost
deriving DecidableEq

/-- A use whose frame is as it is to be. -/
def Grip.On (k : Grip) (s : Store) (u : Use) : Prop :=
  match k with
  | .any => True
  | .firm => (s.pool.frame u.frame).page = some u.page
  | .lost => (s.pool.frame u.frame).page = none

/-- Uses whose frames are as they are to be, behind a request. Where pages are lost, the request has its page. -/
structure Grip.Holds (k : Grip) (s : Store) (asking : RequestStage) (uses : List Use) : Prop where
  on : ∀ u ∈ uses, k.On s u
  pinned : k = .lost → asking.isPinned = true

/-- The building blocks of requests and calls keep `I`. A page is marked as changed once a guard that changed it has
been given back, by those who may. -/
structure Custody (k : Grip) (s₀ : Store) (may : TxnId → PageId → Prop) (marks : TxnId → PageId → Store → Prop)
    (I : List Use → Store → Prop) (asks : TxnId → Prop := fun _ => True) : Prop where
  perm : ∀ {uses uses' : List Use} {s : Store}, I uses s → uses.Perm uses' → I uses' s
  grown : ∀ {uses : List Use} {s : Store}, I uses s → s₀.volume.Extends s.volume
  allocatePage : ∀ {uses : List Use} {s : Store} (hd : HandleId), I uses s →
    (Action.allocatePage hd).Ends s (fun _ s' => I uses s') fun _ s' => I uses s'
  lock : ∀ {uses : List Use} {s : Store} (r : Request), asks r.txn → k ≠ .lost → I uses s →
    r.lock.Ends s
      (fun p s' => match p with
        | .finished _ => False
        | .moved r' => (∃ stage, r' = r.goto stage) ∧ (∀ u ∈ r'.uses, k.On s' u) ∧ I (r'.uses ++ uses) s'
        | .blocked r' => (∃ stage, r' = r.goto stage) ∧ (∀ u ∈ r'.uses, k.On s' u) ∧ I (r'.uses ++ uses) s')
      fun _ s' => I uses s'
  enter : ∀ {uses : List Use} {s : Store} {u : Use} (mode : LockMode), u ∈ uses → I uses s →
    I uses (s.modifyPool fun p => p.enter u.frame mode)
  look : ∀ {uses : List Use} {s : Store} {g : Guard}, g.use ∈ uses → I uses s →
    I uses { s with trace := .saw g.txn g.page (g.bytes s) :: s.trace }
  beginChange : ∀ {uses : List Use} {s : Store} {g : Guard}, I (g.use :: uses) s → k.On s g.use → g.mode = .write →
    g.beginChange.Ends s
      (fun g' s' => g' = { g with changed := true } ∧ k.On s' g'.use ∧ I (g'.use :: uses) s' ∧ g'.bytes s' = g.bytes s)
      fun _ _ => False
  setBytes : ∀ {uses : List Use} {s : Store} {g : Guard} {bytes : Bytes}, I (g.use :: uses) s → k.On s g.use →
    g.mode = .write → g.changed = true → bytes.length = (g.bytes s).length →
    (g.setBytes bytes).Ends s (fun _ s' => k.On s' g.use ∧ I (g.use :: uses) s') fun _ _ => False
  release : ∀ {uses : List Use} {s : Store} {g : Guard}, I (g.use :: uses) s → k.On s g.use →
    (g.changed = true → g.mode = .write) →
    I uses (s.modifyPool g.giveBack) ∧
      (g.changed = true → may g.txn g.page → marks g.txn g.page (s.modifyPool g.giveBack))
  mark : ∀ {uses : List Use} {s : Store} {t : TxnId} {page : PageId}, marks t page s → I uses s →
    I uses (s.modifyPool fun p => p.markDirty page t)

variable {k : Grip} {s₀ s : Store} {may : TxnId → PageId → Prop} {marks : TxnId → PageId → Store → Prop}
  {I : List Use → Store → Prop} {asks : TxnId → Prop} {uses : List Use}

namespace Grip

theorem Holds.fresh (hk : k ≠ .lost) (s : Store) : k.Holds s .fresh [] :=
  ⟨fun _ hu => (List.not_mem_nil hu).elim, fun e => absurd e hk⟩

theorem Holds.of_any (asking : RequestStage) (uses : List Use) : Grip.any.Holds s asking uses :=
  ⟨fun _ _ => trivial, nofun⟩

/-- What is known of frames stays known as long as they keep their pages. -/
theorem On.congr {s' : Store} {u : Use} (h : k.On s u) (hp : (s'.pool.frame u.frame).page = (s.pool.frame u.frame).page) :
    k.On s' u := by
  cases k with
  | any => trivial
  | firm => exact hp.trans h
  | lost => exact hp.trans h

end Grip

namespace Custody

variable (c : Custody k s₀ may marks I asks)

include c

/-! ### Requests and their guards -/

/-- One step of a request. -/
theorem request {r : Request} (hk : k.Holds s r.stage r.uses) (h : I (r.uses ++ uses) s)
    (ha : asks r.txn := by trivial) :
    r.step.Ends s
      (fun p s' => match p with
        | .finished g => g.Answers r ∧ k.On s' g.use ∧ I (g.use :: uses) s'
        | .moved r' => (∃ stage, r' = r.goto stage) ∧ k.Holds s' r'.stage r'.uses ∧ I (r'.uses ++ uses) s'
        | .blocked r' => (∃ stage, r' = r.goto stage) ∧ k.Holds s' r'.stage r'.uses ∧ I (r'.uses ++ uses) s')
      fun _ s' => I uses s' := by
  obtain ⟨t, page, mode, stage⟩ := r
  have hlock : ∀ stage', k ≠ .lost → I uses s → (Request.lock ⟨t, page, mode, stage'⟩).Ends s
      (fun p s' => match p with
        | .finished g => g.Answers ⟨t, page, mode, stage'⟩ ∧ k.On s' g.use ∧ I (g.use :: uses) s'
        | .moved r' => (∃ stage, r' = Request.goto ⟨t, page, mode, stage'⟩ stage) ∧ k.Holds s' r'.stage r'.uses ∧
          I (r'.uses ++ uses) s'
        | .blocked r' => (∃ stage, r' = Request.goto ⟨t, page, mode, stage'⟩ stage) ∧ k.Holds s' r'.stage r'.uses ∧
          I (r'.uses ++ uses) s')
      fun _ s' => I uses s' := fun stage' hne h => by
    refine (c.lock ⟨t, page, mode, stage'⟩ ha hne h).mono (fun p s' h' => ?_) fun _ _ h' => h'
    cases p with
    | finished g => exact h'.elim
    | moved r' => exact ⟨h'.1, ⟨h'.2.1, fun e => absurd e hne⟩, h'.2.2⟩
    | blocked r' => exact ⟨h'.1, ⟨h'.2.1, fun e => absurd e hne⟩, h'.2.2⟩
  unfold Request.step
  rw [ends_bind, ends_get]
  cases stage with
  | fresh =>
    have h : I uses s := h
    have hne : k ≠ .lost := fun e => nomatch hk.pinned e
    dsimp only
    split
    · exact h
    · exact hlock _ hne h
  | locking signals =>
    have h : I uses s := h
    have hne : k ≠ .lost := fun e => nomatch hk.pinned e
    dsimp only
    split
    · exact ⟨⟨_, rfl⟩, hk, h⟩
    · exact hlock _ hne h
  | fetched f =>
    have h : I (⟨f, page, some (t, mode), false⟩ :: uses) s := h
    have hon : k.On s ⟨f, page, some (t, mode), false⟩ := hk.on _ (List.mem_singleton_self _)
    dsimp only
    split
    · rw [ends_bind, ends_modifyPool, ends_pure]
      refine ⟨⟨_, rfl⟩, ⟨fun u hu => ?_, fun _ => rfl⟩, c.enter mode (List.mem_cons_self ..) h⟩
      rw [List.mem_singleton.1 hu]
      exact hon.congr (Pool.modifyFrame_keeps s.pool f f Frame.page fun _ => rfl)
    · exact ⟨⟨_, rfl⟩, hk, h⟩
  | entered f =>
    have h : I (⟨f, page, some (t, mode), false⟩ :: uses) s := h
    have hon : k.On s ⟨f, page, some (t, mode), false⟩ := hk.on _ (List.mem_singleton_self _)
    dsimp only
    split
    · unfold Guard.look
      rw [ends_bind, ends_bind, ends_get, ends_bind, ends_note, ends_pure]
      exact ⟨⟨rfl, rfl, rfl, rfl⟩, hon, c.look (g := ⟨f, page, t, mode, false⟩) (List.mem_cons_self ..) h⟩
    · exact ⟨⟨_, rfl⟩, hk, h⟩

/-- A request on its way: it ends in a guard, or keeps its page and its lock to ask for. -/
theorem requestRun {r : Request} (hk : k.Holds s r.stage r.uses) (h : I (r.uses ++ uses) s)
    (ha : asks r.txn := by trivial) :
    r.run.Ends s
      (fun a s' => match a with
        | .done g => g.Answers r ∧ k.On s' g.use ∧ I (g.use :: uses) s'
        | .waiting r' => (∃ stage, r' = r.goto stage) ∧ I (r'.uses ++ uses) s')
      fun _ s' => I uses s' := by
  have hrun := ends_advance Request.step
    (fun r' s' => (∃ stage, r' = r.goto stage) ∧ k.Holds s' r'.stage r'.uses ∧ I (r'.uses ++ uses) s')
    (fun g s' => g.Answers r ∧ k.On s' g.use ∧ I (g.use :: uses) s') (fun _ s' => I uses s')
    (fun r' s' h' => ?_) 3 r s ⟨⟨r.stage, rfl⟩, hk, h⟩
  · refine hrun.mono (fun a _ h' => ?_) fun _ _ h' => h'
    cases a with
    | done g => exact h'
    | waiting r' => exact ⟨h'.1, h'.2.2⟩
  · obtain ⟨⟨stage, rfl⟩, hk', h'⟩ := h'
    refine (c.request hk' h' ha).mono (fun p s'' h'' => ?_) fun _ _ h'' => h''
    cases p with
    | finished g => exact ⟨⟨h''.1.page, h''.1.txn, h''.1.mode, h''.1.unchanged⟩, h''.2⟩
    | moved r' =>
      obtain ⟨⟨stage', rfl⟩, h''⟩ := h''
      exact ⟨⟨stage', rfl⟩, h''⟩
    | blocked r' =>
      obtain ⟨⟨stage', rfl⟩, h''⟩ := h''
      exact ⟨⟨stage', rfl⟩, h''⟩

theorem andThen {σ α : Type} {r : Request} (hk : k.Holds s r.stage r.uses) (h : I (r.uses ++ uses) s)
    {waiting : RequestStage → σ} {body : Guard → Action (Progress σ α)} {good : Progress σ α → Store → Prop}
    {bad : Error → Store → Prop}
    (hbody : ∀ g s', g.Answers r → k.On s' g.use → I (g.use :: uses) s' → (body g).Ends s' good bad)
    (hwait : ∀ stage s', I ((r.goto stage).uses ++ uses) s' → good (.blocked (waiting stage)) s')
    (herr : ∀ e s', I uses s' → bad e s') (ha : asks r.txn := by trivial) :
    (r.andThen waiting body).Ends s good bad := by
  unfold Request.andThen
  rw [ends_bind]
  refine (c.requestRun hk h ha).mono (fun a s' h' => ?_) herr
  cases a with
  | done g => exact hbody g s' h'.1 h'.2.1 h'.2.2
  | waiting r' =>
    obtain ⟨⟨stage, rfl⟩, h'⟩ := h'
    exact hwait stage s' h'

/-- A guard that was used to read only is given back. -/
theorem releaseRead {g : Guard} (h : I (g.use :: uses) s) (hon : k.On s g.use) (hc : g.changed = false) :
    I uses (s.modifyPool g.giveBack) :=
  (c.release h hon fun e => by rw [hc] at e; cases e).1

end Custody

/-! ### What operations leave behind -/

/-- What a step of a call leaves behind. -/
def Call.Leaves (s₀ : Store) (I : List Use → Store → Prop) (uses : List Use) (c : Call) : Progress Call Reply → Store → Prop
  | .finished _, s => I uses s
  | .moved c', s => c'.handle? = c.handle? ∧ c'.Proper ∧ I (c'.uses s₀ ++ uses) s
  | .blocked c', s => c'.handle? = c.handle? ∧ c'.Proper ∧ I (c'.uses s₀ ++ uses) s

/-- An insertion that may mark the page at which it is. -/
def Insertion.May (s₀ : Store) (may : TxnId → PageId → Prop) (i : Insertion) : Prop :=
  ∀ page, i.target? s₀ = some (page, .write) → may i.txn page

/-- A deletion that may mark the page at which it is. -/
def Deletion.May (s₀ : Store) (may : TxnId → PageId → Prop) (d : Deletion) : Prop :=
  ∀ page, d.target? s₀ = some (page, .write) → may d.txn page

/-- A call that may mark its page in the end, if it is one that does. -/
def Call.May (s₀ : Store) (may : TxnId → PageId → Prop) : Call → Prop
  | .insert i true => i.May s₀ may
  | .delete d true => d.May s₀ may
  | _ => True

theorem Call.may_mono {may may' : TxnId → PageId → Prop} {q : Call} (h : q.May s₀ may)
    (hmay : ∀ t page, may t page → may' t page) : q.May s₀ may' := by
  unfold Call.May at h ⊢
  split
  · exact fun page ht => hmay _ _ (h page ht)
  · exact fun page ht => hmay _ _ (h page ht)
  · trivial

theorem Call.may_any (s₀ : Store) (q : Call) : q.May s₀ fun _ _ => True := by
  unfold Call.May
  split
  · exact fun _ _ => trivial
  · exact fun _ _ => trivial
  · trivial

/-- What a step of an insertion leaves behind. -/
def Insertion.Leaves (s₀ : Store) (may : TxnId → PageId → Prop) (marks : TxnId → PageId → Store → Prop)
    (I : List Use → Store → Prop) (uses : List Use) (i : Insertion) : Progress Insertion (PageId × Tuple) → Store → Prop
  | .finished a, s => I uses s ∧ (i.May s₀ may → marks i.txn a.1 s)
  | .moved i', s => i'.handle = i.handle ∧ I (usesAt i'.txn (i'.target? s₀) i'.asking ++ uses) s
  | .blocked i', s => i'.handle = i.handle ∧ I (usesAt i'.txn (i'.target? s₀) i'.asking ++ uses) s

/-- What a step of a deletion leaves behind. -/
def Deletion.Leaves (s₀ : Store) (may : TxnId → PageId → Prop) (marks : TxnId → PageId → Store → Prop)
    (I : List Use → Store → Prop) (uses : List Use) (d : Deletion) : Progress Deletion PageId → Store → Prop
  | .finished page, s => I uses s ∧ (d.May s₀ may → marks d.txn page s)
  | .moved d', s => d'.handle = d.handle ∧ I (usesAt d'.txn (d'.target? s₀) d'.asking ++ uses) s
  | .blocked d', s => d'.handle = d.handle ∧ I (usesAt d'.txn (d'.target? s₀) d'.asking ++ uses) s

namespace Custody

variable (c : Custody k s₀ may marks I asks)

include c

/-! ### Pages read and written -/

theorem read {r : Request} (hk : k.Holds s r.stage r.uses) (h : I (r.uses ++ uses) s)
    (ha : asks r.txn := by trivial) :
    (Call.readStep r).Ends s ((Call.read r).Leaves s₀ I uses) fun _ s' => I uses s' := by
  refine c.andThen hk h (fun g s' hg hon h' => ?_) (fun stage s' h' => ⟨rfl, trivial, h'⟩) (fun _ _ h' => h') ha
  rw [ends_bind, ends_get, ends_bind]
  exact c.releaseRead h' hon hg.unchanged

theorem write {r : Request} (hk : k.Holds s r.stage r.uses) (h : I (r.uses ++ uses) s) (hm : r.mode = .write)
    (patch : Option (Nat × Bytes)) (ha : asks r.txn := by trivial) :
    (Call.writeStep r patch).Ends s ((Call.write r patch).Leaves s₀ I uses) fun _ s' => I uses s' := by
  refine c.andThen hk h (fun g s' hg hon h' => ?_) (fun stage s' h' => ⟨rfl, hm, h'⟩) (fun _ _ h' => h') ha
  cases patch with
  | none =>
    dsimp only
    rw [ends_bind, ends_get, ends_bind]
    exact c.releaseRead h' hon hg.unchanged
  | some patch =>
    obtain ⟨off, data⟩ := patch
    have hgm : g.mode = .write := hg.mode.trans hm
    dsimp only
    rw [ends_bind]
    refine (c.beginChange h' hon hgm).mono (fun g' s₁ h₁ => ?_) fun _ _ h' => h'.elim
    obtain ⟨rfl, hon₁, h₁, -⟩ := h₁
    rw [ends_bind, ends_get]
    cases hp : (Guard.bytes { g with changed := true } s₁).patch? off data with
    | none =>
      dsimp only
      rw [ends_bind]
      exact (c.release h₁ hon₁ fun _ => hgm).1
    | some bytes =>
      dsimp only
      rw [ends_bind]
      refine (c.setBytes h₁ hon₁ hgm rfl (Bytes.length_of_patch? hp)).mono (fun _ s₂ h₂ => ?_) fun _ _ h' => h'.elim
      rw [ends_bind]
      exact (c.release h₂.2 h₂.1 fun _ => hgm).1

/-! ### Tuples inserted -/

theorem withPage {i : Insertion} {page : PageId} {mode : LockMode} (ht : i.target? s₀ = some (page, mode))
    (hk : k.Holds s i.asking (usesAt i.txn (i.target? s₀) i.asking))
    (h : I (usesAt i.txn (i.target? s₀) i.asking ++ uses) s)
    {body : Guard → Action (Progress Insertion (PageId × Tuple))}
    (hbody : ∀ g s', g.Answers ⟨i.txn, page, mode, i.asking⟩ → k.On s' g.use → I (g.use :: uses) s' →
      (body g).Ends s' (i.Leaves s₀ may marks I uses) fun _ s' => I uses s')
    (ha : asks i.txn := by trivial) : (i.withPage page mode body).Ends s (i.Leaves s₀ may marks I uses) fun _ s' => I uses s' := by
  rw [ht] at h hk
  refine c.andThen (r := ⟨i.txn, page, mode, i.asking⟩) hk h hbody (fun stage s' h' => ⟨rfl, ?_⟩)
    (fun _ _ h' => h') ha
  rw [show ({ i with asking := stage } : Insertion).target? s₀ = _ from ht]
  exact h'

theorem inspect {i : Insertion} {file : HeapFile} {number : Nat}
    (ht : i.target? s₀ = some (⟨file.id, number⟩, .read))
    (hk : k.Holds s i.asking (usesAt i.txn (i.target? s₀) i.asking))
    (h : I (usesAt i.txn (i.target? s₀) i.asking ++ uses) s) (ha : asks i.txn := by trivial) :
    (i.inspect file number).Ends s (i.Leaves s₀ may marks I uses) fun _ s' => I uses s' := by
  refine c.withPage ht hk h (fun g s' hg hon h' => ?_) ha
  rw [ends_bind, ends_get, ends_bind]
  refine ⟨rfl, ?_⟩
  show I (usesAt _ _ .fresh ++ uses) _
  rw [usesAt_fresh]
  exact c.releaseRead h' hon hg.unchanged

theorem place {i : Insertion} {file : HeapFile} {number : Nat}
    (ht : i.target? s₀ = some (⟨file.id, number⟩, .write))
    (hk : k.Holds s i.asking (usesAt i.txn (i.target? s₀) i.asking))
    (h : I (usesAt i.txn (i.target? s₀) i.asking ++ uses) s) (ha : asks i.txn := by trivial) :
    (i.place file number).Ends s (i.Leaves s₀ may marks I uses) fun _ s' => I uses s' := by
  refine c.withPage ht hk h (fun g s' hg hon h' => ?_) ha
  rw [ends_bind, ends_get]
  dsimp only
  split
  · rw [ends_bind]
    refine ⟨rfl, ?_⟩
    show I (usesAt _ _ .fresh ++ uses) _
    rw [usesAt_fresh]
    exact c.releaseRead h' hon hg.unchanged
  · rw [ends_bind]
    refine (c.beginChange h' hon hg.mode).mono (fun g' s₁ h₁ => ?_) fun _ _ h' => h'.elim
    obtain ⟨rfl, hon₁, h₁, hbytes⟩ := h₁
    split
    · rw [ends_bind]
      exact (c.release h₁ hon₁ fun _ => hg.mode).1
    · rename_i heap tuple hins
      have hl := HeapPage.length_insert hins
      rw [ends_bind]
      refine (c.setBytes h₁ hon₁ hg.mode rfl (hl.trans (congrArg List.length hbytes.symm))).mono
        (fun _ s₂ h₂ => ?_) fun _ _ h' => h'.elim
      rw [ends_bind]
      obtain ⟨h₃, hmarks⟩ := c.release h₂.2 h₂.1 fun _ => hg.mode
      refine ⟨h₃, fun hmay => ?_⟩
      have hmay : may i.txn g.page := hmay _ (ht.trans (congrArg (fun page => some (page, LockMode.write)) hg.page.symm))
      rw [← show g.txn = i.txn from hg.txn] at hmay ⊢
      exact hmarks rfl hmay

theorem insertion {i : Insertion} (hk : k.Holds s i.asking (usesAt i.txn (i.target? s₀) i.asking))
    (h : I (usesAt i.txn (i.target? s₀) i.asking ++ uses) s) (ha : asks i.txn := by trivial) :
    i.step.Ends s (i.Leaves s₀ may marks I uses) fun _ s' => I uses s' := by
  unfold Insertion.step
  rw [ends_bind]
  refine (ends_file_extends (c.grown h) i.handle).mono (fun file s' h' => ?_) fun _ s' h' => ?_
  · obtain ⟨rfl, -, file₀, hfile, hid⟩ := h'
    have htarget : ∀ stage, i.stage = stage → i.target? s₀ = (match stage with
        | .inspect number => if number < i.limit then some (⟨file.id, number⟩, .read) else none
        | .place number => some (⟨file.id, number⟩, .write)) := by
      rintro stage rfl
      unfold Insertion.target?
      rw [hfile, Option.bind_some, hid]
    split
    · rename_i number hs
      have ht := htarget _ hs
      dsimp only at ht
      by_cases hn : number < i.limit
      · rw [if_pos hn] at ht ⊢
        exact c.inspect ht hk h ha
      · rw [if_neg hn] at ht ⊢
        rw [ht] at h
        rw [ends_bind]
        refine (c.allocatePage i.handle (show I uses _ from h)).mono (fun page s₁ h₁ => ⟨rfl, ?_⟩) fun _ _ h' => h'
        show I (usesAt _ _ .fresh ++ uses) _
        rw [usesAt_fresh]
        exact h₁
    · rename_i number hs
      exact c.place (htarget _ hs) hk h ha
  · obtain ⟨rfl, hfile⟩ := h'
    have hnone : i.target? s₀ = none := by
      unfold Insertion.target?
      rw [hfile, Option.bind_none]
    rw [hnone] at h
    exact h

/-! ### Tuples deleted -/

theorem vacate {d : Deletion} (file : HeapFile) (ht : d.target? s₀ = some (d.recordId.page, .write)) {g : Guard}
    (hg : g.Answers ⟨d.txn, d.recordId.page, .write, d.asking⟩) (hon : k.On s g.use) (h : I (g.use :: uses) s) :
    (d.vacate file g).Ends s (d.Leaves s₀ may marks I uses) fun _ s' => I uses s' := by
  unfold Deletion.vacate
  rw [ends_bind, ends_get]
  dsimp only
  split
  · rw [ends_bind]
    refine (c.beginChange h hon hg.mode).mono (fun g' s₁ h₁ => ?_) fun _ _ h' => h'.elim
    obtain ⟨rfl, hon₁, h₁, hbytes⟩ := h₁
    split
    · rw [ends_bind]
      exact (c.release h₁ hon₁ fun _ => hg.mode).1
    · rename_i heap hdel
      have hl := HeapPage.length_delete hdel
      rw [ends_bind]
      refine (c.setBytes h₁ hon₁ hg.mode rfl (hl.trans (congrArg List.length hbytes.symm))).mono
        (fun _ s₂ h₂ => ?_) fun _ _ h' => h'.elim
      rw [ends_bind]
      obtain ⟨h₃, hmarks⟩ := c.release h₂.2 h₂.1 fun _ => hg.mode
      refine ⟨h₃, fun hmay => ?_⟩
      have hmay : may d.txn g.page := hmay _ (ht.trans (congrArg (fun page => some (page, LockMode.write)) hg.page.symm))
      rw [← show g.txn = d.txn from hg.txn] at hmay ⊢
      exact hmarks rfl hmay
  · rw [ends_bind]
    exact c.releaseRead h hon hg.unchanged

theorem deletion {d : Deletion} (hk : k.Holds s d.asking (usesAt d.txn (d.target? s₀) d.asking))
    (h : I (usesAt d.txn (d.target? s₀) d.asking ++ uses) s) (ha : asks d.txn := by trivial) :
    d.step.Ends s (d.Leaves s₀ may marks I uses) fun _ s' => I uses s' := by
  unfold Deletion.step
  rw [ends_bind]
  refine (ends_file_extends (c.grown h) d.handle).mono (fun file s' h' => ?_) fun _ s' h' => ?_
  · obtain ⟨rfl, -, file₀, hfile, -⟩ := h'
    have ht : ∀ asking, ({ d with asking } : Deletion).target? s₀ = some (d.recordId.page, .write) := fun asking => by
      unfold Deletion.target?
      rw [hfile, Option.map_some]
    rw [show d.target? s₀ = _ from ht d.asking] at h hk
    refine c.andThen (r := ⟨d.txn, d.recordId.page, .write, d.asking⟩) hk h
      (fun g s'' hg hon h'' => c.vacate file (ht d.asking) hg hon h'') (fun stage s'' h'' => ⟨rfl, ?_⟩)
      (fun _ _ h' => h') ha
    rw [ht]
    exact h''
  · obtain ⟨rfl, hfile⟩ := h'
    have hnone : d.target? s₀ = none := by
      unfold Deletion.target?
      rw [hfile, Option.map_none]
    rw [hnone] at h
    exact h

/-! ### Tables scanned -/

theorem scan {q : Scan} (hk : k.Holds s q.asking (usesAt q.txn (q.target? s₀) q.asking))
    (h : I (usesAt q.txn (q.target? s₀) q.asking ++ uses) s) (ha : asks q.txn := by trivial) :
    q.step.Ends s
      (fun p s' => match p with
        | .finished _ => I uses s'
        | .moved q' => q'.handle = q.handle ∧ I (usesAt q'.txn (q'.target? s₀) q'.asking ++ uses) s'
        | .blocked q' => q'.handle = q.handle ∧ I (usesAt q'.txn (q'.target? s₀) q'.asking ++ uses) s')
      fun _ s' => I uses s' := by
  unfold Scan.step
  by_cases hn : q.state.next < q.state.limit
  · rw [if_pos hn, ends_bind]
    refine (ends_file_extends (c.grown h) q.handle).mono (fun file s' h' => ?_) fun _ s' h' => ?_
    · obtain ⟨rfl, -, file₀, hfile, hid⟩ := h'
      have ht : ∀ asking, ({ q with asking } : Scan).target? s₀ = some (⟨file.id, q.state.next⟩, .read) :=
        fun asking => by
          unfold Scan.target?
          rw [hfile, Option.bind_some, hid]
          exact if_pos hn
      rw [show q.target? s₀ = _ from ht q.asking] at h hk
      refine c.andThen (r := ⟨q.txn, ⟨file.id, q.state.next⟩, .read, q.asking⟩) hk h (fun g s'' hg hon h'' => ?_)
        (fun stage s'' h'' => ⟨rfl, ?_⟩) (fun _ _ h' => h') ha
      · unfold CursorState.readUnder
        rw [ends_bind, ends_bind, ends_get, ends_bind]
        refine ⟨rfl, ?_⟩
        show I (usesAt _ _ .fresh ++ uses) _
        rw [usesAt_fresh]
        exact c.releaseRead h'' hon hg.unchanged
      · rw [ht]
        exact h''
    · obtain ⟨rfl, hfile⟩ := h'
      have hnone : q.target? s₀ = none := by
        unfold Scan.target?
        rw [hfile, Option.bind_none]
      rw [hnone] at h
      exact h
  · rw [if_neg hn]
    have hnone : q.target? s₀ = none := by
      unfold Scan.target?
      cases s₀.file? q.handle with
      | none => rfl
      | some file => exact if_neg hn
    rw [hnone] at h
    exact h

/-- A request that is not to wait. If it would have to, it leaves nothing behind. -/
theorem requestNow (hne : k ≠ .lost) (h : I uses s) (t : TxnId) (page : PageId) (mode : LockMode)
    (ha : asks t := by trivial) :
    (Action.request t page mode).Ends s
      (fun g s' => (∀ x, g = some x → x.changed = false ∧ k.On s' x.use ∧ I (x.use :: uses) s') ∧ (g = none → I uses s'))
      fun _ s' => I uses s' := by
  have hrun := c.requestRun (r := ⟨t, page, mode, .fresh⟩) (.fresh hne s) h ha
  unfold Action.request
  unfold Ends at hrun ⊢
  cases hr : Request.run ⟨t, page, mode, .fresh⟩ s with
  | error e s' =>
    rw [hr] at hrun
    simp only [hr]
    exact hrun
  | ok a s' =>
    rw [hr] at hrun
    simp only [hr]
    cases a with
    | done g =>
      exact ⟨fun x hx => Option.some.inj hx ▸ ⟨hrun.1.unchanged, hrun.2⟩, fun hn => absurd hn (Option.some_ne_none g)⟩
    | waiting r => exact ⟨fun x hx => absurd hx.symm (Option.some_ne_none x), fun _ => h⟩

/-- A cursor reads a page, whatever comes of it. -/
theorem readPage (hne : k ≠ .lost) (h : I uses s) (file : HeapFile) (t : TxnId) (q : CursorState)
    (ha : asks t := by trivial) :
    (q.readPage file t).Ends s (fun _ s' => I uses s') fun _ _ => False := by
  unfold CursorState.readPage
  rw [ends_bind, ends_attempt]
  refine (c.requestNow hne h t ⟨file.id, q.next⟩ .read ha).mono (fun g s' h' => ?_) fun _ _ h' => h'
  cases g with
  | none => exact h'.2 rfl
  | some g =>
    obtain ⟨hg, hon, hs⟩ := h'.1 g rfl
    unfold CursorState.readUnder
    dsimp only
    rw [ends_bind, ends_bind, ends_get, ends_bind]
    exact c.releaseRead hs hon hg

theorem fill (hne : k ≠ .lost) (file : HeapFile) (t : TxnId) (n : Nat) (q : CursorState) (s : Store) (h : I uses s)
    (ha : asks t := by trivial) :
    (CursorState.fill file t n q).Ends s (fun _ s' => I uses s') fun _ s' => I uses s' := by
  induction n generalizing q s with
  | zero => exact h
  | succ n ih =>
    unfold CursorState.fill
    split
    · rw [ends_bind]
      refine (c.readPage hne h file t q ha).mono (fun a s' h' => ?_) fun _ _ h' => h'.elim
      cases a with
      | answer q' => exact ih q' s' h'
      | failed e => exact h'
      | blocked => exact h'
    · exact h

/-- A cursor, wherever it stands, is asked for more. -/
theorem hasNext (hne : k ≠ .lost) (h : I uses s) (q : Cursor) (ha : asks q.txn := by trivial) :
    q.hasNext.Ends s (fun _ s' => I uses s') fun _ s' => I uses s' := by
  unfold Cursor.hasNext
  split
  · exact h
  · rw [ends_bind]
    refine (ends_file_extends (c.grown h) q.handle).mono (fun file s' h' => ?_) fun _ s' h' => h'.1 ▸ h
    obtain ⟨rfl, -⟩ := h'
    rw [ends_bind]
    exact c.fill hne file q.txn _ _ _ h ha

/-! ### All calls -/

/-- A step of any call. -/
theorem call {q : Call} (hk : k.Holds s q.asking (q.uses s₀)) (hmay : q.May s₀ may) (h : I (q.uses s₀ ++ uses) s)
    (hq : q.Proper) (ha : asks q.txn := by trivial) : q.step.Ends s (q.Leaves s₀ I uses) fun _ s' => I uses s' := by
  cases q with
  | read r => exact c.read hk h ha
  | write r patch => exact c.write hk h hq patch ha
  | insert i marks =>
    unfold Call.step
    rw [ends_bind]
    refine (c.insertion hk h ha).mono (fun p s' h' => ?_) fun _ _ h' => h'
    rw [ends_bind]
    cases p with
    | finished a =>
      cases marks with
      | true => exact c.mark (h'.2 hmay) h'.1
      | false => exact h'.1
    | moved i' => exact ⟨congrArg some h'.1, trivial, h'.2⟩
    | blocked i' => exact ⟨congrArg some h'.1, trivial, h'.2⟩
  | delete d marks =>
    unfold Call.step
    rw [ends_bind]
    refine (c.deletion hk h ha).mono (fun p s' h' => ?_) fun _ _ h' => h'
    rw [ends_bind]
    cases p with
    | finished page =>
      cases marks with
      | true => exact c.mark (h'.2 hmay) h'.1
      | false => exact h'.1
    | moved d' => exact ⟨congrArg some h'.1, trivial, h'.2⟩
    | blocked d' => exact ⟨congrArg some h'.1, trivial, h'.2⟩
  | scan q =>
    unfold Call.step
    rw [ends_bind]
    refine (c.scan hk h ha).mono (fun p s' h' => ?_) fun _ _ h' => h'
    cases p with
    | finished a => exact h'
    | moved q' => exact ⟨congrArg some h'.1, trivial, h'.2⟩
    | blocked q' => exact ⟨congrArg some h'.1, trivial, h'.2⟩

end Custody

end TupleStore
