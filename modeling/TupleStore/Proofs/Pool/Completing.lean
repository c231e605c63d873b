import TupleStore.Proofs.Pool.Departing
import TupleStore.Proofs.Pool.Fetching

/-!
# Ends of transactions

The invariant is kept when a transaction commits and when it is rolled back, also beside others that end. Meanwhile
its pages are taken out of agreement with their accounts one after the other, and they come back into it when it has
ended.

* `Standing.logChange`, `Standing.logCommit`, `Standing.force`, `Standing.writeTaken`, `Standing.settleCommit` : what
  a commit does;
* `Standing.restorePage`, `Standing.collect`, `Standing.restoreRetained`, `Standing.logAbort`,
  `Standing.settleAbort` : what a rollback does;
* `Standing.commit_concludes`, `Standing.rollback_concludes`, `Standing.complete_finishes` : the invariant after the
  whole end of a transaction, and what the trace says.
-/

namespace TupleStore

set_option autoImplicit false

open TupleStore.Action

variable {s₀ s : Store} {uses pins : List Use} {ok : PageId → Copies → Account → Prop} {f : FrameId} {page : PageId}
  {t : TxnId} {e : Ending} {others : List Ending} {rest : List (PageId × FrameId)} {commits : Bool}

/-- What comes of a store while a transaction ends: events of a kind, the same locks, and files that at most
grow. -/
structure Onward (K : Effect → Prop) (s s' : Store) : Prop where
  trace : Grown K s.trace s'.trace
  locks : s'.pool.locks = s.pool.locks
  files : s.volume.Extends s'.volume

variable {K : Effect → Prop}

theorem Onward.refl (s : Store) : Onward K s s := ⟨.refl _, rfl, .refl _⟩

theorem Onward.trans {s₁ s₂ s₃ : Store} (h : Onward K s₁ s₂) (h' : Onward K s₂ s₃) : Onward K s₁ s₃ :=
  ⟨h.trace.trans h'.trace, h'.locks.trans h.locks, h.files.trans h'.files⟩

/-- A transaction has ended, and holds its locks still: what has happened came in its order, and the record of its
end is in the forced log. -/
structure Concludes (t : TxnId) (commits : Bool) (s s' : Store) : Prop where
  trace : ∃ past, s'.trace = .completed t commits :: past ∧ Sealed t commits s.trace past
  locks : s'.pool.locks = s.pool.locks
  files : s.volume.Extends s'.volume

theorem beforeOf?_eq_some {x : Frame} {b : BeforeImage} (h : x.beforeOf? t = some b) :
    x.before = some b ∧ b.owner = t := by
  unfold Frame.beforeOf? at h
  rw [Option.filter_eq_some_iff] at h
  exact ⟨h.1, of_decide_eq_true h.2⟩

theorem beforeOf?_eq_none {x : Frame} (h : x.beforeOf? t = none) : x.before.map BeforeImage.owner ≠ some t := by
  intro ho
  obtain ⟨b, hb, howner⟩ := Option.map_eq_some_iff.1 ho
  unfold Frame.beforeOf? at h
  rw [hb, Option.filter_some, if_pos (decide_eq_true howner)] at h
  cases h

theorem Store.copies_forget (s : Store) (t : TxnId) (page : PageId) :
    (s.modifyPool fun p => p.forget t).copies page =
      { s.copies page with kept := (s.copies page).kept.filter fun b => b.owner ≠ t } := by
  have hkept : (s.pool.forget t).retained[page]? = s.pool.retained[page]?.filter fun b => b.owner ≠ t := by
    exact Std.TreeMap.getElem?_filter'
  unfold Store.copies Store.modifyPool
  simp only [hkept]
  rfl

theorem Invariant.forget (h : Invariant s₀ pins ok s) (t : TxnId) (ok' : PageId → Copies → Account → Prop)
    (hok : ∀ page, ok page (s.copies page) (account s₀.onFile s.trace page) →
      ok' page { s.copies page with kept := (s.copies page).kept.filter fun b => b.owner ≠ t }
        (account s₀.onFile s.trace page)) :
    Invariant s₀ pins ok' (s.modifyPool fun p => p.forget t) := by
  have hcopies := s.copies_forget t
  refine ⟨h.pool.congr rfl rfl rfl rfl rfl, h.locks, h.ground, h.covered, h.touched, fun v page hu => ?_,
    fun page => ?_, fun page => ?_, h.lawful, h.log⟩
  · rw [hcopies]
    exact h.unlogged v page hu
  · rw [hcopies]
    refine ⟨(h.fit page).cached, fun b hb => ?_⟩
    exact (h.fit page).kept b (Option.filter_eq_some_iff.1 hb).1
  · rw [hcopies]
    exact hok page (h.pages page)

/-! ## Commit -/

/-- One of the pages that are left, and not the first of them. -/
theorem exists_mem_of_ne {β : Type} {page q : PageId} {b : β} {rest : List (PageId × β)}
    (h : ∃ c, (q, c) ∈ (page, b) :: rest) (hq : q ≠ page) : ∃ c, (q, c) ∈ rest :=
  h.imp fun _ hc => (List.mem_cons.1 hc).resolve_left fun he => hq (congrArg Prod.fst he)

namespace Standing

theorem committing_of_cons {unwritten : List (PageId × FrameId)} {q : PageId} {x : Copies} {a : Account} (hq : q ≠ page)
    (h : Committing t ((page, f) :: rest) unwritten q x a) : Committing t rest unwritten q x a :=
  h.imp_left (And.imp_right fun hin hc => exists_mem_of_ne (hin hc) hq)

/-- A page without a before-image of the transaction is passed over: its change is logged already, or it has none. -/
theorem passLogged (h : Standing (e.goto (.logging ((page, f) :: rest)) :: others) s₀ uses s)
    (hb : (s.pool.frame f).beforeOf? e.txn = none) : Standing (e.goto (.logging rest) :: others) s₀ uses s := by
  obtain ⟨hcommits, hin⟩ := h.proper _ (List.mem_cons_self ..)
  have hcached := Store.cached_eq h.pool.mapped (h.frame_of_pinned (List.mem_cons_self ..) (hin _ (List.mem_cons_self ..)))
  refine h.restage _ ⟨hcommits, fun x hx => hin x (List.mem_cons_of_mem _ hx)⟩ (fun _ hy => hy) fun q ho hp => ?_
  by_cases hq : q = page
  · subst hq
    refine Or.inr (hp.resolve_left fun hp => ?_)
    have hopener := hp.1.agrees.opener
    rw [Copies.before, hcached] at hopener
    exact beforeOf?_eq_none hb (hopener.symm.trans ho)
  · exact committing_of_cons hq hp

theorem logChange (h : Standing (e.goto (.logging ((page, f) :: rest)) :: others) s₀ uses s) :
    (Action.logChange e.txn page f).Ends s
      (fun _ s' => Standing (e.goto (.logging rest) :: others) s₀ uses s' ∧ Onward (Effect.LogsChange e.txn) s s')
      fun _ _ => False := by
  obtain ⟨hcommits, hin⟩ := h.proper _ (List.mem_cons_self ..)
  have hf : (s.pool.frame f).page = some page :=
    h.frame_of_pinned (List.mem_cons_self ..) (hin _ (List.mem_cons_self ..))
  have hcached := Store.cached_eq h.pool.mapped hf
  have hproper : (e.goto (.logging rest)).Proper s₀ := ⟨hcommits, fun x hx => hin x (List.mem_cons_of_mem _ hx)⟩
  unfold Action.logChange
  rw [ends_bind, ends_get]
  simp only [hf, if_true]
  cases hb : (s.pool.frame f).beforeOf? e.txn with
  | none => exact ⟨h.passLogged hb, .refl s⟩
  | some b =>
    obtain ⟨hbefore, howner⟩ := beforeOf?_eq_some hb
    have himaged := (h.pages page).imaged h.proper hcached hbefore
    have ho : (account s₀.onFile s.trace page).opener = some e.txn := himaged.opener.trans (congrArg some howner)
    have hlaw : Effect.Lawful s₀.onFile s.trace (.logged (.update e.txn page b.bytes (s.pool.frame f).bytes)) :=
      ⟨ho, himaged.image, howner ▸ himaged.content⟩
    have howned : (s.copies page).Owned e.txn (account s₀.onFile s.trace page) := by
      rcases ((h.pages page).ended _ (List.mem_cons_self ..) ho).2 with ⟨hp, -⟩ | ⟨hp, -⟩
      · exact hp
      · exact absurd (hbefore.symm.trans (hp.cached _ hcached).1) (Option.some_ne_none b)
    show (Action.modifyPool _ >>= _).Ends s _ _
    rw [ends_bind, ends_modifyPool, ends_append]
    have h₁ := (h.off page).append (.update e.txn page b.bytes (s.pool.frame f).bytes) hlaw
    have h₂ := h₁.modifyFrame hf (c := fun x => { x with before := none }) (fun _ => rfl) (fun _ => rfl)
      ⟨((h.fit page).cached _ hcached).2.1, fun b hb => absurd hb.symm (Option.some_ne_none b)⟩
      (Or.inl (h.lawful.not_unlogged_of_update hlaw))
    have h₃ : Invariant s₀ _ (Off page (Parted (e.goto (.logging rest) :: others) s.mode? uses)) _ :=
      h₂.mono fun q hq hne => (hq hne).restage rfl (fun _ hb => hb) fun _ => committing_of_cons hne
    refine ⟨h.goOn hproper (h₃.on ?_) rfl, ⟨(Grown.refl _).cons _ rfl, rfl, .refl _⟩⟩
    have hself := Store.copies_modifyFrame h.pool.mapped hf fun x => { x with before := none }
    refine Eq.subst (motive := fun x => Parted _ _ _ page x _) hself.symm ?_
    refine (h.pages page).takeUp h.txn_ne ho rfl (fun _ hb => (List.not_mem_nil hb).elim) rfl
      (Or.inr ⟨howned.take hcached, fun _ _ _ => ?_⟩)
    exact ⟨f, hin _ (List.mem_cons_self ..)⟩

/-- Once the changes of all cached pages are logged, none is left: a page that is not cached has none. -/
theorem logged (h : Standing (e.goto (.logging []) :: others) s₀ uses s) (page : PageId) :
    ¬Unlogged e.txn page s.trace := by
  intro hu
  obtain ⟨c, hc, hbefore, -⟩ := h.unlogged e.txn page hu
  have ho := h.lawful.opener_of_unlogged hu
  rcases ((h.pages page).ended _ (List.mem_cons_self ..) ho).2 with ⟨-, hin⟩ | ⟨hp, -⟩
  · obtain ⟨f, hf⟩ := hin (hc ▸ Option.some_ne_none c)
    cases hf
  · exact hbefore (hp.cached c hc).1

theorem logCommit (h : Standing (e.goto (.logging []) :: others) s₀ uses s) :
    Standing (e.goto .forcing :: others) s₀ uses
      { s with log := s.log.append (.commit e.txn), trace := .logged (.commit e.txn) :: s.trace } := by
  have hcommits : e.commits = true := (h.proper _ (List.mem_cons_self ..)).1
  have h₁ := h.same (h.toInvariant.append (.commit e.txn) h.logged) rfl
  refine h₁.restage _ (fun hn => absurd (hcommits.symm.trans hn) Bool.noConfusion) (fun _ hy => hy) fun q _ hp => ?_
  exact (iff_of_eq (if_pos hcommits)).2 hp

theorem force (h : Standing (e.goto .forcing :: others) s₀ uses s) :
    Standing (e.goto (if e.commits then .writing e.pinned else .settling) :: others) s₀ uses
      { s with log := s.log.force, trace := .forced :: s.trace } := by
  have hproper := h.proper _ (List.mem_cons_self ..)
  have h₁ := h.same h.toInvariant.force rfl
  cases hc : e.commits with
  | true =>
    refine h₁.restage (.writing e.pinned) ⟨hc, fun _ hx => hx⟩ (fun _ hy => hy) fun q _ hp => ?_
    exact (iff_of_eq (if_pos hc)).1 hp
  | false =>
    refine h₁.restage .settling (hproper hc) (fun _ hy => hy) fun q _ hp => ?_
    have hn : ¬e.commits = true := fun ht => Bool.noConfusion (hc.symm.trans ht)
    exact (iff_of_eq (if_neg hn)).2 ((iff_of_eq (if_neg hn)).1 hp)

/-- A dirty frame that a transaction has pinned and not to log any more has a change of this transaction. -/
theorem taken_of_dirty (h : Standing (e :: others) s₀ uses s) (hin : (page, f) ∈ e.pinned)
    (hd : (s.pool.frame f).dirtyBy ≠ none)
    (hlogged : ∀ x a, e.Has page x a → x.cached ≠ none → x.Taken e.txn a) :
    (s.copies page).Taken e.txn (account s₀.onFile s.trace page) := by
  have hcached := Store.cached_eq h.pool.mapped (h.frame_of_pinned (List.mem_cons_self ..) hin)
  obtain ⟨u, ho⟩ : ∃ u, (account s₀.onFile s.trace page).opener = some u := by
    refine (h.pages page).cases h.proper (fun ha => ?_) fun o _ ho _ => ⟨_, ho⟩
    obtain ⟨u, hu⟩ := Option.ne_none_iff_exists'.1 hd
    exact ⟨u, ha.dirty _ u hcached hu⟩
  -- who has the page open has it locked alone, and the transaction that has it pinned has it locked
  have hu : e.txn = u := h.locks.eq_of_write ((h.pages page).locked ho) (h.held e (List.mem_cons_self ..) _ hin)
  exact hlogged _ _ ((h.pages page).ended e (List.mem_cons_self ..) (hu ▸ ho)).2 (hcached ▸ Option.some_ne_none _)

theorem writeTaken (h : Standing (e.goto (.writing ((page, f) :: rest)) :: others) s₀ uses s)
    (hforced : ForcedSince e.txn (.commit e.txn) s.trace) :
    (Action.writeBack f page).Ends s
      (fun _ s' => Standing (e.goto (.writing rest) :: others) s₀ uses s' ∧ Onward Effect.Writes s s')
      fun _ _ => False := by
  obtain ⟨hcommits, hin⟩ := h.proper _ (List.mem_cons_self ..)
  have hpinned : (page, f) ∈ e.pinned := hin _ (List.mem_cons_self ..)
  have hf : (s.pool.frame f).page = some page := h.frame_of_pinned (List.mem_cons_self ..) hpinned
  have hcached := Store.cached_eq h.pool.mapped hf
  have htaken : (s.pool.frame f).dirtyBy ≠ none →
      (s.copies page).Taken e.txn (account s₀.onFile s.trace page) := fun hd =>
    h.taken_of_dirty hpinned hd fun x a hp hc => by
      rcases hp with ⟨-, hp⟩ | ⟨hp, -⟩
      · obtain ⟨g, hg⟩ := hp hc
        cases hg
      · exact hp
  refine (h.writeBack hf fun hd _ => ?_).mono (fun _ s' h' => ?_) fun _ _ h' => h'
  · exact .committed e.txn (htaken hd).opener ((htaken hd).cached _ hcached).2 hforced
  · obtain ⟨h', hclean, hw⟩ := h'
    have hcached' := Store.cached_eq h'.pool.mapped (h'.frame_of_pinned (List.mem_cons_self ..) hpinned)
    refine ⟨h'.restage _ ⟨hcommits, fun x hx => hin x (List.mem_cons_of_mem _ hx)⟩ (fun _ hy => hy) fun q _ hp => ?_, ?_⟩
    · refine hp.imp_right (And.imp_right fun hrest c hc hd => ?_)
      by_cases hq : q = page
      · subst hq
        rw [hcached'] at hc
        cases hc
        exact absurd hclean hd
      · exact exists_mem_of_ne (hrest c hc hd) hq
    · rcases hw with rfl | ⟨hd, ⟨v, l, k, hgrown, rfl⟩, -⟩
      · exact .refl _
      · have hlogs : (s.pool.frame f).logs page = [] := by
          rw [Frame.logs, show (s.pool.frame f).before = none from ((htaken hd).cached _ hcached).1]
        rw [hlogs]
        exact ⟨(Grown.refl _).cons _ trivial, rfl, hgrown⟩

/-- All pages are written. -/
theorem letGoWritten (h : Standing (e.goto (.writing []) :: others) s₀ uses s) :
    Standing (e.letGo .settling :: others) s₀ uses (e.unpinAll s) := by
  have hcommits : e.commits = true := (h.proper _ (List.mem_cons_self ..)).1
  refine h.letGo (e := e.goto (.writing [])) .settling rfl (fun _ hy => hy) fun q x a hp => ?_
  exact (iff_of_eq (if_pos hcommits)).2 hp

end Standing

/-- A page written to its file by a rollback, and what comes then. -/
theorem ends_putBack (h : Invariant s₀ pins (Off page ok) s) {bytes : Bytes}
    (htable : s₀.HasTable page.table) (hl : bytes.length = s.pool.config.pageSize) (hmay : MayWrite s₀.onFile s.trace page bytes)
    {k : Unit → Action Unit} {good : Unit → Store → Prop} {bad : Error → Store → Prop}
    (hk : ∀ v, s.volume.Extends v →
      Invariant s₀ pins (Off page ok) { s with volume := v, trace := .wrote page bytes :: s.trace } →
      Store.copies { s with volume := v, trace := .wrote page bytes :: s.trace } page =
        { s.copies page with file := bytes } →
      (k ()).Ends { s with volume := v, trace := .wrote page bytes :: s.trace } good bad) :
    (resolve page.table >>= fun hd => writePage hd page bytes >>= k).Ends s good bad := by
  obtain ⟨hd, file, hres, hfile, htable, hsize⟩ := resolve_eq h.ground htable
  obtain ⟨v, hput, hgrown, h', hself, -⟩ := h.putPage bytes hfile htable (hl.trans hsize.symm)
    (e := .wrote page bytes) hmay (fun _ _ ht => ht) (fun _ _ hu => hu) fun q a hq => if_neg (Ne.symm hq)
  rw [ends_bind, ends_of_ok hres]
  unfold writePage
  rw [ends_bind, ends_bind, ends_of_ok hput, ends_note]
  exact hk v hgrown h' hself

theorem mem_retainedOf {p : Pool} {b : BeforeImage} :
    (page, b) ∈ p.retainedOf t ↔ p.retained[page]? = some b ∧ b.owner = t := by
  unfold Pool.retainedOf
  rw [List.mem_filter, Std.TreeMap.mem_toList_iff_getElem?_eq_some]
  simp

namespace Standing

variable {c : Copy} {b : BeforeImage}

theorem restoring_of_cons {q : PageId} {x : Copies} {a : Account} (hq : q ≠ page)
    (h : Restoring t ((page, f) :: rest) q x a) : Restoring t rest q x a :=
  h.imp_left (And.imp_right fun hin hc => exists_mem_of_ne (hin hc) hq)

/-- A page without a before-image of the transaction is passed over: it is restored already, or is not its own. -/
theorem passRestored (h : Standing (e.goto (.restoring ((page, f) :: rest)) :: others) s₀ uses s)
    (hb : (s.pool.frame f).beforeOf? e.txn = none) : Standing (e.goto (.restoring rest) :: others) s₀ uses s := by
  obtain ⟨hcommits, hin⟩ := h.proper _ (List.mem_cons_self ..)
  have hcached := Store.cached_eq h.pool.mapped (h.frame_of_pinned (List.mem_cons_self ..) (hin _ (List.mem_cons_self ..)))
  refine h.restage _ ⟨hcommits, fun x hx => hin x (List.mem_cons_of_mem _ hx)⟩ (fun _ hy => hy) fun q ho hp => ?_
  by_cases hq : q = page
  · subst hq
    refine Or.inr (hp.resolve_left fun hp => ?_)
    have hopener := hp.1.agrees.opener
    rw [Copies.before, hcached] at hopener
    exact beforeOf?_eq_none hb (hopener.symm.trans ho)
  · exact restoring_of_cons hq hp

/-- A page whose before-image the transaction has still is one that it has changed and not restored. -/
theorem owned_of_before (h : Standing (e.goto (.restoring rest) :: others) s₀ uses s)
    (hcached : (s.copies page).cached = some c) (hbefore : c.before = some b)
    (ho : (account s₀.onFile s.trace page).opener = some e.txn) :
    (s.copies page).Owned e.txn (account s₀.onFile s.trace page) := by
  rcases ((h.pages page).ended _ (List.mem_cons_self ..) ho).2 with ⟨hp, -⟩ | hp
  · exact hp
  · have hnone := congrArg Copy.before (hp.cached _ hcached)
    exact absurd (hbefore.symm.trans hnone) (Option.some_ne_none b)

/-- Once the page has its committed bytes again, in its frame and in its file, it is no longer left to be restored. -/
theorem takeRestored (h : Standing (e.goto (.restoring ((page, f) :: rest)) :: others) s₀ uses s)
    (howned : (s.copies page).Owned e.txn (account s₀.onFile s.trace page)) (hcached : (s.copies page).cached = some c)
    (ho : (account s₀.onFile s.trace page).opener = some e.txn)
    (himage : b.bytes = (account s₀.onFile s.trace page).committed) {x : Copies} {outside : Option Bytes}
    (hc : x.cached = some ⟨b.bytes, none, none⟩) (hk : x.kept = (s.copies page).kept)
    (hfile : x.file = outside.getD b.bytes) :
    Parted (e.goto (.restoring rest) :: others) s.mode? uses page x { account s₀.onFile s.trace page with outside } := by
  refine (h.pages page).takeUp h.txn_ne ho rfl (fun _ hb => (List.not_mem_nil hb).elim) rfl
    (Or.inr ⟨⟨ho, howned.closing.own⟩, ?_, ?_, ?_⟩)
  · exact hk.trans (howned.agrees.apart _ hcached)
  · intro c hc'
    refine (Option.some.inj (hc'.symm.trans hc)).trans ?_
    rw [himage]
  · exact hfile.trans (congrArg _ himage)

theorem restorePage (h : Standing (e.goto (.restoring ((page, f) :: rest)) :: others) s₀ uses s)
    (hundo : Undone e.txn s.trace) :
    (Action.restorePage e.txn page f).Ends s
      (fun _ s' => Standing (e.goto (.restoring rest) :: others) s₀ uses s' ∧ Onward Effect.Writes s s')
      fun _ _ => False := by
  obtain ⟨hcommits, hin⟩ := h.proper _ (List.mem_cons_self ..)
  have hf : (s.pool.frame f).page = some page :=
    h.frame_of_pinned (List.mem_cons_self ..) (hin _ (List.mem_cons_self ..))
  have hcached := Store.cached_eq h.pool.mapped hf
  have hproper : (e.goto (.restoring rest)).Proper s₀ := ⟨hcommits, fun x hx => hin x (List.mem_cons_of_mem _ hx)⟩
  unfold Action.restorePage
  rw [ends_bind, ends_get]
  simp only [hf, if_true]
  cases hb : (s.pool.frame f).beforeOf? e.txn with
  | none => exact ⟨h.passRestored hb, .refl s⟩
  | some b =>
    obtain ⟨hbefore, howner⟩ := beforeOf?_eq_some hb
    have himaged := (h.pages page).imaged h.proper hcached hbefore
    have himage := himaged.image
    have ho : (account s₀.onFile s.trace page).opener = some e.txn := himaged.opener.trans (congrArg some howner)
    have howned := h.owned_of_before hcached hbefore ho
    have hfits := (h.fit page).cached _ hcached
    have hlen : b.bytes.length = s.pool.config.pageSize := hfits.2.2 b hbefore
    have hlogged : ∀ u, ¬Unlogged u page s.trace := fun u hu => by
      obtain rfl : e.txn = u := Option.some.inj (ho.symm.trans (h.lawful.opener_of_unlogged hu))
      exact hundo.logged page hu
    have h₁ := (h.off page).modifyFrame hf (c := fun x => x.restore b) (fun _ => rfl) (fun _ => rfl)
      ⟨hlen, fun _ hnone => absurd hnone.symm (Option.some_ne_none _)⟩ (Or.inl hlogged)
    have hself := Store.copies_modifyFrame h.pool.mapped hf fun x => x.restore b
    have hgone : ∀ {s' : Store}, Invariant s₀ (uses ++ (e :: others).flatMap Ending.pins)
          (Off page (Parted (e.goto (.restoring ((page, f) :: rest)) :: others) s.mode? uses)) s' →
        Invariant s₀ (uses ++ (e :: others).flatMap Ending.pins)
          (Off page (Parted (e.goto (.restoring rest) :: others) s.mode? uses)) s' := fun h' =>
      h'.mono fun q hq hne => (hq hne).restage rfl (fun _ hb => hb) fun _ => restoring_of_cons hne
    dsimp only
    rw [ends_bind, ends_modifyPool]
    cases hd : b.onDisk with
    | true =>
      rw [if_pos rfl]
      refine ends_putBack h₁ (h.ground.hasTable hfits.1) hlen (.restored e.txn ho himage hundo.undoing)
        fun v hgrown h₂ hself₂ => ?_
      have hacc : account s₀.onFile (Effect.wrote page b.bytes :: s.trace) page =
          { account s₀.onFile s.trace page with outside := none } := if_pos rfl
      refine ⟨h.goOn hproper (Invariant.congr ((hgone h₂).on ?_) rfl rfl rfl rfl rfl rfl rfl rfl) rfl,
        ⟨(Grown.refl _).cons (.wrote page b.bytes) trivial, rfl, hgrown⟩⟩
      rw [hself₂, hself]
      exact hacc ▸ h.takeRestored howned hcached ho himage rfl rfl rfl
    | false =>
      rw [if_neg Bool.false_ne_true]
      refine ⟨h.goOn hproper (Invariant.congr ((hgone h₁).on ?_) rfl rfl rfl rfl rfl rfl rfl rfl) rfl,
        ⟨.refl _, rfl, .refl _⟩⟩
      have hbefore' : (s.copies page).before = some b := by
        rw [Copies.before, hcached]
        exact hbefore
      rw [hself]
      exact h.takeRestored howned hcached ho himage rfl rfl (himage ▸ howned.agrees.unstolen b hbefore' hd)

/-- All pages that were in frames are restored. -/
theorem letGoRestored (h : Standing (e.goto (.restoring []) :: others) s₀ uses s) :
    Standing (e.letGo .collecting :: others) s₀ uses (e.unpinAll s) :=
  h.letGo (e := e.goto (.restoring [])) .collecting ⟨(h.proper _ (List.mem_cons_self ..)).1, rfl⟩
    (fun _ hy => hy) fun _ _ _ hp => hp

/-- The before-images that were kept aside are all that is left to be written back. -/
theorem collect (h : Standing (e.goto .collecting :: others) s₀ uses s) :
    Standing (e.goto (.returning (s.pool.retainedOf e.txn)) :: others) s₀ uses
      (s.modifyPool fun p => p.forget e.txn) := by
  have hproper : (e.goto (.returning (s.pool.retainedOf e.txn))).Proper s₀ := by
    refine ⟨h.proper _ (List.mem_cons_self ..), fun x hx => ?_⟩
    have hfit := (h.fit x.1).kept x.2 (mem_retainedOf.1 hx).1
    exact ⟨h.ground.hasTable hfit.1, hfit.2.trans (congrArg Config.pageSize h.ground.config)⟩
  refine h.goOn hproper (h.toInvariant.forget e.txn _ fun q hp => ?_) rfl
  by_cases ho : (account s₀.onFile s.trace q).opener = some e.txn
  · refine hp.takeUp h.txn_ne ho rfl (fun b hb => ?_) rfl ?_
    · obtain ⟨hk, -⟩ := mem_retainedOf.1 hb
      have hkept : (s.copies q).kept = some b := hk
      rcases (hp.ended _ (List.mem_cons_self ..) ho).2 with ⟨howned, -⟩ | hp
      · refine howned.agrees.image b ?_
        cases hc : (s.copies q).cached with
        | some c => exact absurd (hkept.symm.trans (howned.agrees.apart c hc)) (Option.some_ne_none b)
        | none => rw [Copies.before, hc, hkept]
      · exact absurd (hkept.symm.trans hp.kept) (Option.some_ne_none b)
    · rcases (hp.ended _ (List.mem_cons_self ..) ho).2 with ⟨howned, hin⟩ | hp
      · have hc : (s.copies q).cached = none := Classical.byContradiction fun hc => by
          obtain ⟨g, hg⟩ := hin hc
          cases hg
        refine Or.inr ⟨⟨howned.closing, hc, howned.agrees.filter_kept hc ho⟩, ?_⟩
        have hopener := howned.agrees.opener
        rw [ho, Copies.before, hc] at hopener
        obtain ⟨b, hb, howner⟩ := Option.map_eq_some_iff.1 hopener.symm
        exact ⟨b, mem_retainedOf.2 ⟨hb, howner⟩⟩
      · refine Or.inl ?_
        rw [hp.kept, Option.filter_none, ← hp.kept]
        exact hp
  · have hsame := hp.forgotten h.proper ho
    rw [hsame]
    refine hp.restage rfl (fun b hb => ?_) fun hoa => absurd hoa ho
    obtain ⟨hk, howner⟩ := mem_retainedOf.1 hb
    rw [show (s.copies q).kept = some b from hk, Option.filter_some, if_neg (by simp [howner])] at hsame
    cases hsame

theorem restoreRetained {b : BeforeImage} {rest : List (PageId × BeforeImage)}
    (h : Standing (e.goto (.returning ((page, b) :: rest)) :: others) s₀ uses s) (hundo : Undone e.txn s.trace) :
    (Action.restoreRetained page b).Ends s
      (fun _ s' => Standing (e.goto (.returning rest) :: others) s₀ uses s' ∧ Onward Effect.Writes s s')
      fun _ _ => False := by
  obtain ⟨hcommits, hin⟩ := h.proper _ (List.mem_cons_self ..)
  obtain ⟨htable, hlen⟩ := hin _ (List.mem_cons_self ..)
  obtain ⟨ho, himage⟩ := (h.pages page).owed _ (List.mem_cons_self ..) b (List.mem_cons_self ..)
  have hproper : (e.goto (.returning rest)).Proper s₀ := ⟨hcommits, fun x hx => hin x (List.mem_cons_of_mem _ hx)⟩
  unfold Action.restoreRetained
  refine ends_putBack (h.off page) htable (hlen.trans (congrArg Config.pageSize h.ground.config).symm)
    (.restored e.txn ho himage hundo.undoing) fun v hgrown h₁ hcopies => ?_
  rw [ends_modifyPool]
  have h₂ : Invariant s₀ _ (Off page (Parted (e.goto (.returning rest) :: others) s.mode? uses)) _ :=
    h₁.mono fun q hq hne => (hq hne).restage rfl (fun _ hb => List.mem_cons_of_mem _ hb) fun _ =>
      Or.imp_right (And.imp_right fun hin => exists_mem_of_ne hin hne)
  refine ⟨h.goOn hproper (Invariant.congr (h₂.on ?_) rfl rfl rfl rfl rfl rfl rfl rfl) rfl,
    ⟨(Grown.refl _).cons (.wrote page b.bytes) trivial, rfl, hgrown⟩⟩
  have hacc : account s₀.onFile (Effect.wrote page b.bytes :: s.trace) page =
      { account s₀.onFile s.trace page with outside := none } := if_pos rfl
  show Parted _ _ _ page _ (account s₀.onFile (_ :: s.trace) page)
  rw [hcopies, hacc]
  refine (h.pages page).takeUp h.txn_ne ho rfl (fun b' hb => ?_) rfl (Or.inl ?_)
  · exact ((h.pages page).owed _ (List.mem_cons_self ..) b' (List.mem_cons_of_mem _ hb)).2
  · rcases ((h.pages page).ended _ (List.mem_cons_self ..) ho).2 with hp | ⟨hp, -⟩
    · exact ⟨⟨hp.opener, hp.own⟩, hp.kept, hp.cached, himage⟩
    · refine ⟨⟨hp.opener, hp.own⟩, hp.kept, fun c hc => ?_, himage⟩
      rw [show (s.copies page).cached = none from hp.cached] at hc
      cases hc

theorem logAbort (h : Standing (e.goto (.returning []) :: others) s₀ uses s) :
    Standing (e.goto .forcing :: others) s₀ uses
      { s with log := s.log.append (.abort e.txn), trace := .logged (.abort e.txn) :: s.trace } := by
  obtain ⟨⟨hcommits, hpinned⟩, -⟩ := h.proper _ (List.mem_cons_self ..)
  have h₁ := h.same (h.toInvariant.append (.abort e.txn) trivial) rfl
  refine h₁.restage _ (fun _ => hpinned) (fun _ hy => hy) fun q _ hp => ?_
  exact (iff_of_eq (if_neg fun hc => Bool.noConfusion (hcommits.symm.trans hc))).2 hp

/-! ## Transactions that have ended -/

/-- Once all its pages are written, a transaction has committed. -/
theorem settleCommit (h : Standing (e.goto .settling :: others) s₀ uses s) (hcommits : e.commits = true) :
    Standing (e.letGo .unlocking :: others) s₀ uses
      { s.modifyPool (fun p => p.forget e.txn) with trace := .completed e.txn true :: s.trace } := by
  have hidle : ∀ q, s.mode? e.txn q = some .write → ∀ v, ¬WorksOn uses q v := fun q hm =>
    h.idle (h.away _ (List.mem_cons_self ..)) hm
  refine Standing.conclude (e := e.goto .settling) (s.modifyPool fun p => p.forget e.txn) h
    (h.proper _ (List.mem_cons_self ..)) (h.toInvariant.forget e.txn _ fun q hp => ?_) rfl fun u q hu ht => ?_
  · refine hp.conclude h.txn_ne (fun ho hm hhas => ?_) fun ho => ?_
    · have hm : s.mode? e.txn q = some .write := hm
      rcases (iff_of_eq (if_pos hcommits)).1 hhas with ⟨howned, hin⟩ | ⟨htaken, hin⟩
      · have hc : (s.copies q).cached = none := Classical.byContradiction fun hc => by
          obtain ⟨g, hg⟩ := hin hc
          cases hg
        have hfilter : (s.copies q).kept.filter (fun b => b.owner ≠ e.txn) = none := howned.agrees.filter_kept hc ho
        rw [hfilter]
        show Agree s.mode? uses q ⟨(s.copies q).cached, none, (s.copies q).file⟩ _
        rw [hc]
        exact (howned.toAgrees hm (hidle q hm)).completeKept (hidle q hm) hc ho
      · rw [htaken.kept, Option.filter_none, ← htaken.kept]
        refine htaken.complete (hidle q hm) fun c hc => Classical.byContradiction fun hd => ?_
        obtain ⟨g, hg⟩ := hin c hc hd
        cases hg
    · have hfilter : (s.copies q).kept.filter (fun b => b.owner ≠ e.txn) = _ := hp.forgotten h.proper ho
      rw [hfilter]
  · refine Classical.byContradiction fun hown => hu ?_
    have hp := h.pages q
    exact h.locks.eq_of_write (hp.locked (hp.own hown)) (h.touched u q ht)

/-- Once all its pages are restored, a transaction is undone. -/
theorem settleAbort (h : Standing (e.goto .settling :: others) s₀ uses s) (hcommits : e.commits = false) :
    Standing (e.letGo .unlocking :: others) s₀ uses { s with trace := .completed e.txn false :: s.trace } := by
  have hidle : ∀ q, s.mode? e.txn q = some .write → ∀ v, ¬WorksOn uses q v := fun q hm =>
    h.idle (h.away _ (List.mem_cons_self ..)) hm
  refine Standing.conclude (e := e.goto .settling) s h (h.proper _ (List.mem_cons_self ..))
    (h.toInvariant.mono fun q hp => hp.conclude h.txn_ne (fun _ hm hhas => ?_) fun _ => rfl) rfl trivial
  rcases (iff_of_eq (if_neg fun hc => Bool.noConfusion (hcommits.symm.trans hc))).1 hhas with hp | ⟨-, b, hb⟩
  · exact hp.complete (hidle q hm)
  · cases hb

/-! ## Whole commits and rollbacks -/

theorem commit_concludes (h : Standing others s₀ uses s) (haway : ∀ u ∈ uses, ∀ m, u.holder ≠ some (t, m))
    (hne : ∀ o ∈ others, o.txn ≠ t) :
    (Action.commit t (s.pool.locks.lockedBy t)).Ends s
      (fun _ s' => Standing (⟨t, true, false, [], .unlocking⟩ :: others) s₀ uses s' ∧ Concludes t true s s')
      fun _ _ => False := by
  let e : Ending := ⟨t, true, false, cachedOf s.pool (s.pool.locks.lockedBy t),
    .logging (cachedOf s.pool (s.pool.locks.lockedBy t))⟩
  have hstart := h.enlist (e := e) haway hne rfl ⟨rfl, fun _ hx => hx⟩ rfl fun _ _ _ ho hc => Or.inl ⟨ho, hc⟩
  have hpin : Onward (Effect.LogsChange t) s (s.modifyPool fun p => e.pinned.foldl (fun p x => p.pin x.2) p) :=
    ⟨.refl _, Pool.locks_pinAll e.pinned s.pool, .refl _⟩
  unfold Action.commit withPinned
  rw [ends_bind, ends_bind, ends_get, ends_bind, ends_modifyPool, ends_andAlways, ends_bind]
  refine (ends_forM
    (fun rest s' => Standing (e.goto (.logging rest) :: others) s₀ uses s' ∧ Onward (Effect.LogsChange t) s s')
    (fun _ _ => False) (fun x rest s' h' => ?_) e.pinned _ ⟨hstart, hpin⟩).mono (fun _ s₁ h₁ => ?_) fun _ _ h' => h'
  · exact h'.1.logChange.mono (fun _ _ h'' => ⟨h''.1, h'.2.trans h''.2⟩) fun _ _ h'' => h''
  · obtain ⟨h₁, hlogs⟩ := h₁
    rw [ends_bind, ends_append, ends_bind, ends_force]
    have hforces : Forces (.commit t) s.trace (.forced :: .logged (.commit t) :: s₁.trace) :=
      Trails.forces (hlogs.trace.mono fun _ he => he.internal) (.commit t)
    refine (ends_forM
      (fun rest s' => Standing (e.goto (.writing rest) :: others) s₀ uses s' ∧ Onward Effect.Writes
        { s₁ with log := (s₁.log.append (.commit t)).force, trace := .forced :: .logged (.commit t) :: s₁.trace } s')
      (fun _ _ => False) (fun x rest s' h' => ?_) e.pinned _ ⟨h₁.logCommit.force, .refl _⟩).mono
      (fun _ s₂ h₂ => ?_) fun _ _ h' => h'
    · have htrails : Trails _ s'.trace := h'.2.trace.mono fun _ he => he.internal
      refine (h'.1.writeTaken (htrails.forcedSince hforces.forcedSince)).mono (fun _ _ h'' => ?_) fun _ _ h'' => h''
      exact ⟨h''.1, h'.2.trans h''.2⟩
    · obtain ⟨h₂, hwrites⟩ := h₂
      rw [ends_bind, ends_modifyPool, ends_note]
      refine ⟨h₂.letGoWritten.settleCommit (e := e.letGo .settling) rfl, ⟨_, rfl, ?_⟩, ?_, hlogs.files.trans hwrites.files⟩
      · obtain ⟨writes, htrace, hw⟩ := hwrites.trace
        exact ⟨writes, s₁.trace, htrace, hw, hlogs.trace⟩
      · exact (Pool.locks_unpinAll e.pinned s₂.pool).trans (hwrites.locks.trans hlogs.locks)

theorem rollback_concludes (h : Standing others s₀ uses s) (haway : ∀ u ∈ uses, ∀ m, u.holder ≠ some (t, m))
    (hne : ∀ o ∈ others, o.txn ≠ t) :
    (Action.rollback t (s.pool.locks.lockedBy t)).Ends s
      (fun _ s' => Standing (⟨t, false, false, [], .unlocking⟩ :: others) s₀ uses s' ∧ Concludes t false s s')
      fun _ _ => False := by
  let e : Ending := ⟨t, false, false, cachedOf s.pool (s.pool.locks.lockedBy t),
    .restoring (cachedOf s.pool (s.pool.locks.lockedBy t))⟩
  let s₁ : Store := { s with trace := .undoing t :: s.trace }
  have h₁ : Standing others s₀ uses s₁ :=
    h.same (h.toInvariant.note s.log trivial (fun _ _ ht => Or.inl ht) (fun _ hp => hp) fun _ _ hu => Or.inl hu.2) rfl
  have hstart := h₁.enlist (e := e) haway hne rfl ⟨rfl, fun _ hx => hx⟩ rfl fun _ _ _ ho hc => Or.inl ⟨ho, hc⟩
  have hundo : Undone t s₁.trace := ⟨⟨[], s.trace, rfl, List.not_mem_nil⟩, fun page hu => hu.1 rfl⟩
  have hpin : Onward Effect.Writes s₁ (s₁.modifyPool fun p => e.pinned.foldl (fun p x => p.pin x.2) p) :=
    ⟨.refl _, Pool.locks_pinAll e.pinned s.pool, .refl _⟩
  unfold Action.rollback withPinned
  rw [ends_bind, ends_note, ends_bind, ends_bind, ends_get, ends_bind, ends_modifyPool, ends_andAlways]
  refine (ends_forM
    (fun rest s' => Standing (e.goto (.restoring rest) :: others) s₀ uses s' ∧ Onward Effect.Writes s₁ s')
    (fun _ _ => False) (fun x rest s' h' => ?_) e.pinned _ ⟨hstart, hpin⟩).mono (fun _ s₂ h₂ => ?_) fun _ _ h' => h'
  · refine (h'.1.restorePage (hundo.grown h'.2.trace)).mono (fun _ _ h'' => ?_) fun _ _ h'' => h''
    exact ⟨h''.1, h'.2.trans h''.2⟩
  · obtain ⟨h₂, hwrites⟩ := h₂
    have h₃ := h₂.letGoRestored.collect (e := e.letGo .collecting)
    rw [ends_bind, ends_get, ends_bind, ends_modifyPool, ends_bind]
    refine (ends_forM
      (fun rest s' => Standing ((e.letGo .collecting).goto (.returning rest) :: others) s₀ uses s' ∧
        Onward Effect.Writes s₂ s')
      (fun _ _ => False) (fun x rest s' h' => ?_) _ _ ⟨h₃, ⟨.refl _, Pool.locks_unpinAll e.pinned s₂.pool, .refl _⟩⟩).mono
      (fun _ s₄ h₄ => ?_) fun _ _ h' => h'
    · refine (h'.1.restoreRetained (hundo.grown (hwrites.trans h'.2).trace)).mono (fun _ _ h'' => ?_) fun _ _ h'' => h''
      exact ⟨h''.1, h'.2.trans h''.2⟩
    · obtain ⟨h₄, hreturns⟩ := h₄
      rw [ends_bind, ends_append, ends_bind, ends_force, ends_note]
      have hcloses : Grown (Effect.Closes t false) s.trace s₄.trace :=
        ((Grown.refl _).cons (.undoing t) (Or.inr rfl)).trans ((hwrites.trans hreturns).trace.mono fun _ he => Or.inl he)
      exact ⟨h₄.logAbort.force.settleAbort (e := e.letGo .collecting) rfl, ⟨_, rfl, [], s₄.trace, rfl, nofun, hcloses⟩,
        hreturns.locks.trans hwrites.locks, hwrites.files.trans hreturns.files⟩

end Standing

/-! ## Completion -/

/-- What the trace says of the end of a transaction: nothing but work of the cache before it, the record in
the log forced, and the locks given up last. -/
structure Finished (t : TxnId) (commits : Bool) (s s' : Store) : Prop where
  trace : ∃ past, s'.trace = .unlocked t :: .completed t commits :: past ∧ Forces (endRecord t commits) s.trace past
  locks : s'.pool.locks = s.pool.locks.releaseAll t
  files : s.volume.Extends s'.volume

/-- The same, with what has happened in its order. -/
structure Finishes (t : TxnId) (commits : Bool) (s s' : Store) : Prop where
  trace : ∃ past, s'.trace = .unlocked t :: .completed t commits :: past ∧ Sealed t commits s.trace past
  locks : s'.pool.locks = s.pool.locks.releaseAll t
  files : s.volume.Extends s'.volume

theorem Finishes.finished {s s' : Store} (h : Finishes t commits s s') : Finished t commits s s' := by
  obtain ⟨⟨past, htrace, hsealed⟩, hlocks, hfiles⟩ := h
  exact ⟨⟨past, htrace, hsealed.forces⟩, hlocks, hfiles⟩

theorem Standing.complete_finishes (h : Standing others s₀ uses s)
    (haway : ∀ u ∈ uses, ∀ m, u.holder ≠ some (t, m)) (hne : ∀ o ∈ others, o.txn ≠ t) (wantsCommit : Bool) :
    (Action.complete t wantsCommit).Ends s
      (fun _ s' => Standing others s₀ uses s' ∧ Finishes t wantsCommit s s' ∧
        (wantsCommit = true → s.pool.isDoomed t = false))
      fun e s' => Standing others s₀ uses s' ∧ Finishes t false s s' ∧
        e = .deadlock t ∧ wantsCommit = true ∧ s.pool.isDoomed t = true := by
  have h₁ : Standing others s₀ uses (s.modifyPool fun p => p.pardon t) :=
    h.same (h.toInvariant.congr rfl rfl rfl rfl rfl rfl rfl rfl) rfl
  have hend : ∀ (commits : Bool) {s' : Store}, Standing (⟨t, commits, false, [], .unlocking⟩ :: others) s₀ uses s' →
      Concludes t commits (s.modifyPool fun p => p.pardon t) s' → ∀ g : Counters → Counters,
      Standing others s₀ uses ((Action.unlock t s').modifyPool fun p => p.count g) ∧
        Finishes t commits s ((Action.unlock t s').modifyPool fun p => p.count g) := by
    rintro commits s' h' ⟨⟨past, htrace, hsealed⟩, hlocks, hfiles⟩ g
    have htouched : ∀ page, ¬Touched t page s'.trace := fun page ht => by
      rw [htrace] at ht
      exact ht.1 rfl
    have hforced : ForcedSince t (endRecord t commits) s'.trace := htrace ▸ hsealed.forces.forcedSince.cons nofun
    have hlaw : ForcedSince t (.commit t) s'.trace ∨ ForcedSince t (.abort t) s'.trace := by
      cases commits with
      | true => exact Or.inl hforced
      | false => exact Or.inr hforced
    have h'' := h'.unlock (e := ⟨t, commits, false, [], .unlocking⟩) htouched hlaw
    refine ⟨h''.count g, ⟨past, ?_, hsealed⟩, ?_, hfiles⟩
    · show Effect.unlocked t :: s'.trace = _
      rw [htrace]
    · show s'.pool.locks.releaseAll t = _
      rw [hlocks]
      rfl
  unfold Action.complete
  rw [ends_bind, ends_get]
  dsimp only
  rw [ends_bind, ends_modifyPool]
  split
  · rename_i hc
    rw [Bool.and_eq_true, Bool.not_eq_true'] at hc
    rw [ends_bind, ends_andAlways]
    refine (h₁.commit_concludes haway hne).mono (fun _ s' h' => ?_) fun _ _ h' => h'.elim
    rw [ends_modifyPool]
    obtain ⟨h', hfin⟩ := hend true h'.1 h'.2 fun c => { c with commits := c.commits + 1 }
    rw [hc.1]
    exact ⟨h', hfin, fun _ => hc.2⟩
  · rename_i hc
    rw [ends_bind, ends_andAlways]
    refine (h₁.rollback_concludes haway hne).mono (fun _ s' h' => ?_) fun _ _ h' => h'.elim
    rw [ends_bind, ends_modifyPool]
    obtain ⟨h', hfin⟩ := hend false h'.1 h'.2 fun c => { c with aborts := c.aborts + 1 }
    cases wantsCommit with
    | true =>
      simp only [Bool.true_and, Bool.not_eq_true', Bool.not_eq_false] at hc
      exact ⟨h', hfin, rfl, rfl, hc⟩
    | false => exact ⟨h', hfin, nofun⟩

/-! ## Ends beside no others -/

namespace Stands

variable (h : Stands s₀ uses s) (haway : ∀ u ∈ uses, ∀ m, u.holder ≠ some (t, m))

include h haway

theorem complete_finishes (wantsCommit : Bool) :
    (Action.complete t wantsCommit).Ends s
      (fun _ s' => Stands s₀ uses s' ∧ Finishes t wantsCommit s s' ∧
        (wantsCommit = true → s.pool.isDoomed t = false))
      fun e s' => Stands s₀ uses s' ∧ Finishes t false s s' ∧
        e = .deadlock t ∧ wantsCommit = true ∧ s.pool.isDoomed t = true := by
  rw [← standing_nil] at h ⊢
  exact h.complete_finishes haway nofun wantsCommit

/-- A transaction ends. A commit is refused only to a doomed transaction, which is rolled back. -/
theorem complete (wantsCommit : Bool) :
    (Action.complete t wantsCommit).Ends s
      (fun _ s' => Stands s₀ uses s' ∧ Finished t wantsCommit s s' ∧
        (wantsCommit = true → s.pool.isDoomed t = false))
      fun e s' => Stands s₀ uses s' ∧ Finished t false s s' ∧
        e = .deadlock t ∧ wantsCommit = true ∧ s.pool.isDoomed t = true :=
  (h.complete_finishes haway wantsCommit).mono (fun _ _ hs => ⟨hs.1, hs.2.1.finished, hs.2.2⟩)
    fun _ _ hs => ⟨hs.1, hs.2.1.finished, hs.2.2⟩

end Stands

end TupleStore
