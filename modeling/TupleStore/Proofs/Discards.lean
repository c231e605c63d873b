import TupleStore.Proofs.Events
import TupleStore.Proofs.Pool.Concluding

/-!
# Pages discarded at any moment

Pages are dropped from the cache, unwritten, while they are clean or dirty, and while guards are held on them whose
holders go on with their work. This does not endanger the rollback of a transaction.

* `World.draftsAfter` : what every page is to hold after some events. What is done through a guard that has lost its
  page does not count (`Op.counts`);
* `World.KeepsTo` : a world keeps to this, and goes on doing so when a page is fetched or discarded and when a
  transaction ends. It holds whatever has happened (`World.handleAll_keepsTo`).
-/

namespace TupleStore

set_option autoImplicit false

open TupleStore.Action

/-! ## Drafts along a run -/

/-- What can happen beside the operations of a run: pages are discarded. -/
def Event.Tame : Event → Prop
  | .op o => o.Cached
  | .discard _ => True
  | _ => False

/-- Whether a call marks its page in the end. -/
def Call.marks : Call → Bool
  | .insert _ marks => marks
  | .delete _ marks => marks
  | _ => false

namespace World

/-- A page in use has left its frame. -/
def hasLost (w : World) (u : Use) : Bool := (w.store.pool.frame u.frame).page = none

/-- A transaction has gone astray on a page: a call that marks its page in the end had the page in use to write when
it was discarded. -/
def Strays (w : World) (page : PageId) (t : TxnId) : Prop :=
  ∃ c, .call c ∈ w.tasks ∧ c.marks = true ∧ ∃ u ∈ c.uses w.store, u.page = page ∧ u.holder = some (t, .write) ∧
    w.hasLost u = true

/-- What has happened from one world to another. -/
def since (w w' : World) : List Effect := w'.store.trace.take (w'.store.trace.length - w.store.trace.length)

end World

/-- Whether what is done to pages counts: not if it is done through a frame that its page has left. A flush does
nothing that could count. -/
def Op.counts (w : World) : Op → Bool
  | .advance i =>
    match w.tasks[i]? with
    | none => true
    | some (.flush _) => false
    | some task => !(task.uses w.store).any w.hasLost
  | .patch i _ _ => !(w.guards[i]?).any fun g => w.hasLost g.use
  | .drop i => !(w.guards[i]?).any fun g => w.hasLost g.use
  | _ => true

/-- What every page is to hold after an event. -/
def Event.drafts (w : World) (d : PageId → Draft) : Event → PageId → Draft
  | .op o => if o.counts w then TupleStore.drafts d (w.since (w.apply o)) else d
  | .discard page => fun q => if q = page then (d q).discard (w.store.onFile q) else d q
  | _ => d

namespace World

/-- What every page is to hold after many events. -/
def draftsAfter : List Event → World → (PageId → Draft) → PageId → Draft
  | [], _, d => d
  | e :: events, w, d => draftsAfter events (w.handle e) (e.drafts w d)

/-- A world keeps to drafts of all pages. -/
structure KeepsTo (w : World) (d : PageId → Draft) : Prop where
  cached : ∀ page c, (w.store.copies page).cached = some c → c.bytes = (d page).current
  uncached : ∀ page, (w.store.copies page).cached = none → w.store.onFile page = (d page).current
  /-- The file has nothing that was not given to the page. -/
  given : ∀ page, w.store.onFile page ∈ (d page).given
  /-- A page that no transaction has open has the same content everywhere. -/
  settled : ∀ page, (d page).owner = none →
    (d page).current = (d page).committed ∧ w.store.onFile page = (d page).committed
  /-- A page that is fetched has the bytes of its file. -/
  fetched : ∀ page, (w.store.copies page).cached = none → (Action.fetch page).Ends w.store
    (fun f s => (s.pool.frame f).page = some page ∧ (s.pool.frame f).bytes = w.store.onFile page) fun _ _ => True
  /-- A page that is discarded is not cached any more, and whoever uses it has lost it. Nothing else changes. -/
  discarded : ∀ page, ((w.handle (.discard page)).store.copies page).cached = none ∧
    (∀ q, q ≠ page → (w.handle (.discard page)).store.copies q = w.store.copies q) ∧
    (∀ q, (w.handle (.discard page)).store.onFile q = w.store.onFile q) ∧
    ∀ u ∈ w.uses w.store, u.page = page → (w.handle (.discard page)).hasLost u = true
  /-- Whoever has lost a page does not get it back. -/
  lost : ∀ u ∈ w.uses w.store, w.hasLost u = true → ∀ e : Event, e.Tame → (w.handle e).hasLost u = true
  /-- What is done through a frame that its page has left reaches no other frame and no file. -/
  strayed : ∀ op : Op, op.Cached → op.counts w = false → ∀ page,
    (∀ c, ((w.apply op).store.copies page).cached = some c → c.bytes = (d page).current) ∧
      (((w.apply op).store.copies page).cached = none → (w.apply op).store.onFile page = (d page).current) ∧
      (w.apply op).store.onFile page ∈ (d page).given
  /-- What is written through a guard that has lost its page shows in no copy of any page. -/
  orphaned : ∀ i g, w.guards[i]? = some g → w.hasLost g.use = true → ∀ page,
    (∀ off data, (w.apply (.patch i off data)).store.copies page = w.store.copies page) ∧
      (w.apply (.drop i)).store.copies page = w.store.copies page
  /-- The page of a transaction that ends has its content from before it, or what is in its draft, and so has a copy
  of it in the cache. -/
  completed : ∀ t wantsCommit page, w.uses? t = false → (d page).owner = some t →
    let bytes := if wantsCommit && !w.store.pool.isDoomed t then (d page).current else (d page).committed
    (w.apply (.complete t wantsCommit)).store.onFile page = bytes ∧
      ∀ c, ((w.apply (.complete t wantsCommit)).store.copies page).cached = some c → c.bytes = bytes

end World

variable {s₀ s : Store} {w : World} {stray : PageId → TxnId → Prop} {d first : PageId → Draft} {uses : List Use}
  {page : PageId} {t : TxnId}

/-! ## Operations -/

/-- What a run is made of keeps to the drafts. -/
theorem stewardship_keeping {k : Grip} (hk : k ≠ .any) (stray : PageId → TxnId → Prop) (first : PageId → Draft)
    (s₀ : Store) (past : List Effect) (gone : List FrameId) :
    Stewardship k s₀ (fun t page => k = .lost → stray page t) (fun t page s => stray page t ∨ (s.copies page).Bears t)
      (Keeping k stray first s₀ past gone) where
  toCustody := custody_keeping hk stray first s₀ past gone
  startFlush {uses s} only pages h := by
    obtain ⟨h₁, hstill⟩ := h.whole.pinAll (cachedOf s.pool pages) fun x hx =>
      (h.whole.balanced.pool.mapped _ _).1 (mem_cachedOf.1 hx).2
    unfold Flush.start
    rw [ends_bind, ends_get, ends_bind, ends_modifyPool, ends_pure]
    refine ⟨rfl, h.mono hstill.trace hstill.frames (fun _ f _ hf => ?_) fun _ hh =>
      hh.still hstill h₁ (Store.worksOn_pinsOf _ s uses)⟩
    rw [List.map_append]
    exact List.mem_append_right _ hf
  flush {uses s fl} _ hne h hr := by
    have hlost : k = .lost := by cases k <;> first | rfl | exact absurd rfl hk | exact absurd rfl hne
    have hunpin : ∀ {s : Store}, Keeping k stray first s₀ past gone (pinsOf fl.pinned ++ uses) s →
        Keeping k stray first s₀ past gone uses (fl.unpinAll s) := fun {s} h => by
      obtain ⟨h₁, hstill⟩ := Store.Whole.unpinAll fl.pinned h.whole
      exact h.mono hstill.trace hstill.frames (fun hn => absurd hlost hn) fun _ hh =>
        hh.still hstill h₁ fun page t => (Store.worksOn_pinsOf fl.pinned s uses page t).symm
    unfold Flush.step
    split
    · exact hunpin h
    · rename_i page f rest hrest
      have hin : ∀ x ∈ rest, x ∈ fl.pinned := fun x hx => hr x (hrest ▸ List.mem_cons_of_mem _ hx)
      rw [ends_bind, ends_get]
      dsimp only
      split
      · exact ⟨hin, h⟩
      · split
        · rw [ends_bind, ends_orElseDo]
          refine (h.whole.writeBack f page).mono (fun _ s' h' => ⟨hin, ?_⟩) fun _ _ h' => h'.elim
          obtain ⟨h', hserves, hframes, -⟩ := h'
          exact h.serve hserves h' (fun _ _ => Iff.rfl) (fun f _ => hframes f) fun _ _ _ => id
        · exact ⟨hr, h⟩
  complete {uses s t} wantsCommit _ hne h haway := by
    obtain rfl : k = .firm := by cases k <;> first | rfl | exact absurd rfl hk | exact absurd rfl hne
    obtain ⟨⟨more, hmore, hh⟩, hempty, hheld⟩ := h
    have hend : ∀ (commits : Bool) {s' : Store}, s'.Whole s₀ uses none → s.Settles s' t commits →
        Keeping .firm stray first s₀ past gone uses s' := fun commits {s'} hw hs => by
      obtain ⟨past', htrace, more', hmore', hquiet⟩ := hs.trace
      refine ⟨⟨.unlocked t :: .completed t commits :: (more' ++ more), ?_, ?_⟩,
        fun f hf => (hs.frames f).trans (hempty f hf), hheld⟩
      · rw [htrace, hmore', hmore, List.cons_append, List.cons_append, List.append_assoc]
      · have hdrafts : Grip.firm.drafts first (more' ++ more) = Grip.firm.drafts first more :=
          Grip.firm.drafts_of_quiet first hquiet
        have hhonors := hh.complete haway hs hw
        rw [← hdrafts] at hhonors
        exact hhonors
    exact (hh.whole.complete haway wantsCommit).mono (fun _ s' h' => hend wantsCommit h'.1 h'.2.1)
      fun _ s' h' => hend false h'.1 h'.2.1

/-! ## One event -/

/-- The parts of a world keep to drafts. -/
def World.Promised (s₀ : Store) (stray : PageId → TxnId → Prop) (d : PageId → Draft) (w : World) : Prop :=
  w.Kept s₀ (fun _ => True) fun uses s => s.Honors s₀ stray d uses

theorem Request.eq_of_uses {r : Request} {u v : Use} (hu : u ∈ r.uses) (hv : v ∈ r.uses) : u = v := by
  unfold Request.uses at hu hv
  split at hu
  · exact (List.not_mem_nil hu).elim
  · exact (List.not_mem_nil hu).elim
  · rename_i hs
    rw [hs] at hv
    exact (List.mem_singleton.1 hu).trans (List.mem_singleton.1 hv).symm
  · rename_i hs
    rw [hs] at hv
    exact (List.mem_singleton.1 hu).trans (List.mem_singleton.1 hv).symm

theorem Request.page_of_uses {r : Request} {u : Use} (hu : u ∈ r.uses) : u.page = r.page := by
  unfold Request.uses at hu
  split at hu
  · exact (List.not_mem_nil hu).elim
  · exact (List.not_mem_nil hu).elim
  · rw [List.mem_singleton.1 hu]
  · rw [List.mem_singleton.1 hu]

/-- A call uses one page at a time. -/
theorem Call.eq_of_uses {c : Call} {u v : Use} (hu : u ∈ c.uses s₀) (hv : v ∈ c.uses s₀) : u = v := by
  have hat : ∀ {t : TxnId} {target asking}, u ∈ usesAt t target asking → v ∈ usesAt t target asking → u = v := by
    intro t target asking hu hv
    unfold usesAt at hu hv
    split at hu
    · exact (List.not_mem_nil hu).elim
    · exact Request.eq_of_uses hu hv
  cases c with
  | read r => exact Request.eq_of_uses hu hv
  | write r _ => exact Request.eq_of_uses hu hv
  | insert i _ => exact hat hu hv
  | delete d _ => exact hat hu hv
  | scan c => exact hat hu hv

/-- All pages in use are in their frames, or the one that is used has left its frame. -/
theorem Grip.holds_of_used {asking : RequestStage} (hused : ∀ u ∈ uses, (w.store.pool.frame u.frame).page = some u.page ∨
      (w.store.pool.frame u.frame).page = none) (hone : ∀ u ∈ uses, ∀ v ∈ uses, u = v)
    (hpinned : ∀ u ∈ uses, asking.isPinned = true) :
    Grip.Holds (if !uses.any w.hasLost then .firm else .lost) w.store asking uses := by
  cases hany : uses.any w.hasLost with
  | true =>
    obtain ⟨u, hu, hnone⟩ := List.any_eq_true.1 hany
    refine ⟨fun v hv => ?_, fun _ => hpinned u hu⟩
    obtain rfl := hone u hu v hv
    show (w.store.pool.frame u.frame).page = none
    exact of_decide_eq_true hnone
  | false =>
    refine ⟨fun u hu => (hused u hu).resolve_right fun hnone => ?_, nofun⟩
    exact List.any_eq_false.1 hany u hu (decide_eq_true hnone)

theorem World.since_eq {w' : World} {more : List Effect} (h : w'.store.trace = more ++ w.store.trace) :
    w.since w' = more := by
  rw [World.since, h, List.length_append, Nat.add_sub_cancel, List.take_left]

namespace World.Promised

variable (h : w.Promised s₀ stray d)

include h

theorem task_uses (task : Task) : task.uses w.store = task.uses s₀ :=
  Task.uses_congr fun hd _ => Balanced.id_of_extends h.store.whole.ground.grown hd

theorem uses_eq : w.uses w.store = w.uses s₀ :=
  congrArg (w.guards.map Guard.use ++ ·) (List.flatMap_congr fun task _ => h.task_uses task)

theorem on_guard {i : Nat} {g : Guard} (hi : w.guards[i]? = some g) :
    Grip.On (if !(w.guards[i]?).any fun g => w.hasLost g.use then .firm else .lost) w.store g.use := by
  have hin : g.use ∈ w.uses s₀ := List.mem_append_left _ (List.mem_map_of_mem (List.mem_of_getElem? hi))
  have hholds : Grip.Holds (if !([g.use].any w.hasLost) then .firm else .lost) w.store (.entered g.frame) [g.use] :=
    Grip.holds_of_used (fun u hu => h.store.whole.used u (List.mem_singleton.1 hu ▸ hin))
    (fun u hu v hv => (List.mem_singleton.1 hu).trans (List.mem_singleton.1 hv).symm) fun _ _ => rfl
  rw [hi]
  simpa using hholds.on g.use (List.mem_singleton_self _)

/-- A call that has lost its page marks it as one who has gone astray. -/
theorem may {c : Call} (hin : .call c ∈ w.tasks) (hlost : (c.uses w.store).any w.hasLost = true)
    (hstray : ∀ page t, w.Strays page t → stray page t) : c.May s₀ fun t page => stray page t := by
  obtain ⟨u, hu, hlost⟩ := List.any_eq_true.1 hlost
  have huses : c.uses w.store = c.uses s₀ := h.task_uses (.call c)
  have hs₀ : u ∈ c.uses s₀ := huses ▸ hu
  have hat : ∀ {v target asking page}, c.marks = true → u ∈ usesAt v target asking → target = some (page, .write) →
      stray page v := by
    rintro v target asking page hc hu' rfl
    exact hstray page v ⟨c, hin, hc, u, hu, Request.page_of_uses hu', (use_of_request hu').1, hlost⟩
  unfold Call.May
  split
  · exact fun page ht => hat rfl hs₀ ht
  · exact fun page ht => hat rfl hs₀ ht
  · trivial

/-- What is to be known of frames for an operation is known, whether it counts or not. -/
theorem grips (op : Op) (hstray : ∀ page t, w.Strays page t → stray page t) :
    op.Grips (if op.counts w then .firm else .lost) s₀
      (fun t page => (if op.counts w then .firm else .lost) = Grip.lost → stray page t) w := by
  cases op with
  | advance i =>
    intro task hi
    have hused : ∀ u ∈ task.uses s₀, _ := fun u hu =>
      h.store.whole.used u (List.mem_append_right _ (List.mem_flatMap.2 ⟨task, List.mem_of_getElem? hi, hu⟩))
    simp only [Op.counts, hi]
    cases task with
    | ask r => exact Grip.holds_of_used hused (fun _ hu _ hv => r.eq_of_uses hu hv) fun _ hu => (use_of_request hu).2
    | call c =>
      show Grip.Holds (if !((Task.call c).uses w.store).any w.hasLost then .firm else .lost) w.store c.asking _ ∧ _
      refine ⟨?_, ?_⟩
      · rw [h.task_uses]
        exact Grip.holds_of_used hused (fun _ hu _ hv => c.eq_of_uses hu hv) fun _ hu => (use_of_call hu).2
      · cases hlost : ((Task.call c).uses w.store).any w.hasLost with
        | true => exact c.may_mono (h.may (List.mem_of_getElem? hi) hlost hstray) fun _ _ hs _ => hs
        | false => exact c.may_mono (c.may_any s₀) fun _ _ _ he => by simp [hlost] at he
    | flush _ => exact nofun
  | patch i _ _ => exact fun g hi => h.on_guard hi
  | drop i => exact fun g hi => h.on_guard hi
  | complete _ _ => exact nofun
  | iterate _ => exact nofun
  | _ => trivial

/-- What an operation does to the parts of the world, as a run of what it is made of. -/
theorem keeping {op : Op} (hop : op.Cached) (hstray : ∀ page t, w.Strays page t → stray page t) :
    (w.apply op).Kept s₀ (fun _ => True) (Keeping (if op.counts w then .firm else .lost) stray d s₀ w.store.trace
      (((w.uses s₀).filter w.hasLost).map Use.frame)) := by
  have hk : (if op.counts w then Grip.firm else .lost) ≠ .any := by
    split <;> exact nofun
  have hstart : w.Kept s₀ (fun _ => True) (Keeping (if op.counts w then .firm else .lost) stray d s₀ w.store.trace
      (((w.uses s₀).filter w.hasLost).map Use.frame)) := by
    refine ⟨.start h.store _ (fun f hf => ?_) (fun _ f hf => ?_), h.guards, h.tasks, h.handles⟩
    · obtain ⟨u, hu, rfl⟩ := List.mem_map.1 hf
      exact of_decide_eq_true (List.mem_filter.1 hu).2
    · obtain ⟨u, hu, rfl⟩ := List.mem_map.1 hf
      exact List.mem_map_of_mem (List.mem_filter.1 hu).1
  exact hstart.apply (stewardship_keeping hk stray d s₀ w.store.trace _) hop (h.grips op hstray) fun _ _ _ => trivial

/-- An operation adds to the trace. -/
theorem since_append {op : Op} (hop : op.Cached) (hstray : ∀ page t, w.Strays page t → stray page t) :
    w.since (w.apply op) ++ w.store.trace = (w.apply op).store.trace := by
  obtain ⟨⟨more, hmore, -⟩, -⟩ := (h.keeping hop hstray).store
  rw [since_eq hmore, hmore]

/-- An operation keeps the world to its drafts, and whoever has lost a page does not get it back. -/
theorem apply {op : Op} (hop : op.Cached) (hstray : ∀ page t, w.Strays page t → stray page t) :
    (w.apply op).Promised s₀ stray (Event.drafts w d (.op op)) ∧
      ∀ u ∈ w.uses s₀, w.hasLost u = true → (w.apply op).hasLost u = true := by
  have hend := h.keeping hop hstray
  obtain ⟨⟨more, hmore, hh⟩, hempty, -⟩ := hend.store
  have hdrafts : (if op.counts w then Grip.firm else .lost).drafts d more = Event.drafts w d (.op op) := by
    show _ = if op.counts w then drafts d (w.since (w.apply op)) else d
    rw [since_eq hmore]
    cases op.counts w <;> rfl
  refine ⟨⟨hdrafts ▸ hh, hend.guards, hend.tasks, hend.handles⟩, fun u hu hlost => ?_⟩
  exact decide_eq_true (hempty u.frame (List.mem_map_of_mem (List.mem_filter.2 ⟨hu, hlost⟩)))

end World.Promised

/-! ## Discards -/

/-- A page is discarded, whoever works on it. -/
theorem Store.Honors.discard (h : s.Honors s₀ stray d uses) (page : PageId) :
    (s.modifyPool fun p => p.discard page).Honors s₀ stray
      (fun q => if q = page then (d q).discard (s.onFile q) else d q) uses := by
  have hm := h.whole.balanced.pool.mapped
  have hlocks : (s.pool.discard page).locks = s.pool.locks := by
    unfold Pool.discard
    split <;> rfl
  refine ⟨h.whole.discard page, fun q => ?_⟩
  rw [Store.copies_discard hm, mode?_congr (s := s) hlocks]
  by_cases e : q = page
  · rw [if_pos e, if_pos e]
    refine (h.pages q).discard (fun t ⟨u, _, hp, _⟩ => ?_) fun hc t => ?_
    · rw [show ((s.modifyPool fun p => p.discard page).pool.frame u.frame).page = _ from Pool.page_discard hm page u.frame,
        e] at hp
      split at hp
      · cases hp
      · exact absurd hp (by assumption)
    · exact (h.whole.idle_of_uncached (Option.map_eq_none_iff.1 hc)).not_worksOn t
  · rw [if_neg e, if_neg e]
    refine (h.pages q).rebusy fun t => exists_congr fun u => and_congr_right fun _ => ?_
    rw [show ((s.modifyPool fun p => p.discard page).pool.frame u.frame).page = _ from Pool.page_discard hm page u.frame]
    refine and_congr_left fun _ => ?_
    split
    · rename_i hp
      rw [hp]
      exact ⟨nofun, fun hq => absurd (Option.some.inj hq).symm e⟩
    · exact Iff.rfl

namespace World.Promised

theorem handle (h : w.Promised s₀ stray d) {e : Event} (he : e.Tame)
    (hstray : ∀ page t, w.Strays page t → stray page t) :
    (w.handle e).Promised s₀ stray (e.drafts w d) ∧
      ∀ u ∈ w.uses s₀, w.hasLost u = true → (w.handle e).hasLost u = true := by
  cases e with
  | op op => exact h.apply he hstray
  | discard page =>
    refine ⟨⟨h.store.discard page, h.guards, h.tasks, h.handles⟩, fun u _ hlost => decide_eq_true ?_⟩
    refine (Pool.page_discard h.store.whole.balanced.pool.mapped page u.frame).trans ?_
    rw [of_decide_eq_true hlost, ite_self]
  | _ => exact he.elim

theorem handleAll {events : List Event} (h : w.Promised s₀ stray d) (htame : ∀ e ∈ events, e.Tame)
    (hstray : ∀ before, before <+: events → ∀ page t, (World.handleAll before w).Strays page t → stray page t) :
    (World.handleAll events w).Promised s₀ stray (draftsAfter events w d) := by
  induction events generalizing w d with
  | nil => exact h
  | cons e events ih =>
    have hnow := hstray [] (List.nil_prefix ..)
    refine ih (h.handle (htame e (List.mem_cons_self ..)) hnow).1 (fun e' he' => htame e' (List.mem_cons_of_mem _ he'))
      fun before hb => hstray (e :: before) ((List.prefix_cons_inj e).2 hb)

end World.Promised

/-! ## What is kept -/

/-- Nothing is left to be undone in a page that nobody has open. -/
theorem Copies.Drafted.of_unowned {mode : TxnId → Option LockMode} {busy stray : TxnId → Prop} {x : Copies} {d : Draft}
    (h : x.Drafted mode busy stray d) (hd : d.owner = none) : d.current = d.committed ∧ x.file = d.committed := by
  refine h.plain ?_
  cases hb : x.before with
  | none => rfl
  | some b => exact absurd (hd.symm.trans (h.owned b hb)) nofun

/-- A frame that holds no page has been worked on, and no copy of a page shows it. -/
structure Store.Hides (s : Store) (f : FrameId) (s' : Store) : Prop where
  maps : s'.pool.Maps
  empty : (s'.pool.frame f).page = none
  copies : ∀ page, s'.copies page = s.copies page

theorem Store.Hides.modifyFrame {s' : Store} {f : FrameId} (h : s.Hides f s') {c : Frame → Frame}
    (hpage : ∀ x, (c x).page = x.page) : s.Hides f (s'.modifyPool fun p => p.modifyFrame f c) := by
  have hkeeps := fun g => Pool.modifyFrame_keeps s'.pool f g Frame.page hpage
  refine ⟨fun page g => ?_, (hkeeps f).trans h.empty, fun page =>
    (Store.copies_modifyFrame_of_empty h.maps h.empty c page).trans (h.copies page)⟩
  show s'.pool.find? page = some g ↔ ((s'.pool.modifyFrame f c).frame g).page = some page
  rw [hkeeps, h.maps]

namespace Guard

variable {g : Guard}

/-- What is written through a guard that has lost its page is hidden, -/
theorem ends_write_lost (h : s.Hides g.frame s) (off : Nat) (data : Bytes) :
    (g.write off data).Ends s (fun _ s' => s.Hides g.frame s') fun _ _ => False := by
  have hbegin : g.beginChange.Ends s (fun g' s' => g'.frame = g.frame ∧ s.Hides g.frame s') fun _ _ => False := by
    unfold beginChange
    cases g.changed with
    | true => exact ⟨rfl, h⟩
    | false =>
      have h₁ := h.modifyFrame (c := fun x => x.capture g.txn) fun x => (x.capture_captured g.txn).page
      simp only [Bool.not_false, if_true, ends_bind, ends_modifyPool, ends_note, ends_pure]
      exact ⟨trivial, h₁.maps, h₁.empty, h₁.copies⟩
  unfold write
  cases g.mode with
  | read => exact h
  | write =>
    dsimp only
    rw [ends_bind]
    refine hbegin.mono (fun g' s' h' => ?_) fun _ _ => id
    obtain ⟨hframe, h'⟩ := h'
    rw [ends_bind, ends_get]
    cases (g'.bytes s').patch? off data with
    | none => exact h'
    | some bytes =>
      dsimp only
      unfold setBytes
      rw [ends_bind, ends_bind, ends_modifyPool, ends_note, ends_pure, hframe]
      have h₁ := h'.modifyFrame (c := fun x => { x with bytes }) fun _ => rfl
      exact ⟨h₁.maps, h₁.empty, h₁.copies⟩

/-- and so is its mark when it is given back. -/
theorem hides_giveBack (h : s.Hides g.frame s) : s.Hides g.frame (s.modifyPool g.giveBack) := by
  have hleave : ∀ {s' : Store}, s.Hides g.frame s' →
      s.Hides g.frame (s'.modifyPool fun p => (p.unpin g.frame).leave g.frame g.mode) := fun h' =>
    (h'.modifyFrame (c := fun x => { x with pins := x.pins - 1 }) fun _ => rfl).modifyFrame
      (c := fun x => { x with latch := x.latch.leave g.mode }) fun _ => rfl
  unfold giveBack
  cases g.changed with
  | false => exact hleave h
  | true => exact hleave (h.modifyFrame (c := fun x => { x with dirtyBy := some g.txn }) fun _ => rfl)

end Guard

namespace World.Promised

variable (h : w.Promised s₀ stray d)

include h

theorem onFile_of_uncached (hc : (w.store.copies page).cached = none) : w.store.onFile page = (d page).current :=
  (h.store.pages page).file_of_uncached hc (h.store.whole.idle_of_uncached (Option.map_eq_none_iff.1 hc)).not_worksOn

theorem fetched (hc : (w.store.copies page).cached = none) : (Action.fetch page).Ends w.store
    (fun f s => (s.pool.frame f).page = some page ∧ (s.pool.frame f).bytes = w.store.onFile page) fun _ _ => True := by
  refine (h.store.whole.fetch page none nofun).mono (fun f s h' => ⟨h'.2.2, ?_⟩) fun _ _ _ => trivial
  obtain ⟨hw, hserves, hf⟩ := h'
  have hh := h.store.serve hserves hw (Store.worksOn_cons_of_unchanged (u := ⟨f, page, none, false⟩) rfl s _)
  exact ((hh.pages page).content _ (Store.cached_eq hh.whole.balanced.pool.mapped hf)).trans (h.onFile_of_uncached hc).symm

theorem discarded (page : PageId) : ((w.handle (.discard page)).store.copies page).cached = none ∧
    (∀ q, q ≠ page → (w.handle (.discard page)).store.copies q = w.store.copies q) ∧
    (∀ q, (w.handle (.discard page)).store.onFile q = w.store.onFile q) ∧
    ∀ u ∈ w.uses w.store, u.page = page → (w.handle (.discard page)).hasLost u = true := by
  have hm := h.store.whole.balanced.pool.mapped
  have hcopies : ∀ q, (w.handle (.discard page)).store.copies q = _ := Store.copies_discard hm page
  refine ⟨?_, fun q hq => (hcopies q).trans (if_neg hq), fun q => rfl, fun u hu hp => decide_eq_true ?_⟩
  · rw [hcopies, if_pos rfl]
    unfold Copies.discard
    split
    · assumption
    · rfl
  · refine (Pool.page_discard hm page u.frame).trans ?_
    rw [h.uses_eq] at hu
    rcases h.store.whole.used u hu with hf | hf
    · rw [hf, hp, if_pos rfl]
    · rw [hf, ite_self]

theorem orphaned {i : Nat} {g : Guard} (hi : w.guards[i]? = some g) (hlost : w.hasLost g.use = true) (page : PageId) :
    (∀ off data, (w.apply (.patch i off data)).store.copies page = w.store.copies page) ∧
      (w.apply (.drop i)).store.copies page = w.store.copies page := by
  have hhidden : w.store.Hides g.frame w.store :=
    ⟨h.store.whole.balanced.pool.mapped, of_decide_eq_true hlost, fun _ => rfl⟩
  refine ⟨fun off data => ?_, ?_⟩
  · simp only [World.apply, hi]
    refine of_perform (P := fun w' => w'.store.copies page = w.store.copies page) ?_
    exact (Guard.ends_write_lost hhidden off data).mono (fun _ _ hs => hs.copies page) fun _ _ hs => hs.elim
  · simp only [World.apply, hi]
    exact of_perform (x := g.release) (P := fun w' => w'.store.copies page = w.store.copies page)
      ((Guard.hides_giveBack hhidden).copies page)

theorem completed (hu : w.uses? t = false) (wantsCommit : Bool) (ho : (d page).owner = some t) :
    let bytes := if wantsCommit && !w.store.pool.isDoomed t then (d page).current else (d page).committed
    (w.apply (.complete t wantsCommit)).store.onFile page = bytes ∧
      ∀ c, ((w.apply (.complete t wantsCommit)).store.copies page).cached = some c → c.bytes = bytes := by
  have haway := away_of_uses? s₀ hu
  have hend : ∀ (commits : Bool) {s' : Store}, s'.Whole s₀ (w.uses s₀) none → w.store.Settles s' t commits →
      s'.onFile page = (if commits then (d page).current else (d page).committed) ∧
        ∀ c, (s'.copies page).cached = some c →
          c.bytes = if commits then (d page).current else (d page).committed := fun commits {s'} hw hs => by
    have hp := (h.store.complete haway hs hw).pages page
    rw [Draft.complete, if_pos ho] at hp
    exact ⟨(hp.of_unowned rfl).2, hp.content⟩
  simp only [World.apply, hu, Bool.false_eq_true, if_false]
  refine of_perform (P := fun w' : World => w'.store.onFile page = _ ∧
    ∀ c, (w'.store.copies page).cached = some c → c.bytes = _) ?_
  refine (h.store.whole.complete haway wantsCommit).mono (fun _ s' h' => ?_) fun _ s' h' => ?_
  · obtain ⟨hw, hs, hclear⟩ := h'
    have hcommits : (wantsCommit && !w.store.pool.isDoomed t) = wantsCommit := by
      cases wantsCommit with
      | true => rw [hclear rfl]; rfl
      | false => rfl
    rw [hcommits]
    exact hend wantsCommit hw hs
  · obtain ⟨hw, hs, -, -, hdoomed⟩ := h'
    rw [hdoomed, Bool.not_true, Bool.and_false]
    exact hend false hw hs

theorem keepsTo (hstray : ∀ page t, stray page t) : w.KeepsTo d where
  cached page := (h.store.pages page).content
  uncached _ := h.onFile_of_uncached
  given page := (h.store.pages page).given.2.2
  settled page := (h.store.pages page).of_unowned
  fetched _ := h.fetched
  discarded := h.discarded
  lost u hu hlost e he := (h.handle he fun page t _ => hstray page t).2 u (h.uses_eq ▸ hu) hlost
  strayed op hop hc page := by
    have h' := (h.apply hop fun page t _ => hstray page t).1
    rw [show Event.drafts w d (.op op) = if op.counts w then drafts d (w.since (w.apply op)) else d from rfl, hc] at h'
    exact ⟨(h'.store.pages page).content, h'.onFile_of_uncached, (h'.store.pages page).given.2.2⟩
  orphaned _ _ := h.orphaned
  completed _ wantsCommit _ hu := h.completed hu wantsCommit

end World.Promised

/-! ## Runs -/

/-- A store that has just been opened keeps to what its files have. -/
theorem Opening.promised (o : Opening s₀) (stray : PageId → TxnId → Prop) :
    World.Promised s₀ stray (fun page => .ofBytes (s₀.onFile page)) { store := s₀ } := by
  obtain ⟨⟨config, hpool⟩, hfiles, -⟩ := o
  have hcopies : ∀ page, s₀.copies page = ⟨none, none, s₀.onFile page⟩ := by
    intro page
    unfold Store.copies
    rw [hpool]
    simp [Pool.ofConfig, Pool.find?]
  refine ⟨⟨⟨⟨hpool ▸ Pool.Accounted.ofConfig config, .refl _⟩, fun _ hu => (List.not_mem_nil hu).elim, ?_,
    ⟨hfiles, .refl _, rfl, rfl⟩, fun _ hu => (List.not_mem_nil hu).elim, fun page => ?_⟩, fun page => ?_⟩,
    fun _ hg => (List.not_mem_nil hg).elim, fun _ ht => (List.not_mem_nil ht).elim, fun _ ht => (List.not_mem_nil ht).elim⟩
  · show s₀.pool.locks.Sound
    rw [hpool]
    exact LockTable.sound_empty
  · show (s₀.copies page).Fit _ _
    rw [hcopies]
    exact ⟨fun _ hc => absurd hc (Option.some_ne_none _).symm, fun _ hb => absurd hb (Option.some_ne_none _).symm⟩
  · show Copies.Drafted _ _ _ (s₀.copies page) _
    rw [hcopies]
    refine (Copies.Drafted.ofBytes _).rebusy fun t => iff_of_false (fun hbusy => ?_) id
    obtain ⟨_, hu, -⟩ := hbusy
    exact List.not_mem_nil hu

namespace World

/-- Whatever pages are discarded at whatever moments, every page has what it is to hold. -/
theorem handleAll_keepsTo (o : Opening s₀) (events : List Event) (htame : ∀ e ∈ events, e.Tame) :
    (handleAll events { store := s₀ }).KeepsTo
      (draftsAfter events { store := s₀ } fun page => .ofBytes (s₀.onFile page)) := by
  exact ((o.promised fun _ _ => True).handleAll htame fun _ _ _ _ _ => trivial).keepsTo fun _ _ => trivial

/-- A transaction changes a page, which is flushed and discarded. It has the page again, which is discarded once more
while the guard is held, and goes on writing. -/
def discarding : List Event :=
  [.op (.ask ⟨1⟩ (.ofT 0) .write), .op (.advance 0), .op (.advance 0), .op (.advance 0), .op (.patch 0 0 [99]),
    .op (.drop 0), .op (.flushPage (.ofT 0)), .op (.advance 0), .op (.advance 0), .discard (.ofT 0),
    .op (.ask ⟨1⟩ (.ofT 0) .write), .op (.advance 0), .op (.advance 0), .op (.advance 0), .op (.patch 0 1 [98]),
    .discard (.ofT 0), .op (.patch 0 2 [97]), .op (.drop 0)]

theorem handleAll_keepsTo_discarding :
    Opening .narrow ∧ (∀ e ∈ discarding, e.Tame) ∧
      (handleAll discarding { store := .narrow }).KeepsTo
        (draftsAfter discarding { store := .narrow } fun page => .ofBytes (Store.narrow.onFile page)) ∧
      (handleAll discarding { store := .narrow }).store.onFile (.ofT 0) = [99, 1, 2, 3, 4, 5, 6, 7] ∧
      ((handleAll discarding { store := .narrow }).apply (.complete ⟨1⟩ false)).store.onFile (.ofT 0) =
        [0, 1, 2, 3, 4, 5, 6, 7] := by
  have htame : ∀ e ∈ discarding, e.Tame := by simp [discarding, Event.Tame, Op.Cached]
  exact ⟨Opening.narrow, htame, handleAll_keepsTo Opening.narrow discarding htame, by decide +kernel, by decide +kernel⟩

end World

end TupleStore
