import TupleStore.Pool.State
import TupleStore.Proofs.Cache.Tracking

/-!
# Frames and their uses

Which frame holds which page is said in several places of a pool: in the frame, in the page table, in the
list of free frames and in the clock. A pool is `Sound` for some uses if these agree and every frame is
pinned once for each of its uses.

* `Use` : a page kept in its frame, by a guard, a request or a flush;
* `Pool.Maps` : page table and frames agree, and pages that come and go leave them so (`Maps.install`,
  `Maps.without`);
* `Pool.Sound` : the agreement, which every move of frames keeps;
* `Pool.Spare` : a frame taken out to be given another page.
-/

namespace TupleStore

set_option autoImplicit false

/-- A page that is kept in its frame. -/
structure Use where
  frame : FrameId
  page : PageId
  /-- The transaction that uses the page, and its mode. A flush uses pages for no transaction. -/
  holder : Option (TxnId × LockMode) := none
  /-- Whether the page was opened for change through this use. -/
  changed : Bool := false
deriving DecidableEq

namespace Pool

/-! ## One frame changed -/

theorem frame_modifyFrame (p : Pool) (f g : FrameId) (c : Frame → Frame) :
    (p.modifyFrame f c).frame g = if g = f ∧ f < p.frames.length then c (p.frame g) else p.frame g := by
  unfold frame modifyFrame
  rw [List.getElem?_modify]
  by_cases e : g = f
  · subst e
    by_cases hl : g < p.frames.length
    · rw [List.getElem?_eq_getElem hl]
      simp [hl]
    · rw [List.getElem?_eq_none (Nat.le_of_not_lt hl)]
      simp [hl]
  · rw [if_neg fun h => e h.1]
    simp [Ne.symm e]

@[simp] theorem length_modifyFrame (p : Pool) (f : FrameId) (c : Frame → Frame) :
    (p.modifyFrame f c).frames.length = p.frames.length := List.length_modify ..

theorem lt_of_page {p : Pool} {f : FrameId} {page : PageId} (h : (p.frame f).page = some page) :
    f < p.frames.length := by
  refine Nat.lt_of_not_le fun hn => ?_
  rw [frame, List.getElem?_eq_none hn] at h
  cases h

theorem frame_modifyFrame_self {p : Pool} {f : FrameId} {page : PageId} (h : (p.frame f).page = some page)
    (c : Frame → Frame) : (p.modifyFrame f c).frame f = c (p.frame f) := by
  rw [frame_modifyFrame, if_pos ⟨rfl, lt_of_page h⟩]

theorem frame_modifyFrame_of_ne {p : Pool} {f g : FrameId} (h : g ≠ f) (c : Frame → Frame) :
    (p.modifyFrame f c).frame g = p.frame g := by
  rw [frame_modifyFrame, if_neg fun hh => h hh.1]

/-- What a change leaves alone in its frame it leaves alone in all frames. -/
theorem modifyFrame_keeps {α : Type} (p : Pool) (f g : FrameId) {c : Frame → Frame} (part : Frame → α)
    (h : ∀ x, part (c x) = part x) : part ((p.modifyFrame f c).frame g) = part (p.frame g) := by
  rw [frame_modifyFrame]
  split
  · exact h _
  · rfl

/-! ## Locks left alone -/

theorem locks_foldl {γ : Type} (step : Pool → γ → Pool) (h : ∀ p x, (step p x).locks = p.locks) (l : List γ)
    (p : Pool) : (l.foldl step p).locks = p.locks := by
  induction l generalizing p with
  | nil => rfl
  | cons x l ih => exact (ih _).trans (h p x)

theorem locks_reclaim (p : Pool) : p.reclaim.locks = p.locks :=
  locks_foldl (fun p f => p.modifyFrame f Frame.reset) (fun _ _ => rfl) _ p

theorem locks_markDirty (p : Pool) (page : PageId) (t : TxnId) : (p.markDirty page t).locks = p.locks := by
  unfold markDirty
  split <;> rfl

theorem locks_pinAll (pinned : List (PageId × FrameId)) (p : Pool) :
    (pinned.foldl (fun p (_, f) => p.pin f) p).locks = p.locks :=
  locks_foldl (fun p (x : PageId × FrameId) => p.pin x.2) (fun _ _ => rfl) pinned p

theorem locks_unpinAll (pinned : List (PageId × FrameId)) (p : Pool) :
    (pinned.foldl (fun p (_, f) => p.unpin f) p).locks = p.locks :=
  locks_foldl (fun p (x : PageId × FrameId) => p.unpin x.2) (fun _ _ => rfl) pinned p

/-! ## Latches left alone -/

theorem latch_pinAll (pinned : List (PageId × FrameId)) (p : Pool) (g : FrameId) :
    ((pinned.foldl (fun p (_, f) => p.pin f) p).frame g).latch = (p.frame g).latch := by
  induction pinned generalizing p with
  | nil => rfl
  | cons x pinned ih =>
    exact (ih _).trans (modifyFrame_keeps p x.2 g (c := fun x => { x with pins := x.pins + 1 }) Frame.latch fun _ => rfl)

theorem latch_unpinAll (pinned : List (PageId × FrameId)) (p : Pool) (g : FrameId) :
    ((pinned.foldl (fun p (_, f) => p.unpin f) p).frame g).latch = (p.frame g).latch := by
  induction pinned generalizing p with
  | nil => rfl
  | cons x pinned ih =>
    exact (ih _).trans (modifyFrame_keeps p x.2 g (c := fun x => { x with pins := x.pins - 1 }) Frame.latch fun _ => rfl)

/-! ## Pages put in and taken out -/

theorem find?_install (p : Pool) (f : FrameId) (page q : PageId) (bytes : Bytes) :
    (p.install f page bytes).find? q = if q = page then some f else p.find? q := by
  show (p.pageTable.insert page f)[q]? = _
  simp only [Std.TreeMap.getElem?_insert, Std.compare_eq_iff_eq, @eq_comm _ q]
  rfl

theorem find?_unmap (p : Pool) (f : FrameId) (page q : PageId) :
    (p.unmap f page).find? q = if q = page then none else p.find? q := by
  show (p.pageTable.erase page)[q]? = _
  simp only [Std.TreeMap.getElem?_erase, Std.compare_eq_iff_eq, @eq_comm _ q]
  rfl

theorem retained_install (p : Pool) (f : FrameId) (page q : PageId) (bytes : Bytes) :
    (p.install f page bytes).retained[q]? = if q = page then none else p.retained[q]? := by
  show (p.retained.erase page)[q]? = _
  simp only [Std.TreeMap.getElem?_erase, Std.compare_eq_iff_eq, @eq_comm _ q]

theorem retained_unmap (p : Pool) (f : FrameId) (page q : PageId) :
    (p.unmap f page).retained[q]? =
      if q = page then (p.frame f).before.or p.retained[q]? else p.retained[q]? := by
  unfold unmap
  cases (p.frame f).before with
  | none => simp
  | some b =>
    show (p.retained.insert page b)[q]? = _
    simp only [Std.TreeMap.getElem?_insert, Std.compare_eq_iff_eq, Option.some_or, @eq_comm _ q]

theorem discard_of_none {p : Pool} {page : PageId} (hp : p.find? page = none) : p.discard page = p := by
  unfold discard
  rw [hp]

section

variable {p : Pool} {page : PageId} {f : FrameId}

theorem frame_install (hlt : f < p.frames.length) (page : PageId) (bytes : Bytes) (g : FrameId) :
    (p.install f page bytes).frame g =
      if g = f then { p.frame f with bytes, page := some page, dirtyBy := none, before := p.retained[page]? }
      else p.frame g := by
  refine (frame_modifyFrame p f g _).trans ?_
  by_cases e : g = f
  · rw [if_pos e, if_pos ⟨e, hlt⟩, e]
  · rw [if_neg e, if_neg fun hh => e hh.1]

theorem frame_unmap (hf : (p.frame f).page = some page) (g : FrameId) :
    (p.unmap f page).frame g = if g = f then (p.frame f).reset else p.frame g := by
  refine (frame_modifyFrame p f g Frame.reset).trans ?_
  by_cases e : g = f
  · rw [if_pos e, if_pos ⟨e, lt_of_page hf⟩, e]
  · rw [if_neg e, if_neg fun hh => e hh.1]

theorem frame_discard (hp : p.find? page = some f) (hf : (p.frame f).page = some page) (g : FrameId) :
    (p.discard page).frame g = if g = f then (p.frame f).reset else p.frame g := by
  have hg : (p.discard page).frame g = (p.unmap f page).frame g := by
    unfold discard unmap Pool.frame
    rw [hp]
  rw [hg, frame_unmap hf]

theorem find?_discard (hp : p.find? page = some f) (q : PageId) :
    (p.discard page).find? q = if q = page then none else p.find? q := by
  have htable : (p.discard page).pageTable = p.pageTable.erase page := by
    unfold discard
    rw [hp]
  rw [find?, htable]
  exact find?_unmap p f page q

/-- A before-image is kept if what the file has is not what was there before. -/
theorem retained_discard (hp : p.find? page = some f) (q : PageId) :
    (p.discard page).retained[q]? =
      if q = page then ((p.frame f).before.filter BeforeImage.onDisk).or p.retained[q]? else p.retained[q]? := by
  unfold discard
  simp only [hp]
  cases (p.frame f).before with
  | none => simp
  | some b =>
    dsimp only
    cases hb : b.onDisk with
    | false => simp [Option.filter, hb]
    | true =>
      rw [if_pos rfl, Std.TreeMap.getElem?_insert, Option.filter_some, if_pos hb]
      simp only [Std.compare_eq_iff_eq, Option.some_or, @eq_comm _ q]

end

/-! ## Where pages are -/

/-- The page table and the frames say the same of where pages are. -/
def Maps (p : Pool) : Prop := ∀ (page : PageId) (f : FrameId), p.find? page = some f ↔ (p.frame f).page = some page

namespace Maps

variable {p p' : Pool} {page : PageId} {f g : FrameId}

theorem frame_inj (h : p.Maps) (hf : (p.frame f).page = some page) (hg : (p.frame g).page = some page) : f = g :=
  Option.some.inj (((h page f).2 hf).symm.trans ((h page g).2 hg))

/-- A page put in a frame that holds nothing. -/
theorem install (h : p.Maps) (hlt : f < p.frames.length) (hf : (p.frame f).page = none) (hp : p.find? page = none)
    (bytes : Bytes) : (p.install f page bytes).Maps := by
  intro q g
  rw [find?_install, frame_install hlt]
  by_cases eq : q = page
  · rw [if_pos eq, eq]
    by_cases eg : g = f
    · rw [if_pos eg, eg]
      exact ⟨fun _ => rfl, fun _ => rfl⟩
    · rw [if_neg eg, ← h, hp]
      exact ⟨fun hh => absurd (Option.some.inj hh).symm eg, nofun⟩
  · rw [if_neg eq, h]
    by_cases eg : g = f
    · rw [if_pos eg, eg, hf]
      exact ⟨nofun, fun hh => absurd (Option.some.inj hh).symm eq⟩
    · rw [if_neg eg]

/-- A page taken out of its frame and of the page table. -/
theorem without (h : p.Maps) (hf : (p.frame f).page = some page)
    (hframe : ∀ g, p'.frame g = if g = f then (p.frame f).reset else p.frame g)
    (hfind : ∀ q, p'.find? q = if q = page then none else p.find? q) : p'.Maps := by
  intro q g
  rw [hfind, hframe]
  by_cases eg : g = f
  · rw [if_pos eg, eg]
    refine ⟨fun hh => ?_, nofun⟩
    split at hh
    · cases hh
    · rename_i hq
      exact absurd (Option.some.inj (((h q f).1 hh).symm.trans hf)) hq
  · rw [if_neg eg]
    by_cases eq : q = page
    · rw [if_pos eq, eq]
      exact ⟨nofun, fun hh => absurd (h.frame_inj hh hf) eg⟩
    · rw [if_neg eq]
      exact h q g

end Maps

/-! ## Sound pools -/

/-- The parts of the pool agree on which frame holds which page, and every frame is pinned once for each of
its uses. -/
structure Sound (uses : List Use) (p : Pool) : Prop where
  mapped : ∀ (page : PageId) (f : FrameId), p.find? page = some f ↔ (p.frame f).page = some page
  used : ∀ u ∈ uses, (p.frame u.frame).page = some u.page
  pins : ∀ f : FrameId, (p.frame f).pins = uses.countP fun u => u.frame = f
  free : ∀ f ∈ p.free, f < p.frames.length ∧ (p.frame f).page = none
  nodup : p.free.Nodup
  pending : p.pendingFree = []
  tracked : ∀ f : FrameId, p.clock.tracks f = true → (p.frame f).page ≠ none

/-- A frame that holds nothing and is in no list. -/
structure Spare (p : Pool) (f : FrameId) : Prop where
  lt : f < p.frames.length
  empty : (p.frame f).page = none
  taken : f ∉ p.free
  untracked : p.clock.tracks f = false

namespace Sound

variable {p : Pool} {uses : List Use} {u : Use} {f : FrameId} {page : PageId}

theorem ofConfig (config : Config) : Sound [] (Pool.ofConfig config) := by
  have hframe : ∀ f : FrameId, ((Pool.ofConfig config).frame f).page = none ∧
      ((Pool.ofConfig config).frame f).pins = 0 := by
    intro f
    unfold Pool.frame Pool.ofConfig
    rw [List.getElem?_replicate]
    split <;> exact ⟨rfl, rfl⟩
  refine ⟨fun page f => ?_, fun u h => (List.not_mem_nil h).elim, fun f => (hframe f).2, fun f h => ?_,
    List.nodup_range, rfl, fun f h => ?_⟩
  · rw [(hframe f).1]
    simp [Pool.ofConfig, Pool.find?]
  · refine ⟨?_, (hframe f).1⟩
    simpa [Pool.ofConfig] using h
  · simp [Pool.ofConfig, Clock.tracks_ofCapacity] at h

theorem perm (h : p.Sound uses) {uses' : List Use} (e : uses.Perm uses') : p.Sound uses' :=
  { h with
    used := fun u hu => h.used u (e.mem_iff.2 hu)
    pins := fun f => (h.pins f).trans (e.countP_eq _) }

/-- A use of the same page in the same frame, in place of another. -/
theorem replace (h : p.Sound (u :: uses)) {u' : Use} (hf : u'.frame = u.frame) (hp : u'.page = u.page) :
    p.Sound (u' :: uses) := by
  refine { h with used := fun v hv => ?_, pins := fun f => ?_ }
  · rcases List.mem_cons.1 hv with rfl | hv
    · rw [hf, hp]
      exact h.used u (List.mem_cons_self ..)
    · exact h.used v (List.mem_cons_of_mem _ hv)
  · rw [h.pins f, List.countP_cons, List.countP_cons, hf]

theorem frame_inj (h : p.Sound uses) {f g : FrameId} (hf : (p.frame f).page = some page)
    (hg : (p.frame g).page = some page) : f = g := Maps.frame_inj h.mapped hf hg

theorem not_used (h : p.Sound uses) (hp : p.isPinned f = false) : ∀ u ∈ uses, u.frame ≠ f := by
  intro u hu e
  have hz : ¬ 0 < (p.frame f).pins := of_decide_eq_false hp
  rw [h.pins, List.countP_pos_iff] at hz
  exact hz ⟨u, hu, decide_eq_true e⟩

/-! ### Changes in place -/

/-- A change of the pool that leaves frames, page table, lists and clock alone. -/
theorem congr (h : p.Sound uses) {p' : Pool} (hf : p'.frames = p.frames) (ht : p'.pageTable = p.pageTable)
    (hfree : p'.free = p.free) (hpending : p'.pendingFree = p.pendingFree) (hclock : p'.clock = p.clock) :
    p'.Sound uses := by
  obtain ⟨h₁, h₂, h₃, h₄, h₅, h₆, h₇⟩ := h
  unfold Pool.find? Pool.frame at *
  rw [← hf] at h₁ h₂ h₃ h₄ h₇
  rw [← ht] at h₁
  rw [← hfree] at h₄ h₅
  rw [← hpending] at h₆
  rw [← hclock] at h₇
  exact ⟨h₁, h₂, h₃, h₄, h₅, h₆, h₇⟩

theorem modifyFrame (h : p.Sound uses) (f : FrameId) {c : Frame → Frame} (hpage : ∀ x, (c x).page = x.page)
    (hpins : ∀ x, (c x).pins = x.pins) : (p.modifyFrame f c).Sound uses where
  mapped page g := by
    rw [modifyFrame_keeps p f g Frame.page hpage]
    exact h.mapped page g
  used u hu := by
    rw [modifyFrame_keeps p f u.frame Frame.page hpage]
    exact h.used u hu
  pins g := by
    rw [modifyFrame_keeps p f g Frame.pins hpins]
    exact h.pins g
  free g hg := by
    rw [length_modifyFrame, modifyFrame_keeps p f g Frame.page hpage]
    exact h.free g hg
  nodup := h.nodup
  pending := h.pending
  tracked g hg := by
    rw [modifyFrame_keeps p f g Frame.page hpage]
    exact h.tracked g hg

/-- A use more, with its pin. -/
theorem pin (h : p.Sound uses) (hu : (p.frame u.frame).page = some u.page) :
    (p.pin u.frame).Sound (u :: uses) := by
  have hpage : ∀ g, ((p.pin u.frame).frame g).page = (p.frame g).page := fun g =>
    modifyFrame_keeps p u.frame g (c := fun x => { x with pins := x.pins + 1 }) Frame.page
      fun _ => rfl
  refine ⟨fun page g => ?_, fun v hv => ?_, fun g => ?_, fun g hg => ?_, h.nodup, h.pending, fun g hg => ?_⟩
  · rw [hpage]
    exact h.mapped page g
  · rw [hpage]
    rcases List.mem_cons.1 hv with rfl | hv
    · exact hu
    · exact h.used v hv
  · rw [List.countP_cons, ← h.pins]
    by_cases e : g = u.frame
    · subst e
      rw [Pool.pin, frame_modifyFrame_self hu, if_pos (decide_eq_true rfl)]
    · rw [Pool.pin, frame_modifyFrame_of_ne e, decide_eq_false fun h => e h.symm]
      rfl
  · rw [Pool.pin, length_modifyFrame, ← Pool.pin, hpage]
    exact h.free g hg
  · rw [hpage]
    exact h.tracked g hg

/-- A use less, with its pin. -/
theorem unpin (h : p.Sound (u :: uses)) : (p.unpin u.frame).Sound uses := by
  have hpage : ∀ g, ((p.unpin u.frame).frame g).page = (p.frame g).page := fun g =>
    modifyFrame_keeps p u.frame g (c := fun x => { x with pins := x.pins - 1 }) Frame.page
      fun _ => rfl
  have hu := h.used u (List.mem_cons_self ..)
  refine ⟨fun page g => ?_, fun v hv => ?_, fun g => ?_, fun g hg => ?_, h.nodup, h.pending, fun g hg => ?_⟩
  · rw [hpage]
    exact h.mapped page g
  · rw [hpage]
    exact h.used v (List.mem_cons_of_mem _ hv)
  · have hp := h.pins g
    rw [List.countP_cons] at hp
    by_cases e : g = u.frame
    · subst e
      rw [if_pos (decide_eq_true rfl)] at hp
      rw [Pool.unpin, frame_modifyFrame_self hu]
      show (p.frame u.frame).pins - 1 = _
      rw [hp]
      rfl
    · rw [decide_eq_false fun h => e h.symm] at hp
      rw [Pool.unpin, frame_modifyFrame_of_ne e]
      exact hp
  · rw [Pool.unpin, length_modifyFrame, ← Pool.unpin, hpage]
    exact h.free g hg
  · rw [hpage]
    exact h.tracked g hg

theorem touch (h : p.Sound uses) (hp : (p.frame f).page = some page) : (p.touch f).Sound uses :=
  { h with
    tracked := fun g hg => by
      have ht : (p.clock.access f).tracks g = true := hg
      rw [Clock.tracks_access] at ht
      by_cases e : g = f
      · subst e
        show (p.frame g).page ≠ none
        rw [hp]
        exact Option.some_ne_none _
      · rw [if_neg fun h => e h.1] at ht
        exact h.tracked g ht }

/-! ### Frames taken out -/

theorem reclaim_eq (h : p.Sound uses) : p.reclaim = p := by
  have hp := h.pending
  obtain ⟨_, _, _, _, pendingFree, _, _, _, _, _, _⟩ := p
  obtain rfl : pendingFree = [] := hp
  rfl

theorem takeFree (h : p.Sound uses) {rest : List FrameId} (hf : p.free = f :: rest) :
    Pool.Sound uses { p with free := rest } ∧ Pool.Spare { p with free := rest } f := by
  have hn := h.nodup
  rw [hf, List.nodup_cons] at hn
  have hm := h.free f (hf ▸ List.mem_cons_self ..)
  refine ⟨{ h with free := fun g hg => h.free g (hf ▸ List.mem_cons_of_mem _ hg), nodup := hn.2 },
    hm.1, hm.2, hn.1, Bool.eq_false_iff.2 fun ht => h.tracked f ht hm.2⟩

theorem takeVictim (h : p.Sound uses) {isPinned : FrameId → Bool} :
    Pool.Sound uses { p with clock := (p.clock.evict isPinned).2 } :=
  { h with
    tracked := fun g hg => by
      have ht : (p.clock.evict isPinned).2.tracks g = true := hg
      rw [Clock.tracks_evict, Bool.and_eq_true] at ht
      exact h.tracked g ht.1 }

theorem unmap (h : p.Sound uses) (hp : (p.frame f).page = some page) (hu : ∀ u ∈ uses, u.frame ≠ f)
    (ht : p.clock.tracks f = false) : (p.unmap f page).Sound uses ∧ (p.unmap f page).Spare f := by
  have hself : (p.unmap f page).frame f = (p.frame f).reset := frame_modifyFrame_self hp _
  have hne : ∀ g, g ≠ f → (p.unmap f page).frame g = p.frame g := fun g hg => frame_modifyFrame_of_ne hg _
  have hlen : (p.unmap f page).frames.length = p.frames.length := length_modifyFrame ..
  have hempty : ((p.unmap f page).frame f).page = none := by rw [hself]; rfl
  refine ⟨⟨Maps.without h.mapped hp (frame_unmap hp) (find?_unmap p f page), fun u hu' => ?_, fun g => ?_,
    fun g hg => ?_, h.nodup, h.pending, fun g hg => ?_⟩, hlen ▸ lt_of_page hp, hempty, fun hf => ?_, ht⟩
  · rw [hne _ (hu u hu')]
    exact h.used u hu'
  · by_cases eg : g = f
    · subst eg
      rw [hself]
      exact h.pins g
    · rw [hne g eg]
      exact h.pins g
  · rw [hlen]
    by_cases eg : g = f
    · subst eg
      exact ⟨lt_of_page hp, hempty⟩
    · rw [hne g eg]
      exact h.free g hg
  · by_cases eg : g = f
    · subst eg
      rw [show (p.unmap g page).clock = p.clock from rfl, ht] at hg
      cases hg
    · rw [hne g eg]
      exact h.tracked g hg
  · rw [(h.free f hf).2] at hp
    cases hp

theorem install (h : p.Sound uses) (hs : p.Spare f) (hp : p.find? page = none) (bytes : Bytes) :
    (p.install f page bytes).Sound uses ∧ ((p.install f page bytes).frame f).page = some page := by
  have hself := (frame_install hs.lt page bytes f).trans (if_pos rfl)
  have hne : ∀ g, g ≠ f → (p.install f page bytes).frame g = p.frame g := fun g hg =>
    frame_modifyFrame_of_ne hg _
  have hlen : (p.install f page bytes).frames.length = p.frames.length := length_modifyFrame ..
  have hfree : ∀ g ∈ p.free, g ≠ f := fun g hg e => hs.taken (e ▸ hg)
  refine ⟨⟨Maps.install h.mapped hs.lt hs.empty hp bytes, fun u hu => ?_, fun g => ?_, fun g hg => ?_, h.nodup,
    h.pending, fun g hg => ?_⟩, congrArg Frame.page hself⟩
  · have hu' := h.used u hu
    rw [hne u.frame fun e => by rw [e, hs.empty] at hu'; cases hu']
    exact hu'
  · by_cases eg : g = f
    · subst eg
      rw [hself]
      exact h.pins g
    · rw [hne g eg]
      exact h.pins g
  · rw [hlen, hne g (hfree g hg)]
    exact h.free g hg
  · by_cases eg : g = f
    · subst eg
      rw [hself]
      exact Option.some_ne_none _
    · rw [hne g eg]
      exact h.tracked g hg

end Sound

end Pool

end TupleStore
