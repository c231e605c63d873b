import Mathlib.Data.List.Nodup
import Mathlib.Data.List.Perm.Basic
import TupleStore.Proofs.Outcome
import TupleStore.Proofs.Pool.Frames
import TupleStore.Pool.Completion
import TupleStore.Pool.Flush

/-!
# Where every frame is

A frame holds a page, or it is free, or it is to become free when it is no longer pinned; and while a page is
being fetched one frame may be out of all this, on its way from one place to the other. `Accounted pins out p`
says so of the pool `p`, where `pins` names a frame once for each use of it, and `out` is the frame that is out.

* `Accounted` : the places of the frames, the pins, and that page table, clock and retained before-images agree
  with the frames;
* `Accounted.install`, `Accounted.unmap`, `Accounted.discard`, `Accounted.reclaim` and the like : the moves of
  frames;
* `Accounted.partition`, `Accounted.size_clock` : the same in the terms of lists and numbers.
-/

namespace TupleStore

set_option autoImplicit false

namespace Pool

/-! ## Accounts -/

/-- The frames of the cached pages, in the order of the pages. -/
def mapped (p : Pool) : List FrameId := p.pageTable.toList.map Prod.snd

/-- Every frame has one place, and is pinned once for each of its uses. -/
structure Accounted (pins : List FrameId) (out : Option FrameId) (p : Pool) : Prop where
  mapped : ∀ (page : PageId) (f : FrameId), p.find? page = some f ↔ (p.frame f).page = some page
  pinned : ∀ f : FrameId, (p.frame f).pins = pins.count f
  spare : ∀ f, f ∈ p.free ++ p.pendingFree ↔ f < p.frames.length ∧ (p.frame f).page = none ∧ out ≠ some f
  nodup : (p.free ++ p.pendingFree).Nodup
  clean : ∀ f ∈ p.free, (p.frame f).pins = 0 ∧ (p.frame f).dirtyBy = none ∧ (p.frame f).before = none
  tracked : ∀ f, p.clock.tracks f = true ↔ (p.frame f).page ≠ none ∧ out ≠ some f
  slots : p.clock.slots.length = p.frames.length
  retained : ∀ page, p.retained[page]? ≠ none → p.find? page = none
  counted : p.clock.Counted

namespace Accounted

variable {p p' : Pool} {pins pins' : List FrameId} {out : Option FrameId} {f g : FrameId} {page : PageId}

theorem ofConfig (config : Config) : Accounted [] none (Pool.ofConfig config) := by
  have hframe : ∀ f : FrameId, ((Pool.ofConfig config).frame f).page = none ∧
      ((Pool.ofConfig config).frame f).pins = 0 ∧ ((Pool.ofConfig config).frame f).dirtyBy = none ∧
      ((Pool.ofConfig config).frame f).before = none := by
    intro f
    unfold Pool.frame Pool.ofConfig
    rw [List.getElem?_replicate]
    split <;> exact ⟨rfl, rfl, rfl, rfl⟩
  have hfree : (Pool.ofConfig config).free ++ (Pool.ofConfig config).pendingFree = List.range config.poolPages :=
    List.append_nil _
  have hlen : (Pool.ofConfig config).frames.length = config.poolPages := List.length_replicate
  refine ⟨fun page f => ?_, fun f => (hframe f).2.1, fun f => ?_, ?_, fun f _ => (hframe f).2, fun f => ?_, ?_,
    fun page hp => absurd Std.TreeMap.getElem?_emptyc hp, .ofCapacity config.poolPages⟩
  · rw [(hframe f).1]
    simp [Pool.ofConfig, Pool.find?]
  · rw [hfree, List.mem_range, hlen, (hframe f).1]
    simp
  · rw [hfree]
    exact List.nodup_range
  · rw [(hframe f).1, show (Pool.ofConfig config).clock.tracks f = false from Clock.tracks_ofCapacity _ f]
    simp
  · rw [hlen]
    exact List.length_replicate

theorem perm (h : p.Accounted pins out) (e : pins.Perm pins') : p.Accounted pins' out :=
  { h with pinned := fun f => (h.pinned f).trans (e.count_eq f) }

theorem lt_of_pinned (h : p.Accounted pins out) (hf : f ∈ pins) : f < p.frames.length := by
  refine Nat.lt_of_not_le fun hn => ?_
  have hp := h.pinned f
  rw [frame, List.getElem?_eq_none hn] at hp
  exact absurd hp.symm (Nat.ne_of_gt (List.count_pos_iff.2 hf))

theorem taken_of_pinned (h : p.Accounted pins out) (hf : f ∈ pins) : f ∉ p.free := by
  intro hin
  have hp := (h.clean f hin).1
  rw [h.pinned f] at hp
  exact absurd hp (Nat.ne_of_gt (List.count_pos_iff.2 hf))

theorem taken_of_page (h : p.Accounted pins out) (hf : (p.frame f).page ≠ none) : f ∉ p.free := fun hin =>
  hf ((h.spare f).1 (List.mem_append_left _ hin)).2.1

theorem frame_inj (h : p.Accounted pins out) (hf : (p.frame f).page = some page) (hg : (p.frame g).page = some page) :
    f = g := Maps.frame_inj h.mapped hf hg

/-! ### Changes in place -/

/-- A change of the pool that moves no frame. -/
theorem congr (h : p.Accounted pins out) (hf : p'.frames = p.frames) (ht : p'.pageTable = p.pageTable)
    (hfree : p'.free = p.free) (hpending : p'.pendingFree = p.pendingFree) (hclock : p'.clock = p.clock)
    (hretained : p'.retained = p.retained) : p'.Accounted pins out := by
  obtain ⟨h₁, h₂, h₃, h₄, h₅, h₆, h₇, h₈, h₉⟩ := h
  unfold Pool.find? Pool.frame at *
  rw [← hf] at h₁ h₂ h₃ h₅ h₆ h₇
  rw [← ht] at h₁ h₈
  rw [← hfree] at h₃ h₄ h₅
  rw [← hpending] at h₃ h₄
  rw [← hclock] at h₆ h₇ h₉
  rw [← hretained] at h₈
  exact ⟨h₁, h₂, h₃, h₄, h₅, h₆, h₇, h₈, h₉⟩

/-- A frame that is not free changed in its place. -/
theorem modifyFrame (h : p.Accounted pins out) (hf : f ∉ p.free) {c : Frame → Frame}
    (hpage : ∀ x, (c x).page = x.page) (hpins : ∀ x, (c x).pins = x.pins) :
    (p.modifyFrame f c).Accounted pins out where
  mapped page g := by
    rw [modifyFrame_keeps p f g Frame.page hpage]
    exact h.mapped page g
  pinned g := by
    rw [modifyFrame_keeps p f g Frame.pins hpins]
    exact h.pinned g
  spare g := by
    rw [length_modifyFrame, modifyFrame_keeps p f g Frame.page hpage]
    exact h.spare g
  nodup := h.nodup
  clean g hg := by
    have hne : g ≠ f := fun e => hf (e ▸ hg)
    rw [frame_modifyFrame_of_ne hne]
    exact h.clean g hg
  tracked g := by
    rw [modifyFrame_keeps p f g Frame.page hpage]
    exact h.tracked g
  slots := (length_modifyFrame ..).symm ▸ h.slots
  retained := h.retained
  counted := h.counted

/-- A use more. Only frames that hold a page come into use. -/
theorem pin (h : p.Accounted pins out) (hf : (p.frame f).page = some page) : (p.pin f).Accounted (f :: pins) out := by
  have hpage : ∀ g, ((p.pin f).frame g).page = (p.frame g).page := fun g =>
    modifyFrame_keeps p f g (c := fun x => { x with pins := x.pins + 1 }) Frame.page fun _ => rfl
  have hlen : (p.pin f).frames.length = p.frames.length := length_modifyFrame ..
  refine ⟨fun page g => ?_, fun g => ?_, fun g => ?_, h.nodup, fun g hg => ?_, fun g => ?_, hlen ▸ h.slots, h.retained,
    h.counted⟩
  · rw [hpage]
    exact h.mapped page g
  · by_cases e : g = f
    · subst e
      rw [Pool.pin, frame_modifyFrame_self hf, List.count_cons_self, ← h.pinned]
    · rw [Pool.pin, frame_modifyFrame_of_ne e, List.count_cons_of_ne (Ne.symm e), ← h.pinned]
  · rw [hlen, hpage]
    exact h.spare g
  · have hne : g ≠ f := fun e => h.taken_of_page (by rw [hf]; exact Option.some_ne_none _) (e ▸ hg)
    rw [Pool.pin, frame_modifyFrame_of_ne hne]
    exact h.clean g hg
  · rw [hpage]
    exact h.tracked g

/-- A use less. -/
theorem unpin (h : p.Accounted (f :: pins) out) : (p.unpin f).Accounted pins out := by
  have hpage : ∀ g, ((p.unpin f).frame g).page = (p.frame g).page := fun g =>
    modifyFrame_keeps p f g (c := fun x => { x with pins := x.pins - 1 }) Frame.page fun _ => rfl
  have hlen : (p.unpin f).frames.length = p.frames.length := length_modifyFrame ..
  have hin : f ∈ f :: pins := List.mem_cons_self ..
  refine ⟨fun page g => ?_, fun g => ?_, fun g => ?_, h.nodup, fun g hg => ?_, fun g => ?_, hlen ▸ h.slots, h.retained,
    h.counted⟩
  · rw [hpage]
    exact h.mapped page g
  · have hp := h.pinned g
    by_cases e : g = f
    · subst e
      rw [List.count_cons_self] at hp
      rw [Pool.unpin, frame_modifyFrame, if_pos ⟨rfl, h.lt_of_pinned hin⟩]
      show (p.frame g).pins - 1 = _
      rw [hp]
      rfl
    · rw [List.count_cons_of_ne (Ne.symm e)] at hp
      rw [Pool.unpin, frame_modifyFrame_of_ne e]
      exact hp
  · rw [hlen, hpage]
    exact h.spare g
  · have hne : g ≠ f := fun e => h.taken_of_pinned hin (e ▸ hg)
    rw [Pool.unpin, frame_modifyFrame_of_ne hne]
    exact h.clean g hg
  · rw [hpage]
    exact h.tracked g

/-- A frame that holds a page is tracked by its next access. So the frame that was out is back in its place. -/
theorem touch (h : p.Accounted pins out) (hf : (p.frame f).page ≠ none) (hout : ∀ g, out = some g → g = f) :
    (p.touch f).Accounted pins none := by
  have hlt : f < p.clock.slots.length := by
    obtain ⟨page, hp⟩ := Option.ne_none_iff_exists'.1 hf
    exact h.slots.symm ▸ lt_of_page hp
  refine { h with
    spare := fun g => (h.spare g).trans (and_congr Iff.rfl (and_congr_right fun hg => ?_))
    tracked := fun g => ?_
    slots := (Clock.length_access ..).trans h.slots
    counted := h.counted.access f }
  · refine ⟨fun _ => (Option.some_ne_none g).symm, fun _ e => hf ?_⟩
    rw [← hout g e]
    exact hg
  · show (p.clock.access f).tracks g = true ↔ (p.frame g).page ≠ none ∧ none ≠ some g
    rw [Clock.tracks_access]
    by_cases e : g = f
    · subst e
      rw [if_pos ⟨rfl, hlt⟩]
      exact ⟨fun _ => ⟨hf, (Option.some_ne_none g).symm⟩, fun _ => rfl⟩
    · rw [if_neg fun hh => e hh.1, h.tracked g]
      exact and_congr Iff.rfl ⟨fun _ => (Option.some_ne_none g).symm, fun _ ho => e (hout g ho)⟩

/-! ### Frames moved -/

theorem takeFree (h : p.Accounted pins none) {rest : List FrameId} (hf : p.free = f :: rest) :
    Accounted pins (some f) { p with free := rest } ∧ f < p.frames.length ∧ (p.frame f).page = none := by
  have hn := h.nodup
  have hspare := h.spare
  rw [hf] at hn hspare
  have hself := (hspare f).1 (List.mem_cons_self ..)
  refine ⟨⟨h.mapped, h.pinned, fun g => ?_, (List.nodup_cons.1 hn).2, fun g hg => ?_, fun g => ?_, h.slots, h.retained,
    h.counted⟩, hself.1, hself.2.1⟩
  · show g ∈ rest ++ p.pendingFree ↔ _
    have hg := hspare g
    rw [List.cons_append, List.mem_cons] at hg
    constructor
    · intro hin
      obtain ⟨h₁, h₂, -⟩ := hg.1 (Or.inr hin)
      refine ⟨h₁, h₂, fun e => ?_⟩
      cases e
      exact (List.nodup_cons.1 hn).1 hin
    · rintro ⟨h₁, h₂, hne⟩
      exact (hg.2 ⟨h₁, h₂, (Option.some_ne_none g).symm⟩).resolve_left fun e => hne (congrArg some e.symm)
  · exact h.clean g (hf ▸ List.mem_cons_of_mem _ hg)
  · refine (h.tracked g).trans (and_congr_right fun hp => ⟨fun _ e => hp ?_, fun _ => (Option.some_ne_none g).symm⟩)
    cases e
    exact hself.2.1

theorem takeVictim (h : p.Accounted pins none) {isPinned : FrameId → Bool} {victim : Option FrameId} {clock : Clock}
    (hv : p.clock.evict isPinned = (victim, clock)) :
    Accounted pins victim { p with clock } ∧ ∀ f, victim = some f → (p.frame f).page ≠ none := by
  have htracks := Clock.tracks_evict p.clock isPinned
  have hlen := (Clock.tracks_sweep isPinned (2 * p.clock.slots.length) p.clock).1
  have hof := @Clock.of_evict p.clock isPinned
  rw [show Clock.sweep isPinned (2 * p.clock.slots.length) p.clock = (victim, clock) from hv] at hlen
  have hcounted := h.counted.evict isPinned
  rw [hv] at htracks hof hcounted
  have hvictim : ∀ f, victim = some f → (p.frame f).page ≠ none := fun f hf => ((h.tracked f).1 (hof hf).1).1
  refine ⟨{ h with
    spare := fun g => (h.spare g).trans (and_congr Iff.rfl (and_congr_right fun hg => ?_))
    tracked := fun g => ?_
    slots := hlen.trans h.slots
    counted := hcounted }, hvictim⟩
  · exact ⟨fun _ e => hvictim g e hg, fun _ => (Option.some_ne_none g).symm⟩
  · show clock.tracks g = true ↔ _
    rw [htracks g, Bool.and_eq_true, decide_eq_true_iff, h.tracked g, and_assoc]
    exact and_congr Iff.rfl (and_iff_right (Option.some_ne_none g).symm)

theorem install (h : p.Accounted pins (some f)) (hlt : f < p.frames.length) (hf : (p.frame f).page = none)
    (hp : p.find? page = none) (bytes : Bytes) :
    (p.install f page bytes).Accounted pins (some f) ∧ ((p.install f page bytes).frame f).page = some page := by
  have hself := (frame_install hlt page bytes f).trans (if_pos rfl)
  have hne : ∀ g, g ≠ f → (p.install f page bytes).frame g = p.frame g := fun g hg => frame_modifyFrame_of_ne hg _
  have hlen : (p.install f page bytes).frames.length = p.frames.length := length_modifyFrame ..
  have hspare : ∀ g, some f ≠ some g → g ≠ f := fun g hg e => hg (congrArg some e.symm)
  refine ⟨⟨Maps.install h.mapped hlt hf hp bytes, fun g => ?_, fun g => ?_, h.nodup, fun g hg => ?_, fun g => ?_,
    hlen ▸ h.slots, fun q hq => ?_, h.counted⟩, congrArg Frame.page hself⟩
  · by_cases eg : g = f
    · rw [eg, hself]
      exact h.pinned f
    · rw [hne g eg]
      exact h.pinned g
  · refine (h.spare g).trans ?_
    rw [hlen]
    refine and_congr Iff.rfl (and_congr_left fun hg => ?_)
    rw [hne g (hspare g hg)]
  · have hg' := ((h.spare g).1 (List.mem_append_left _ hg)).2.2
    rw [hne g (hspare g hg')]
    exact h.clean g hg
  · refine (h.tracked g).trans (and_congr_left fun hg => ?_)
    rw [hne g (hspare g hg)]
  · rw [retained_install] at hq
    rw [find?_install]
    split at hq
    · exact absurd rfl hq
    · rename_i e
      rw [if_neg e]
      exact h.retained q hq

/-- A frame that loses its page stays as pinned as it is. -/
theorem pinned_of_reset (h : p.Accounted pins out)
    (hframe : ∀ g, p'.frame g = if g = f then (p.frame f).reset else p.frame g) (g : FrameId) :
    (p'.frame g).pins = pins.count g := by
  rw [hframe]
  by_cases eg : g = f
  · rw [if_pos eg, eg]
    exact h.pinned f
  · rw [if_neg eg]
    exact h.pinned g

theorem unmap (h : p.Accounted pins (some f)) (hf : (p.frame f).page = some page) :
    (p.unmap f page).Accounted pins (some f) ∧ ((p.unmap f page).frame f).page = none := by
  have hself : (p.unmap f page).frame f = (p.frame f).reset := frame_modifyFrame_self hf _
  have hne : ∀ g, g ≠ f → (p.unmap f page).frame g = p.frame g := fun g hg => frame_modifyFrame_of_ne hg _
  have hlen : (p.unmap f page).frames.length = p.frames.length := length_modifyFrame ..
  have hspare : ∀ g, some f ≠ some g → g ≠ f := fun g hg e => hg (congrArg some e.symm)
  refine ⟨⟨Maps.without h.mapped hf (frame_unmap hf) (find?_unmap p f page), h.pinned_of_reset (frame_unmap hf),
    fun g => ?_, h.nodup, fun g hg => ?_, fun g => ?_, hlen ▸ h.slots, fun q hq => ?_, h.counted⟩,
    congrArg Frame.page hself⟩
  · refine (h.spare g).trans ?_
    rw [hlen]
    refine and_congr Iff.rfl (and_congr_left fun hg => ?_)
    rw [hne g (hspare g hg)]
  · have hg' := ((h.spare g).1 (List.mem_append_left _ hg)).2.2
    rw [hne g (hspare g hg')]
    exact h.clean g hg
  · refine (h.tracked g).trans (and_congr_left fun hg => ?_)
    rw [hne g (hspare g hg)]
  · rw [retained_unmap] at hq
    rw [find?_unmap]
    split
    · rfl
    · rename_i e
      rw [if_neg e] at hq
      exact h.retained q hq

/-- The frame of a page that is discarded comes to the free frames, or to those that wait for their last use to
end. -/
theorem places_discard (hp : p.find? page = some f) :
    ((p.discard page).free ++ (p.discard page).pendingFree).Perm (f :: (p.free ++ p.pendingFree)) ∧
      ∀ g ∈ (p.discard page).free, g ∈ p.free ∨ g = f ∧ (p.frame f).pins = 0 := by
  unfold Pool.discard
  simp only [hp]
  cases hu : p.isPinned f with
  | true => exact ⟨List.append_assoc .. ▸ List.perm_append_singleton .., fun _ => Or.inl⟩
  | false =>
    have hidle : (p.frame f).pins = 0 := Nat.eq_zero_of_not_pos (of_decide_eq_false hu)
    exact ⟨.refl _, fun g hg => (List.mem_cons.1 hg).symm.imp_right fun e => ⟨e, hidle⟩⟩

/-- A page that is discarded leaves its frame to the free ones, or to those that wait for their last use to end. -/
theorem discard (h : p.Accounted pins none) (page : PageId) : (p.discard page).Accounted pins none := by
  cases hp : p.find? page with
  | none =>
    rw [discard_of_none hp]
    exact h
  | some f =>
    have hf : (p.frame f).page = some page := (h.mapped page f).1 hp
    have hframe := frame_discard hp hf
    have hfind := find?_discard hp
    obtain ⟨hlists, hfree⟩ := places_discard hp
    obtain ⟨hlen, hclock⟩ : (p.discard page).frames.length = p.frames.length ∧
        (p.discard page).clock = p.clock.remove f := by
      unfold Pool.discard
      simp only [hp]
      exact ⟨length_modifyFrame .., trivial⟩
    have hout : f ∉ p.free ++ p.pendingFree := fun hin => by
      rw [((h.spare f).1 hin).2.1] at hf
      cases hf
    refine ⟨Maps.without h.mapped hf hframe hfind, h.pinned_of_reset hframe, fun g => ?_,
      hlists.nodup_iff.2 (List.nodup_cons.2 ⟨hout, h.nodup⟩), fun g hg => ?_, fun g => ?_, ?_, fun q hq => ?_,
      hclock ▸ h.counted.remove f⟩
    · refine hlists.mem_iff.trans (List.mem_cons.trans ?_)
      rw [hlen, hframe]
      by_cases eg : g = f
      · rw [if_pos eg, eg]
        exact ⟨fun _ => ⟨lt_of_page hf, rfl, (Option.some_ne_none f).symm⟩, fun _ => Or.inl rfl⟩
      · rw [if_neg eg, or_iff_right eg]
        exact h.spare g
    · rw [hframe]
      obtain hg' | ⟨eg, hidle⟩ := hfree g hg
      · rw [if_neg fun e : g = f => hout (e ▸ List.mem_append_left _ hg')]
        exact h.clean g hg'
      · rw [if_pos eg]
        exact ⟨hidle, rfl, rfl⟩
    · rw [hclock, Clock.tracks_remove, Bool.and_eq_true, decide_eq_true_iff, h.tracked, hframe]
      by_cases eg : g = f
      · rw [if_pos eg, eg]
        exact ⟨fun hh => absurd rfl hh.2, fun hh => absurd rfl hh.1⟩
      · rw [if_neg eg]
        exact and_iff_left eg
    · rw [hclock, hlen]
      exact (Clock.length_remove ..).trans h.slots
    · rw [hfind]
      split
      · rfl
      · rename_i hqp
        rw [retained_discard hp, if_neg hqp] at hq
        exact h.retained q hq

theorem frame_reset (p : Pool) (f g : FrameId) :
    (p.modifyFrame f Frame.reset).frame g = if g = f then (p.frame g).reset else p.frame g := by
  rw [frame_modifyFrame]
  by_cases e : g = f
  · rw [if_pos e]
    split
    · rfl
    · rename_i hl
      have hn : p.frames.length ≤ g := Nat.le_of_not_lt fun hlt => hl ⟨e, e ▸ hlt⟩
      rw [frame, List.getElem?_eq_none hn]
      rfl
  · rw [if_neg e, if_neg fun hh => e hh.1]

theorem frame_resetAll (l : List FrameId) (p : Pool) (g : FrameId) :
    (l.foldl (fun p f => p.modifyFrame f Frame.reset) p).frame g = if g ∈ l then (p.frame g).reset else p.frame g := by
  induction l generalizing p with
  | nil => exact (if_neg List.not_mem_nil).symm
  | cons f l ih =>
    rw [List.foldl_cons, ih, frame_reset]
    by_cases e : g = f
    · rw [if_pos e, if_pos (List.mem_cons.2 (Or.inl e))]
      split <;> rfl
    · rw [if_neg e]
      simp only [List.mem_cons, e, false_or]

/-- A fold of changes of frames leaves everything else alone. -/
theorem resetAll_eq (l : List FrameId) (p : Pool) : ∃ frames : List Frame, frames.length = p.frames.length ∧
    l.foldl (fun p f => p.modifyFrame f Frame.reset) p = { p with frames } := by
  induction l generalizing p with
  | nil => exact ⟨p.frames, rfl, rfl⟩
  | cons f l ih =>
    obtain ⟨frames, hl, he⟩ := ih (p.modifyFrame f Frame.reset)
    exact ⟨frames, hl.trans (length_modifyFrame ..), he⟩

theorem frame_reclaim (p : Pool) (g : FrameId) :
    p.reclaim.frame g = if g ∈ p.pendingFree.filter (fun f => !p.isPinned f) then (p.frame g).reset else p.frame g :=
  frame_resetAll _ p g

/-- To make frames free touches only frames, and the lists of those that hold nothing. -/
theorem reclaim_eq (p : Pool) : ∃ (frames : List Frame) (free pendingFree : List FrameId),
    frames.length = p.frames.length ∧ p.reclaim = { p with frames, free, pendingFree } := by
  obtain ⟨frames, hlen, hframes⟩ := resetAll_eq (p.pendingFree.filter fun f => !p.isPinned f) p
  refine ⟨frames, p.reclaim.free, p.reclaim.pendingFree, hlen, ?_⟩
  unfold Pool.reclaim
  simp only [hframes]

theorem page_reclaim (h : p.Accounted pins out) (g : FrameId) : (p.reclaim.frame g).page = (p.frame g).page := by
  rw [frame_reclaim]
  split
  · rename_i hg
    exact ((h.spare g).1 (List.mem_append_right _ (List.mem_filter.1 hg).1)).2.1.symm
  · rfl

/-- Frames that hold pages stay as they are. -/
theorem frame_reclaim_of_page (h : p.Accounted pins out) (hg : (p.frame g).page ≠ none) :
    p.reclaim.frame g = p.frame g := by
  rw [frame_reclaim, if_neg fun hin => hg ?_]
  exact ((h.spare g).1 (List.mem_append_right _ (List.mem_filter.1 hin).1)).2.1

/-- The discarded frames that nobody uses any more become free. -/
theorem reclaim (h : p.Accounted pins none) : p.reclaim.Accounted pins none := by
  have hready : ∀ g, g ∈ p.pendingFree.filter (fun f => !p.isPinned f) → (p.frame g).pins = 0 := by
    intro g hg
    obtain ⟨-, hu⟩ := List.mem_filter.1 hg
    refine Nat.eq_zero_of_not_pos fun hpos => ?_
    rw [show p.isPinned g = true from decide_eq_true hpos] at hu
    cases hu
  have hframe := frame_reclaim p
  have hpage := h.page_reclaim
  have hlists : (p.reclaim.free ++ p.reclaim.pendingFree).Perm (p.free ++ p.pendingFree) := by
    show (((p.pendingFree.filter fun f => !p.isPinned f).reverse ++ p.free) ++ p.pendingFree.filter p.isPinned).Perm _
    have hparts := List.filter_append_perm p.isPinned p.pendingFree
    refine (((List.reverse_perm _).append_right _).append_right _).trans ?_
    refine (List.perm_append_comm.append_right _).trans ?_
    rw [List.append_assoc]
    exact (List.perm_append_comm.trans hparts).append_left _
  obtain ⟨htable, hclock, hretained, hlength⟩ : p.reclaim.pageTable = p.pageTable ∧ p.reclaim.clock = p.clock ∧
      p.reclaim.retained = p.retained ∧ p.reclaim.frames.length = p.frames.length := by
    obtain ⟨frames, free, pendingFree, hlen, e⟩ := reclaim_eq p
    rw [e]
    exact ⟨rfl, rfl, rfl, hlen⟩
  have hfind : ∀ q, p.reclaim.find? q = p.find? q := fun q => congrArg (fun t : Std.TreeMap PageId FrameId => t[q]?) htable
  refine ⟨fun q g => ?_, fun g => ?_, fun g => ?_, hlists.nodup_iff.2 h.nodup, fun g hg => ?_, fun g => ?_, ?_, fun q hq => ?_,
    hclock ▸ h.counted⟩
  · rw [hfind, hpage]
    exact h.mapped q g
  · rw [hframe]
    split
    · exact h.pinned g
    · exact h.pinned g
  · rw [hlength, hpage]
    exact hlists.mem_iff.trans (h.spare g)
  · rw [hframe]
    split
    · rename_i hg'
      exact ⟨hready g hg', rfl, rfl⟩
    · rename_i hg'
      refine h.clean g ((List.mem_append.1 hg).resolve_left fun hr => hg' ?_)
      exact List.mem_reverse.1 hr
  · rw [hclock, hpage]
    exact h.tracked g
  · rw [hclock, hlength]
    exact h.slots
  · rw [hretained] at hq
    rw [hfind]
    exact h.retained q hq

theorem forget (h : p.Accounted pins out) (t : TxnId) : (p.forget t).Accounted pins out :=
  { h with
    retained := fun page hp => h.retained page fun hn => hp (by
      show (p.retained.filter fun _ b => decide (b.owner ≠ t))[page]? = none
      rw [Std.TreeMap.getElem?_filter, hn]
      rfl) }

theorem markDirty (h : p.Accounted pins out) (page : PageId) (t : TxnId) : (p.markDirty page t).Accounted pins out := by
  unfold Pool.markDirty
  cases hp : p.find? page with
  | none => exact h
  | some f =>
    refine h.modifyFrame (h.taken_of_page ?_) (fun _ => rfl) fun _ => rfl
    rw [(h.mapped page f).1 hp]
    exact Option.some_ne_none _

/-! ### Frames in lists -/

theorem mem_mapped (h : p.Accounted pins out) : f ∈ p.mapped ↔ (p.frame f).page ≠ none := by
  unfold Pool.mapped
  rw [List.mem_map]
  constructor
  · rintro ⟨⟨page, g⟩, hin, rfl⟩
    rw [(h.mapped page g).1 (Std.TreeMap.mem_toList_iff_getElem?_eq_some.1 hin)]
    exact Option.some_ne_none _
  · intro hf
    obtain ⟨page, hp⟩ := Option.ne_none_iff_exists'.1 hf
    exact ⟨(page, f), Std.TreeMap.mem_toList_iff_getElem?_eq_some.2 ((h.mapped page f).2 hp), rfl⟩

/-- No two pages have the same frame. -/
theorem nodup_mapped (h : p.Accounted pins out) : p.mapped.Nodup := by
  have hkeys : p.pageTable.toList.Pairwise fun a b => ¬ compare a.1 b.1 = .eq := Std.TreeMap.distinct_keys_toList
  refine List.pairwise_map.2 (hkeys.imp_of_mem fun {a b} ha hb hne e => hne ?_)
  have hpage : ∀ x ∈ p.pageTable.toList, (p.frame x.2).page = some x.1 := fun x hx =>
    (h.mapped x.1 x.2).1 (Std.TreeMap.mem_toList_iff_getElem?_eq_some.1 hx)
  have hab : a.1 = b.1 := Option.some.inj ((hpage a ha).symm.trans (e ▸ hpage b hb))
  rw [hab]
  exact Std.compare_self

/-- Every frame is in one of the three lists, once. -/
theorem partition (h : p.Accounted pins none) :
    (p.mapped ++ p.free ++ p.pendingFree).Perm (List.range p.capacity) := by
  have hapart : p.mapped.Disjoint (p.free ++ p.pendingFree) := fun f hf hs => h.mem_mapped.1 hf ((h.spare f).1 hs).2.1
  rw [List.append_assoc]
  refine (List.perm_ext_iff_of_nodup (h.nodup_mapped.append h.nodup hapart) List.nodup_range).2 fun f => ?_
  rw [List.mem_append, h.mem_mapped, h.spare, List.mem_range]
  constructor
  · rintro (hf | hf)
    · obtain ⟨page, hp⟩ := Option.ne_none_iff_exists'.1 hf
      exact lt_of_page hp
    · exact hf.1
  · intro hf
    by_cases e : (p.frame f).page = none
    · exact Or.inr ⟨hf, e, (Option.some_ne_none f).symm⟩
    · exact Or.inl e

/-- The clock tracks as many frames as there are pages cached. -/
theorem size_clock (h : p.Accounted pins none) : p.clock.size = p.pageCount := by
  have hcount : p.clock.size = ((List.range p.clock.slots.length).filter p.clock.tracks).length := by
    rw [← List.countP_eq_length_filter]
    exact Clock.size_eq h.counted
  have hperm : ((List.range p.clock.slots.length).filter p.clock.tracks).Perm p.mapped := by
    refine (List.perm_ext_iff_of_nodup (List.nodup_range.filter _) h.nodup_mapped).2 fun f => ?_
    rw [List.mem_filter, h.mem_mapped, h.tracked, List.mem_range, and_iff_left (Option.some_ne_none f).symm]
    refine and_iff_right_of_imp fun hf => ?_
    obtain ⟨page, hp⟩ := Option.ne_none_iff_exists'.1 hf
    exact h.slots.symm ▸ lt_of_page hp
  rw [hcount, hperm.length_eq, Pool.mapped, List.length_map, Std.TreeMap.length_toList]
  rfl

end Accounted

end Pool

end TupleStore
