import TupleStore.Cache.Clock

/-!
# Which frames the clock tracks

* `tracks c f` : the clock `c` tracks the frame `f`. An access tracks one more frame (`tracks_access`), a removal
  one less (`tracks_remove`), and a victim is a tracked frame that is not pinned and is the only one that is
  tracked no longer (`tracks_evict`, `of_evict`);
* `Counted` : the clock has counted the frames that it tracks. It goes on doing so (`Counted.access`,
  `Counted.remove`, `Counted.evict`).
-/

namespace TupleStore.Clock

set_option autoImplicit false

/-- Whether a frame is tracked. -/
def tracks (c : Clock) (f : FrameId) : Bool := (c.slots[f]?.getD {}).tracked

theorem tracks_set (c : Clock) (f g : FrameId) (slot : ClockSlot) (hand size : Nat) :
    tracks ⟨c.slots.set f slot, hand, size⟩ g =
      if g = f ∧ f < c.slots.length then slot.tracked else c.tracks g := by
  unfold tracks
  rw [List.getElem?_set]
  by_cases e : f = g
  · subst e
    by_cases hl : f < c.slots.length
    · simp [hl]
    · simp [hl]
  · simp [e, Ne.symm e]

theorem tracks_of_getElem? {c : Clock} {f : FrameId} {slot : ClockSlot} (h : c.slots[f]? = some slot) :
    c.tracks f = slot.tracked := by
  rw [tracks, h, Option.getD_some]

theorem lt_of_tracks {c : Clock} {f : FrameId} (h : c.tracks f = true) : f < c.slots.length := by
  refine Nat.lt_of_not_le fun hn => ?_
  rw [tracks, List.getElem?_eq_none hn] at h
  cases h

theorem length_access (c : Clock) (f : FrameId) : (c.access f).slots.length = c.slots.length := by
  unfold access
  split <;> simp

theorem length_remove (c : Clock) (f : FrameId) : (c.remove f).slots.length = c.slots.length := by
  unfold remove
  split
  · rfl
  · split <;> simp

theorem tracks_access (c : Clock) (f g : FrameId) :
    (c.access f).tracks g = if g = f ∧ f < c.slots.length then true else c.tracks g := by
  unfold access
  cases h : c.slots[f]? with
  | none => rw [if_neg fun hg => Nat.not_le_of_lt hg.2 (List.getElem?_eq_none_iff.1 h)]
  | some slot => exact tracks_set c f g ⟨true, true⟩ c.hand _

theorem tracks_remove (c : Clock) (f g : FrameId) : (c.remove f).tracks g = (c.tracks g && decide (g ≠ f)) := by
  -- a frame that is not tracked stays as it is
  have huntracked : c.tracks f = false → c.tracks g = (c.tracks g && decide (g ≠ f)) := fun hf => by
    by_cases e : g = f <;> simp [e, hf]
  unfold remove
  cases h : c.slots[f]? with
  | none => exact huntracked (by rw [tracks, h]; rfl)
  | some slot =>
    dsimp only
    split
    · rename_i ht
      have hf : f < c.slots.length := lt_of_tracks ((tracks_of_getElem? h).trans ht)
      rw [tracks_set]
      by_cases e : g = f <;> simp [e, hf]
    · rename_i ht
      exact huntracked ((tracks_of_getElem? h).trans (Bool.eq_false_iff.2 ht))

theorem tracks_ofCapacity (n : Nat) (f : FrameId) : (ofCapacity n).tracks f = false := by
  unfold tracks ofCapacity
  rw [List.getElem?_replicate]
  split <;> rfl

/-- A sweep untracks the frame that it ends on, and no other; that frame was tracked and is not pinned. -/
theorem tracks_sweep (isPinned : FrameId → Bool) (steps : Nat) (c : Clock) :
    (sweep isPinned steps c).2.slots.length = c.slots.length ∧
      (∀ f, (sweep isPinned steps c).2.tracks f =
        (c.tracks f && decide ((sweep isPinned steps c).1 ≠ some f))) ∧
      ∀ f, (sweep isPinned steps c).1 = some f → c.tracks f = true ∧ isPinned f = false := by
  induction steps generalizing c with
  | zero => simp [sweep]
  | succ steps ih =>
    have hslot : (c.slots[c.hand]?.getD {}).tracked = c.tracks c.hand := rfl
    unfold sweep
    dsimp only
    split
    · exact ih c.advance
    · rename_i hfree
      simp only [hslot, Bool.or_eq_true, Bool.not_eq_true', not_or, Bool.not_eq_false,
        Bool.not_eq_true] at hfree
      split
      · -- the referenced frame loses its bit and is tracked as before
        obtain ⟨hl, ht, hv⟩ := ih { c.advance with
          slots := c.slots.set c.hand { c.slots[c.hand]?.getD {} with referenced := false } }
        have hkeep : ∀ f, tracks { c.advance with
            slots := c.slots.set c.hand { c.slots[c.hand]?.getD {} with referenced := false } } f =
            c.tracks f := by
          intro f
          rw [tracks_set]
          split
          · rename_i hf
            rw [hf.1]
            rfl
          · rfl
        refine ⟨by rw [hl, List.length_set], fun f => ?_, fun f hf => ?_⟩
        · rw [ht, hkeep]
        · obtain ⟨h₁, h₂⟩ := hv f hf
          exact ⟨by rw [← hkeep]; exact h₁, h₂⟩
      · refine ⟨List.length_set, fun f => ?_, fun f hf => ?_⟩
        · rw [tracks_set]
          by_cases e : f = c.hand
          · simp [e, lt_of_tracks hfree.1]
          · simp [e, Ne.symm e]
        · cases hf
          exact hfree

theorem tracks_evict (c : Clock) (isPinned : FrameId → Bool) (f : FrameId) :
    (c.evict isPinned).2.tracks f = (c.tracks f && decide ((c.evict isPinned).1 ≠ some f)) :=
  (tracks_sweep isPinned _ c).2.1 f

/-- A victim is tracked and not pinned. -/
theorem of_evict {c : Clock} {isPinned : FrameId → Bool} {f : FrameId} (h : (c.evict isPinned).1 = some f) :
    c.tracks f = true ∧ isPinned f = false := (tracks_sweep isPinned _ c).2.2 f h

/-! ## How many frames are tracked -/

/-- The clock has counted the frames that it tracks. -/
def Counted (c : Clock) : Prop := c.size = c.slots.countP ClockSlot.tracked

/-- The frames that are tracked, after one of them has changed. -/
theorem countP_set {c : Clock} {f : FrameId} {old : ClockSlot} (h : c.slots[f]? = some old) (slot : ClockSlot) :
    (c.slots.set f slot).countP ClockSlot.tracked + (if old.tracked then 1 else 0) =
      c.slots.countP ClockSlot.tracked + if slot.tracked then 1 else 0 := by
  obtain ⟨hf, rfl⟩ := List.getElem?_eq_some_iff.1 h
  rw [List.countP_set hf]
  by_cases ho : c.slots[f].tracked = true
  · have hpos : 0 < c.slots.countP ClockSlot.tracked := List.countP_pos_iff.2 ⟨_, List.getElem_mem hf, ho⟩
    rw [if_pos ho]
    omega
  · rw [if_neg ho]
    rfl

theorem size_eq {c : Clock} (h : c.Counted) : c.size = (List.range c.slots.length).countP c.tracks := by
  have hslots : c.slots = (List.range c.slots.length).map fun f => c.slots[f]?.getD {} := by
    refine List.ext_getElem (by simp) fun f hf _ => ?_
    rw [List.getElem_map, List.getElem_range, List.getElem?_eq_getElem hf, Option.getD_some]
  calc c.size
      = c.slots.countP ClockSlot.tracked := h
    _ = ((List.range c.slots.length).map fun f => c.slots[f]?.getD {}).countP ClockSlot.tracked := congrArg _ hslots
    _ = (List.range c.slots.length).countP c.tracks := List.countP_map

namespace Counted

theorem ofCapacity (n : Nat) : (ofCapacity n).Counted := by
  simp [Counted, Clock.ofCapacity, List.countP_replicate]

variable {c : Clock}

theorem access (h : c.Counted) (f : FrameId) : (c.access f).Counted := by
  unfold Counted at *
  unfold Clock.access
  cases hf : c.slots[f]? with
  | none => exact h
  | some slot =>
    have hset := countP_set hf ⟨true, true⟩
    dsimp only
    cases ht : slot.tracked <;> simp [ht] at hset ⊢ <;> omega

/-- A tracked frame that is tracked no longer is one less. -/
theorem untrack (h : c.Counted) {f : FrameId} (ht : c.tracks f = true) (hand : Nat) :
    Counted ⟨c.slots.set f {}, hand, c.size - 1⟩ := by
  have hf := List.getElem?_eq_getElem (lt_of_tracks ht)
  have hset := countP_set hf {}
  rw [← tracks_of_getElem? hf, ht] at hset
  simp at hset
  unfold Counted at *
  dsimp only
  omega

theorem remove (h : c.Counted) (f : FrameId) : (c.remove f).Counted := by
  unfold Clock.remove
  cases hf : c.slots[f]? with
  | none => exact h
  | some slot =>
    dsimp only
    split
    · rename_i ht
      exact h.untrack ((tracks_of_getElem? hf).trans ht) c.hand
    · exact h

theorem sweep (h : c.Counted) (isPinned : FrameId → Bool) (steps : Nat) : (sweep isPinned steps c).2.Counted := by
  induction steps generalizing c with
  | zero => exact h
  | succ steps ih =>
    unfold Clock.sweep
    dsimp only
    split
    · exact ih (c := c.advance) h
    · rename_i hfree
      have ht : c.tracks c.hand = true := by
        simp only [Bool.or_eq_true, Bool.not_eq_true', not_or, Bool.not_eq_false] at hfree
        exact hfree.1
      have hf := List.getElem?_eq_getElem (lt_of_tracks ht)
      split
      · refine ih ?_
        -- the frame loses its bit only
        have hset := countP_set hf { c.slots[c.hand]?.getD {} with referenced := false }
        rw [hf] at hset ⊢
        exact h.trans (Nat.add_right_cancel hset).symm
      · exact h.untrack ht _

theorem evict (h : c.Counted) (isPinned : FrameId → Bool) : (c.evict isPinned).2.Counted := h.sweep isPinned _

end Counted

end TupleStore.Clock
