import TupleStore.Proofs.Cache.Tracking

/-!
# A victim is found whenever there is one

The hand passes by a tracked frame that is not pinned at most once, when it takes the bit of the frame away. So two
rounds are enough to come to a victim, wherever the hand is and whatever bits are set.

* `Clock.Fit` : the hand is at one of the frames, which everything that happens to a clock keeps (`Fit.access`,
  `Fit.remove`, `Fit.evict`);
* `Clock.ahead` : how many frames the hand has to pass before it comes to a given one;
* `Clock.sweep_ne_none` : a sweep that is long enough for a frame ends on a victim;
* `Clock.evict_eq_none_iff` : there is no victim exactly if all tracked frames are pinned.
-/

namespace TupleStore.Clock

set_option autoImplicit false

/-! ## The hand -/

/-- The hand is at a frame, if there is any. -/
def Fit (c : Clock) : Prop := 0 < c.slots.length → c.hand < c.slots.length

variable {c : Clock} {f : Nat} {isPinned : FrameId → Bool}

theorem Fit.ofCapacity (n : Nat) : (ofCapacity n).Fit := fun h => h

theorem Fit.congr (h : c.Fit) {c' : Clock} (hl : c'.slots.length = c.slots.length) (hh : c'.hand = c.hand) :
    c'.Fit := by
  unfold Fit
  rw [hl, hh]
  exact h

theorem hand_access (c : Clock) (f : FrameId) : (c.access f).hand = c.hand := by
  unfold access
  split <;> rfl

theorem hand_remove (c : Clock) (f : FrameId) : (c.remove f).hand = c.hand := by
  unfold remove
  split
  · rfl
  · split <;> rfl

theorem Fit.access (h : c.Fit) (f : FrameId) : (c.access f).Fit := h.congr (length_access c f) (hand_access c f)

theorem Fit.remove (h : c.Fit) (f : FrameId) : (c.remove f).Fit := h.congr (length_remove c f) (hand_remove c f)

theorem Fit.advance (c : Clock) : c.advance.Fit := fun h => Nat.mod_lt _ h

theorem Fit.sweep (h : c.Fit) (isPinned : FrameId → Bool) (steps : Nat) : (sweep isPinned steps c).2.Fit := by
  induction steps generalizing c with
  | zero => exact h
  | succ steps ih =>
    have hset : ∀ slot size, Fit { c.advance with slots := c.slots.set c.hand slot, size } := fun slot _ =>
      (Fit.advance c).congr List.length_set rfl
    unfold Clock.sweep
    dsimp only
    split
    · exact ih (.advance c)
    · split
      · exact ih (hset _ _)
      · exact hset _ _

theorem Fit.evict (h : c.Fit) (isPinned : FrameId → Bool) : (c.evict isPinned).2.Fit := h.sweep isPinned _

/-! ## Sweeps -/

/-- How many frames the hand passes before it comes to a frame. -/
def ahead (c : Clock) (f : Nat) : Nat := if c.hand ≤ f then f - c.hand else f + c.slots.length - c.hand

/-- How many steps the hand can take before a frame is the victim: a round more if the frame has a bit to lose. -/
def patience (c : Clock) (f : Nat) : Nat :=
  c.ahead f + if (c.slots[f]?.getD {}).referenced then c.slots.length else 0

theorem hand_advance (hh : c.hand < c.slots.length) :
    c.advance.hand = if c.hand + 1 = c.slots.length then 0 else c.hand + 1 := by
  unfold advance
  dsimp only
  split
  · rename_i e
    rw [e, Nat.mod_self]
  · exact Nat.mod_eq_of_lt (by omega)

theorem ahead_lt (hh : c.hand < c.slots.length) (hf : f < c.slots.length) : c.ahead f < c.slots.length := by
  unfold ahead
  split <;> omega

/-- The hand comes nearer to all frames but the one that it leaves, from which it is a round away. -/
theorem ahead_advance (hh : c.hand < c.slots.length) (hf : f < c.slots.length) :
    c.advance.ahead f + 1 = if f = c.hand then c.slots.length else c.ahead f := by
  unfold ahead
  rw [hand_advance hh, show c.advance.slots = c.slots from rfl]
  repeat' split
  all_goals omega

/-- A sweep that is long enough for a tracked frame that is not pinned ends on a victim, that frame or another one. The
induction is on the steps: each of them brings the hand nearer to the frame, or takes its bit away. -/
theorem sweep_ne_none {steps : Nat} (hh : c.hand < c.slots.length) (ht : c.tracks f = true)
    (hp : isPinned f = false) (hsteps : c.patience f < steps) : (sweep isPinned steps c).1 ≠ none := by
  induction steps generalizing c with
  | zero => exact absurd hsteps (Nat.not_lt_zero _)
  | succ steps ih =>
    have hf := lt_of_tracks ht
    have hnext := ahead_advance hh hf
    have hhand : c.advance.hand < c.slots.length := Nat.mod_lt _ (Nat.lt_of_le_of_lt (Nat.zero_le _) hh)
    unfold sweep
    dsimp only
    split
    · rename_i hpass
      have hne : f ≠ c.hand := by
        rintro rfl
        rw [show (c.slots[c.hand]?.getD {}).tracked = true from ht, hp] at hpass
        cases hpass
      refine ih (c := c.advance) hhand ht ?_
      rw [if_neg hne] at hnext
      unfold patience at hsteps ⊢
      rw [show c.advance.slots = c.slots from rfl]
      omega
    · split
      · rename_i hreferenced
        let c' : Clock := { c.advance with
          slots := c.slots.set c.hand { c.slots[c.hand]?.getD {} with referenced := false } }
        have hlength : c'.slots.length = c.slots.length := List.length_set
        have hahead : c'.ahead f = c.advance.ahead f := by
          unfold ahead
          rw [hlength]
          rfl
        refine ih (c := c') (hlength ▸ hhand) ?_ ?_
        · show tracks ⟨c.slots.set c.hand _, _, _⟩ f = true
          rw [tracks_set]
          split
          · rename_i e
            exact e.1 ▸ ht
          · exact ht
        · unfold patience at hsteps ⊢
          rw [hahead, hlength]
          by_cases e : f = c.hand
          · -- the frame loses its bit, and its last round begins
            rw [if_pos e] at hnext
            rw [e, if_pos hreferenced] at hsteps
            have hbit : (c'.slots[f]?.getD {}).referenced = false := by
              rw [e, show c'.slots = c.slots.set c.hand _ from rfl, List.getElem?_set_self hh]
              rfl
            rw [hbit]
            simp only [Bool.false_eq_true, if_false]
            omega
          · rw [if_neg e] at hnext
            have hslot : c'.slots[f]? = c.slots[f]? := List.getElem?_set_ne (Ne.symm e)
            rw [hslot]
            omega
      · exact Option.some_ne_none _

/-- There is no victim exactly if all tracked frames are pinned. -/
theorem evict_eq_none_iff (h : c.Fit) (isPinned : FrameId → Bool) :
    (c.evict isPinned).1 = none ↔ ∀ f, c.tracks f = true → isPinned f = true := by
  constructor
  · intro hnone f ht
    have hf := lt_of_tracks ht
    have hh := h (Nat.lt_of_le_of_lt (Nat.zero_le _) hf)
    have hahead := ahead_lt hh hf
    cases hp : isPinned f with
    | true => rfl
    | false =>
      refine absurd hnone (sweep_ne_none hh ht hp ?_)
      unfold patience
      split <;> omega
  · intro hall
    cases hv : (c.evict isPinned).1 with
    | none => rfl
    | some f =>
      obtain ⟨ht, hp⟩ := of_evict hv
      rw [hall f ht] at hp
      cases hp

/-- Every tracked frame can be the victim: it is if it is the only one that is not pinned. -/
theorem evict_of_alone (h : c.Fit) (ht : c.tracks f = true) {isPinned : FrameId → Bool} (hf : isPinned f = false)
    (hothers : ∀ g, c.tracks g = true → g ≠ f → isPinned g = true) : (c.evict isPinned).1 = some f := by
  cases hv : (c.evict isPinned).1 with
  | none =>
    rw [(evict_eq_none_iff h isPinned).1 hv f ht] at hf
    cases hf
  | some g =>
    obtain ⟨hg, hp⟩ := of_evict hv
    by_cases e : g = f
    · rw [e]
    · rw [hothers g hg e] at hp
      cases hp

/-- Two frames with their bits set, of which one is pinned: the hand takes the bit of the other away, and comes back. -/
example : (evict ⟨[⟨true, true⟩, ⟨true, true⟩], 1, 2⟩ fun f => f = 0).1 = some 1 := by decide

end TupleStore.Clock
