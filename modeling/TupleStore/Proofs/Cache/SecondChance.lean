import TupleStore.Proofs.Cache.Victims

/-!
# The second chance

What the clock does when it is asked for a frame, told without its sweep. The frames that can be chosen are the
tracked ones that are not pinned; they come in the order in which the hand comes to them (`ahead`).

* `IsOpen`, `refers` : a frame can be chosen, and has its bit;
* `Chooses` : the victim is the first frame without a bit, or the first of all if all have theirs. The frames that the
  hand passes over lose their bits, and all others stay as they are. There is one such victim at most (`Chooses.unique`);
* `sweep_advance`, `sweep_spare`, `sweep_stop` : the three things that one step of the sweep can be, and
  `chooses_sweep` what they come to;
* `run_evicts` : so the clock chooses, whatever has happened to it before, and it knows how many frames it tracks.
-/

namespace TupleStore

set_option autoImplicit false

/-- The slot without its bit. -/
def ClockSlot.clear (s : ClockSlot) : ClockSlot := { s with referenced := false }

namespace Clock

/-! ## What is to be chosen -/

/-- A frame can be chosen: it is tracked, and not pinned. -/
def IsOpen (c : Clock) (isPinned : FrameId → Bool) (f : FrameId) : Prop := c.tracks f = true ∧ isPinned f = false

/-- Whether a frame has its bit. -/
def refers (c : Clock) (f : FrameId) : Bool := (c.slots[f]?.getD {}).referenced

/-- The hand passes over a frame that can be chosen before it chooses another one. It passes over all of them if the
frame that it chooses has its bit. -/
def Passes (c : Clock) (isPinned : FrameId → Bool) (f g : FrameId) : Prop :=
  c.IsOpen isPinned g ∧ (c.refers f = true ∨ c.ahead g < c.ahead f)

/-- The choice of a frame, and the clock after it. -/
structure Chooses (c : Clock) (isPinned : FrameId → Bool) (f : FrameId) (c' : Clock) : Prop where
  isOpen : c.IsOpen isPinned f
  /-- The frame is the first without a bit, or all have theirs and it is the first of all. -/
  first : (c.refers f = false ∧ ∀ g, c.IsOpen isPinned g → c.ahead g < c.ahead f → c.refers g = true) ∨
    (∀ g, c.IsOpen isPinned g → c.refers g = true) ∧ ∀ g, c.IsOpen isPinned g → c.ahead f ≤ c.ahead g
  untracked : c'.slots[f]? = some {}
  passed : ∀ g, g ≠ f → c.Passes isPinned f g → c'.slots[g]? = c.slots[g]?.map ClockSlot.clear
  kept : ∀ g, g ≠ f → ¬ c.Passes isPinned f g → c'.slots[g]? = c.slots[g]?
  hand : c'.hand = (f + 1) % c.slots.length

variable {c c' c'' : Clock} {isPinned : FrameId → Bool} {f g : Nat}

theorem ahead_hand (c : Clock) : c.ahead c.hand = 0 := by
  simp [ahead]

/-- No two frames are equally far from the hand. -/
theorem ahead_inj (hh : c.hand < c.slots.length) (hf : f < c.slots.length) (hg : g < c.slots.length)
    (h : c.ahead f = c.ahead g) : f = g := by
  unfold ahead at h
  split at h <;> split at h <;> omega

theorem IsOpen.lt (h : c.IsOpen isPinned f) : f < c.slots.length := lt_of_tracks h.1

theorem Chooses.ahead_le (h : c.Chooses isPinned f c') (h' : c.Chooses isPinned g c'') : c.ahead f ≤ c.ahead g := by
  rcases h.first with ⟨hf, hbefore⟩ | ⟨-, hleast⟩
  · refine Nat.le_of_not_lt fun hlt => ?_
    have hg := hbefore g h'.isOpen hlt
    rcases h'.first with ⟨hno, -⟩ | ⟨hall, -⟩
    · simp [hno] at hg
    · simp [hall f h.isOpen] at hf
  · exact hleast g h'.isOpen

/-- There is one choice at most. -/
theorem Chooses.unique (hfit : c.Fit) (h : c.Chooses isPinned f c') (h' : c.Chooses isPinned g c'') : f = g :=
  ahead_inj (hfit (Nat.zero_lt_of_lt h.isOpen.lt)) h.isOpen.lt h'.isOpen.lt
    (Nat.le_antisymm (h.ahead_le h') (h'.ahead_le h))

/-! ## The sweep, step by step -/

/-- The hand passes over a frame that has its bit, and takes it away. -/
def spare (c : Clock) : Clock :=
  { c.advance with slots := c.slots.set c.hand { c.slots[c.hand]?.getD {} with referenced := false } }

variable {steps : Nat}

theorem sweep_advance (h : ¬ c.IsOpen isPinned c.hand) : sweep isPinned (steps + 1) c = sweep isPinned steps c.advance := by
  have hpass : (!(c.slots[c.hand]?.getD {}).tracked || isPinned c.hand) = true := by
    rw [IsOpen, tracks] at h
    revert h
    cases (c.slots[c.hand]?.getD {}).tracked <;> cases isPinned c.hand <;> simp
  rw [sweep]
  simp [hpass]

theorem sweep_spare (h : c.IsOpen isPinned c.hand) (hr : c.refers c.hand = true) :
    sweep isPinned (steps + 1) c = sweep isPinned steps c.spare := by
  have ht : (c.slots[c.hand]?.getD {}).tracked = true := h.1
  have hr : (c.slots[c.hand]?.getD {}).referenced = true := hr
  rw [sweep]
  simp [ht, h.2, hr, spare]

theorem sweep_stop (h : c.IsOpen isPinned c.hand) (hr : c.refers c.hand = false) :
    sweep isPinned (steps + 1) c =
      (some c.hand, { c.advance with slots := c.slots.set c.hand {}, size := c.size - 1 }) := by
  have ht : (c.slots[c.hand]?.getD {}).tracked = true := h.1
  have hr : (c.slots[c.hand]?.getD {}).referenced = false := hr
  rw [sweep]
  simp [ht, h.2, hr]

/-! ### A frame that is spared -/

theorem length_spare (c : Clock) : c.spare.slots.length = c.slots.length := List.length_set

theorem tracks_spare (c : Clock) (g : FrameId) : c.spare.tracks g = c.tracks g := by
  refine (tracks_set c c.hand g _ _ _).trans ?_
  split
  · rename_i hg
    rw [hg.1]
    rfl
  · rfl

theorem isOpen_spare : c.spare.IsOpen isPinned g ↔ c.IsOpen isPinned g := by
  rw [IsOpen, tracks_spare, IsOpen]

theorem getElem?_spare_hand (c : Clock) : c.spare.slots[c.hand]? = c.slots[c.hand]?.map ClockSlot.clear := by
  show (c.slots.set c.hand _)[c.hand]? = _
  rw [List.getElem?_set_self']
  cases c.slots[c.hand]? <;> rfl

theorem getElem?_spare_of_ne (hg : g ≠ c.hand) : c.spare.slots[g]? = c.slots[g]? := List.getElem?_set_ne hg.symm

theorem refers_spare_hand (c : Clock) : c.spare.refers c.hand = false := by
  rw [refers, getElem?_spare_hand]
  cases c.slots[c.hand]? <;> rfl

theorem refers_spare_of_ne (hg : g ≠ c.hand) : c.spare.refers g = c.refers g := by
  rw [refers, getElem?_spare_of_ne hg, refers]

theorem ahead_spare (c : Clock) (g : Nat) : c.spare.ahead g = c.advance.ahead g := by
  unfold ahead
  rw [length_spare]
  rfl

/-! ### What a step leaves to be chosen -/

/-- The choice is the same before the hand has moved on from a frame that cannot be chosen. -/
theorem Chooses.of_advance (hh : c.hand < c.slots.length) (ho : ¬ c.IsOpen isPinned c.hand)
    (h : c.advance.Chooses isPinned f c') : c.Chooses isPinned f c' := by
  have hnext : ∀ g, c.IsOpen isPinned g → c.advance.ahead g + 1 = c.ahead g := fun g hg => by
    have hne : g ≠ c.hand := fun e => ho (e ▸ hg)
    have hstep := ahead_advance hh hg.lt
    rwa [if_neg hne] at hstep
  have hf := hnext f h.isOpen
  have hpasses : ∀ g, c.advance.Passes isPinned f g ↔ c.Passes isPinned f g := fun g =>
    and_congr_right fun hg => or_congr_right (by have := hnext g hg; omega)
  exact {
    isOpen := h.isOpen
    first := h.first.imp (fun hfirst => ⟨hfirst.1, fun g hg hlt => hfirst.2 g hg (by have := hnext g hg; omega)⟩)
      fun hfirst => ⟨hfirst.1, fun g hg => by have := hfirst.2 g hg; have := hnext g hg; omega⟩
    untracked := h.untracked
    passed := fun g hg hp => h.passed g hg ((hpasses g).2 hp)
    kept := fun g hg hp => h.kept g hg fun hp' => hp ((hpasses g).1 hp')
    hand := h.hand }

/-- How far the frames are from the hand once it has moved on. The one that it was at has become the last. -/
theorem ahead_spare_add_one (hh : c.hand < c.slots.length) (hg : g < c.slots.length) :
    c.spare.ahead g + 1 = if g = c.hand then c.slots.length else c.ahead g := by
  rw [ahead_spare, ahead_advance hh hg]

/-- The hand has just taken a bit away, so it stops before it has come round. -/
theorem Chooses.first_of_spare (ho : c.IsOpen isPinned c.hand) (h : c.spare.Chooses isPinned f c') :
    c.spare.refers f = false ∧
      ∀ g, c.spare.IsOpen isPinned g → c.spare.ahead g < c.spare.ahead f → c.spare.refers g = true := by
  refine h.first.resolve_right fun hall => ?_
  have hself := hall.1 c.hand (isOpen_spare.2 ho)
  simp [refers_spare_hand] at hself

/-- A frame that was spared is chosen in the end if all others have their bits. It was the first then. -/
theorem Chooses.of_spare_hand (hh : c.hand < c.slots.length) (ho : c.IsOpen isPinned c.hand)
    (hr : c.refers c.hand = true) (h : c.spare.Chooses isPinned c.hand c') : c.Chooses isPinned c.hand c' := by
  have hhand := ahead_hand c
  have hbehind : ∀ g, c.IsOpen isPinned g → g ≠ c.hand → c.spare.ahead g < c.spare.ahead c.hand := by
    intro g hg hne
    have hlast := ahead_spare_add_one hh hh
    have hnext := ahead_spare_add_one hh hg.lt
    have hlt := ahead_lt hh hg.lt
    rw [if_pos rfl] at hlast
    rw [if_neg hne] at hnext
    omega
  have hall : ∀ g, c.IsOpen isPinned g → c.refers g = true := by
    intro g hg
    by_cases e : g = c.hand
    · rw [e, hr]
    · rw [← refers_spare_of_ne e]
      exact (h.first_of_spare ho).2 g (isOpen_spare.2 hg) (hbehind g hg e)
  exact {
    isOpen := ho
    first := .inr ⟨hall, fun g _ => by omega⟩
    untracked := h.untracked
    passed := fun g hg hp => by
      rw [h.passed g hg ⟨isOpen_spare.2 hp.1, .inr (hbehind g hp.1 hg)⟩, getElem?_spare_of_ne hg]
    kept := fun g hg hp => by
      rw [h.kept g hg fun hp' => hp ⟨isOpen_spare.1 hp'.1, .inl hr⟩, getElem?_spare_of_ne hg]
    hand := by rw [h.hand, length_spare] }

/-- Another frame that is chosen was without its bit before, and the hand passes over the one that was spared. -/
theorem Chooses.of_spare_of_ne (hh : c.hand < c.slots.length) (ho : c.IsOpen isPinned c.hand)
    (hr : c.refers c.hand = true) (e : f ≠ c.hand) (h : c.spare.Chooses isPinned f c') : c.Chooses isPinned f c' := by
  have hopen : c.IsOpen isPinned f := isOpen_spare.1 h.isOpen
  have hhand := ahead_hand c
  have hlt := ahead_lt hh hopen.lt
  have hf := ahead_spare_add_one hh hopen.lt
  rw [if_neg e] at hf
  obtain ⟨hno, hbefore⟩ := h.first_of_spare ho
  rw [refers_spare_of_ne e] at hno
  have hnear : ∀ g, g ≠ c.hand → c.IsOpen isPinned g → (c.spare.ahead g < c.spare.ahead f ↔ c.ahead g < c.ahead f) := by
    intro g eg hg
    have hg := ahead_spare_add_one hh hg.lt
    rw [if_neg eg] at hg
    omega
  exact {
    isOpen := hopen
    first := .inl ⟨hno, fun g hg hlt => by
      by_cases eg : g = c.hand
      · rw [eg, hr]
      · rw [← refers_spare_of_ne eg]
        exact hbefore g (isOpen_spare.2 hg) ((hnear g eg hg).2 hlt)⟩
    untracked := h.untracked
    passed := fun g hg hp => by
      have hp' := hp.2.resolve_left (by simp [hno])
      by_cases eg : g = c.hand
      · -- it has lost its bit already, and the hand does not come to it again
        subst eg
        have hlast := ahead_spare_add_one hh hh
        rw [if_pos rfl] at hlast
        rw [h.kept _ hg fun hp'' => ?_, getElem?_spare_hand]
        rcases hp''.2 with hp'' | hp''
        · simp [refers_spare_of_ne e, hno] at hp''
        · omega
      · rw [h.passed g hg ⟨isOpen_spare.2 hp.1, .inr ((hnear g eg hp.1).2 hp')⟩, getElem?_spare_of_ne eg]
    kept := fun g hg hp => by
      have eg : g ≠ c.hand := fun eg => hp ⟨eg ▸ ho, .inr (by rw [eg]; omega)⟩
      rw [h.kept g hg fun hp' => hp ⟨isOpen_spare.1 hp'.1, ?_⟩, getElem?_spare_of_ne eg]
      exact hp'.2.imp (fun hp' => by rwa [refers_spare_of_ne e] at hp') (hnear g eg (isOpen_spare.1 hp'.1)).1
    hand := by rw [h.hand, length_spare] }

/-- The choice is the same before the hand has spared a frame. -/
theorem Chooses.of_spare (hh : c.hand < c.slots.length) (ho : c.IsOpen isPinned c.hand) (hr : c.refers c.hand = true)
    (h : c.spare.Chooses isPinned f c') : c.Chooses isPinned f c' := by
  by_cases e : f = c.hand
  · subst e
    exact h.of_spare_hand hh ho hr
  · exact h.of_spare_of_ne hh ho hr e

/-- The hand stops at a frame without a bit. -/
theorem chooses_stop (hh : c.hand < c.slots.length) (ho : c.IsOpen isPinned c.hand) (hr : c.refers c.hand = false) :
    c.Chooses isPinned c.hand { c.advance with slots := c.slots.set c.hand {}, size := c.size - 1 } := by
  have hhand := ahead_hand c
  exact {
    isOpen := ho
    first := .inl ⟨hr, fun g _ hlt => by omega⟩
    untracked := List.getElem?_set_self hh
    passed := fun g _ hp => by
      rcases hp.2 with hp | hp
      · simp [hr] at hp
      · omega
    kept := fun g hg _ => List.getElem?_set_ne hg.symm
    hand := rfl }

/-- What a sweep ends on is the choice. -/
theorem chooses_sweep (hfit : c.Fit) (hf : (sweep isPinned steps c).1 = some f) :
    c.Chooses isPinned f (sweep isPinned steps c).2 := by
  induction steps generalizing c with
  | zero => cases hf
  | succ steps ih =>
    have hh : c.hand < c.slots.length :=
      hfit (Nat.zero_lt_of_lt (lt_of_tracks ((tracks_sweep isPinned _ c).2.2 f hf).1))
    by_cases ho : c.IsOpen isPinned c.hand
    · cases hr : c.refers c.hand with
      | true =>
        rw [sweep_spare ho hr] at hf ⊢
        exact .of_spare hh ho hr (ih ((Fit.advance c).congr (length_spare c) rfl) hf)
      | false =>
        rw [sweep_stop ho hr] at hf ⊢
        obtain rfl := Option.some.inj hf
        exact chooses_stop hh ho hr
    · rw [sweep_advance ho] at hf ⊢
      exact .of_advance hh ho (ih (.advance c) hf)

/-- Where nothing can be chosen, only the hand moves. -/
theorem sweep_of_not_isOpen (hnone : ∀ f, ¬ c.IsOpen isPinned f) (hh : c.hand < c.slots.length) (steps : Nat) :
    sweep isPinned steps c = (none, { c with hand := (c.hand + steps) % c.slots.length }) := by
  induction steps generalizing c with
  | zero => rw [Nat.add_zero, Nat.mod_eq_of_lt hh, sweep]
  | succ steps ih =>
    rw [sweep_advance (hnone _), ih (c := c.advance) hnone (Nat.mod_lt _ (by omega))]
    simp only [advance, Nat.mod_add_mod]
    rw [Nat.add_right_comm, Nat.add_assoc]

/-! ## Runs -/

/-- What can happen to a clock of so many frames. -/
inductive Move (n : Nat) where
  | access (frame : Fin n)
  | remove (frame : Fin n)
  | evict (isPinned : FrameId → Bool)

/-- The clock after a move. -/
def apply {n : Nat} (c : Clock) : Move n → Clock
  | .access frame => c.access frame
  | .remove frame => c.remove frame
  | .evict isPinned => (c.evict isPinned).2

/-- A new clock after many moves. -/
def run (n : Nat) (moves : List (Move n)) : Clock := moves.foldl apply (ofCapacity n)

/-- A clock of so many frames is in order: its hand is at one of them, and it has counted those that it tracks. -/
structure Ordered (n : Nat) (c : Clock) : Prop where
  length : c.slots.length = n
  fit : c.Fit
  counted : c.Counted

variable {n : Nat}

theorem Ordered.apply (h : c.Ordered n) (m : Move n) : (c.apply m).Ordered n := by
  cases m with
  | access f => exact ⟨(length_access c f).trans h.length, h.fit.access f, h.counted.access f⟩
  | remove f => exact ⟨(length_remove c f).trans h.length, h.fit.remove f, h.counted.remove f⟩
  | evict isPinned => exact ⟨(tracks_sweep isPinned _ c).1.trans h.length, h.fit.evict isPinned, h.counted.evict isPinned⟩

theorem ordered_run (n : Nat) (moves : List (Move n)) : (run n moves).Ordered n := by
  have hfrom : ∀ (moves : List (Move n)) (c : Clock), c.Ordered n → (moves.foldl Clock.apply c).Ordered n := by
    intro moves
    induction moves with
    | nil => exact fun _ h => h
    | cons m moves ih => exact fun c h => ih _ (h.apply m)
  exact hfrom moves _ ⟨List.length_replicate, .ofCapacity n, .ofCapacity n⟩

/-- The clock gives every frame its second chance, and no more. -/
structure SecondChance (n : Nat) (c : Clock) : Prop where
  none_iff : ∀ isPinned, (c.evict isPinned).1 = none ↔ ∀ f, ¬ c.IsOpen isPinned f
  unchanged : ∀ isPinned, (c.evict isPinned).1 = none → (c.evict isPinned).2 = c
  victim : ∀ isPinned f, (c.evict isPinned).1 = some f ↔ c.Chooses isPinned f (c.evict isPinned).2
  size : c.size = (List.range n).countP c.tracks

theorem Ordered.secondChance (h : c.Ordered n) : c.SecondChance n := by
  have hnone : ∀ isPinned, (c.evict isPinned).1 = none ↔ ∀ f, ¬ c.IsOpen isPinned f := fun isPinned => by
    rw [evict_eq_none_iff h.fit]
    refine forall_congr' fun f => ?_
    rw [IsOpen]
    cases c.tracks f <;> cases isPinned f <;> simp
  refine ⟨hnone, fun isPinned hv => ?_, fun isPinned f => ⟨chooses_sweep h.fit, fun hf => ?_⟩, ?_⟩
  · -- after two rounds the hand is where it was
    rw [hnone] at hv
    unfold evict
    by_cases hn : c.slots.length = 0
    · rw [hn, sweep]
    · have hh := h.fit (by omega)
      rw [sweep_of_not_isOpen hv hh]
      simp [Nat.mod_eq_of_lt hh]
  · cases hv : (c.evict isPinned).1 with
    | none => exact absurd hf.isOpen ((hnone isPinned).1 hv f)
    | some g => rw [(chooses_sweep h.fit hv).unique h.fit hf]
  · rw [size_eq h.counted, h.length]

/-- Whatever has happened to a clock, it chooses by the second chance. -/
theorem run_evicts (n : Nat) (moves : List (Move n)) : (run n moves).SecondChance n :=
  (ordered_run n moves).secondChance

/-- Three frames with their bits set, of which the second is pinned: the others lose theirs, and the first goes. -/
example : ((run 3 [.access 0, .access 1, .access 2]).evict fun f => f = 1) =
    (some 0, ⟨[⟨false, false⟩, ⟨true, true⟩, ⟨true, false⟩], 1, 2⟩) := by decide

end Clock

end TupleStore
