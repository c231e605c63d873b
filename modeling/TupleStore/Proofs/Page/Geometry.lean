import Mathlib
import TupleStore.Proofs.Page.Slots

/-!
# The geometry of a page

The number of slots is computed as if the header had a bit for each of them and no more. The header is whole bytes
though, and still as many slots fit.

* `le_slotCount_iff` : so many slots fit, with their header, exactly if they are as many as the count or fewer;
* `headerBytes`, `slotBytes` : where the header and a slot are in the page;
* `Sound` : what one can rely on in a page, and `sound_ofSchema` that it is so for all schemas and sizes.
-/

namespace TupleStore.Layout

set_option autoImplicit false

variable {tupleSize pageSize n : Nat}

/-- The rounding of the header takes no slot away: the page has bytes enough for it if it has bits enough. -/
theorem le_slotCount_iff : n ≤ slotCount tupleSize pageSize ↔ n ⌈/⌉ 8 + n * tupleSize ≤ pageSize := by
  have hmul : n * (tupleSize * 8 + 1) = n * tupleSize * 8 + n := by
    rw [Nat.mul_add, Nat.mul_one, Nat.mul_assoc]
  rw [slotCount, Nat.le_div_iff_mul_le (Nat.succ_pos _), hmul, Nat.ceilDiv_eq_add_pred_div]
  omega

/-- The bytes of the header. -/
def headerBytes (l : Layout) : Set Nat := Set.Ico 0 l.headerSize

/-- The bytes of a slot. -/
def slotBytes (l : Layout) (slot : Nat) : Set Nat := Set.Ico (l.slotOffset slot) (l.slotOffset slot + l.tupleSize)

variable {l : Layout} {slot slot' : Nat}

/-- A slot begins where the one before it ends, or later. -/
theorem slotOffset_add_le (h : slot < slot') : l.slotOffset slot + l.tupleSize ≤ l.slotOffset slot' := by
  have hmul : (slot + 1) * l.tupleSize ≤ slot' * l.tupleSize := Nat.mul_le_mul_right _ h
  rw [Nat.add_mul, Nat.one_mul] at hmul
  unfold slotOffset
  omega

theorem disjoint_headerBytes (l : Layout) (slot : Nat) : Disjoint l.headerBytes (l.slotBytes slot) := by
  rw [headerBytes, slotBytes, Set.Ico_disjoint_Ico]
  unfold slotOffset
  omega

theorem disjoint_slotBytes (h : slot ≠ slot') : Disjoint (l.slotBytes slot) (l.slotBytes slot') := by
  rw [slotBytes, slotBytes, Set.Ico_disjoint_Ico]
  rcases Nat.lt_or_gt_of_ne h with h | h
  · have := slotOffset_add_le (l := l) h
    omega
  · have := slotOffset_add_le (l := l) h
    omega

/-- What one can rely on in a page of a size, for tuples of a width. -/
structure Sound (tupleSize pageSize : Nat) (l : Layout) : Prop where
  width : l.tupleSize = tupleSize
  within : l.headerSize + l.slots * l.tupleSize ≤ pageSize
  /-- Every slot has its bit. -/
  bits : l.slots ≤ 8 * l.headerSize
  /-- No byte of the header is without use. -/
  spare : 8 * l.headerSize < l.slots + 8
  inside : ∀ slot < l.slots, ∀ i ∈ l.slotBytes slot, i < pageSize
  header_apart : ∀ slot, Disjoint l.headerBytes (l.slotBytes slot)
  slots_apart : ∀ slot slot', slot ≠ slot' → Disjoint (l.slotBytes slot) (l.slotBytes slot')
  /-- No more slots fit, with a header of whole bytes. -/
  greatest : IsGreatest {n | n ⌈/⌉ 8 + n * tupleSize ≤ pageSize} l.slots

theorem sound_ofWidth (tupleSize pageSize : Nat) : (ofWidth tupleSize pageSize).Sound tupleSize pageSize where
  width := rfl
  within := size_le tupleSize pageSize
  bits := by
    simp only [ofWidth]
    omega
  spare := by
    simp only [ofWidth]
    omega
  inside _ h _ hi := Nat.lt_of_lt_of_le hi.2 (slot_le h)
  header_apart := disjoint_headerBytes _
  slots_apart _ _ := disjoint_slotBytes
  greatest := ⟨le_slotCount_iff.1 (Nat.le_refl _), fun _ hn => le_slotCount_iff.2 hn⟩

/-- Header and slots are apart and inside the page, whatever the schema and the size, and no more slots would fit. -/
theorem sound_ofSchema (schema : Schema) (pageSize : Nat) : (ofSchema schema pageSize).Sound schema.width pageSize :=
  sound_ofWidth schema.width pageSize

/-- Of 33 bytes, one is for the bits of eight slots of four bytes; of 36 bytes, the last three are left over. -/
example : ofWidth 4 33 = ⟨8, 1, 4⟩ ∧ ofWidth 4 36 = ⟨8, 1, 4⟩ := by decide

end TupleStore.Layout
