import TupleStore.Proofs.Page.Slots
import TupleStore.Proofs.Tuple.Images

/-!
# Slots filled and freed

A heap page as a map from slots to the values of tuples, `HeapPage.row?`. Filling a slot puts values there, each
clipped, and freeing a slot takes them away; all other slots stay as they are (`row?_fill`, `row?_vacate`). A page
lists its tuples in the order of their slots, each at its place (`mem_tuples`, `tuples_ordered`).

The bits of a header are told by index (`Bytes.getElem?_bits`), and slots lie behind the header and apart from each
other (`Layout.header_le`, `Layout.slots_apart`).
-/

namespace TupleStore

set_option autoImplicit false

/-! ## Bits and bytes by index -/

namespace Bytes

theorem getElem?_bits (bytes : Bytes) (i : Nat) :
    (bits bytes)[i]? = bytes[i / 8]?.map fun b => b.toNat.testBit (i % 8) := by
  induction bytes generalizing i with
  | nil => simp [bits]
  | cons b bytes ih =>
    have hlength : (bitsOf b).length = 8 := by simp [bitsOf]
    rw [bits, List.flatMap_cons, List.getElem?_append, hlength]
    split
    · rename_i hi
      rw [Nat.div_eq_of_lt hi, Nat.mod_eq_of_lt hi]
      simp [bitsOf, hi]
    · rename_i hi
      obtain ⟨j, rfl⟩ : ∃ j, i = j + 8 := ⟨i - 8, by omega⟩
      rw [show j + 8 - 8 = j by omega, show (j + 8) / 8 = j / 8 + 1 by omega, show (j + 8) % 8 = j % 8 by omega]
      exact ih j

theorem toNat_mask {i : Nat} (h : i < 8) : ((1 : UInt8) <<< UInt8.ofNat i).toNat = 2 ^ i := by
  have hi : (UInt8.ofNat i).toNat = i := UInt8.toNat_ofNat_of_lt (Nat.lt_trans h (by decide))
  have hpow : 2 ^ i < 2 ^ 8 := Nat.pow_lt_pow_right (by decide) h
  rw [UInt8.toNat_shiftLeft, hi, Nat.mod_eq_of_lt h, Nat.shiftLeft_eq, UInt8.toNat_one, Nat.one_mul,
    Nat.mod_eq_of_lt hpow]

theorem testBit_set (b : UInt8) {i j : Nat} (hi : i < 8) (hj : j < 8) (value : Bool) :
    (if value then b ||| (1 : UInt8) <<< UInt8.ofNat i else b &&& ~~~((1 : UInt8) <<< UInt8.ofNat i)).toNat.testBit j =
      if i = j then value else b.toNat.testBit j := by
  cases value with
  | true =>
    rw [if_pos rfl, UInt8.toNat_or, Nat.testBit_or, toNat_mask hi, Nat.testBit_two_pow]
    split <;> simp [*]
  | false =>
    have hrest : UInt8.size - 1 - 2 ^ i = 2 ^ 8 - (2 ^ i + 1) := by
      rw [Nat.add_comm, ← Nat.sub_sub, show UInt8.size = 2 ^ 8 from rfl]
    rw [if_neg Bool.false_ne_true, UInt8.toNat_and, Nat.testBit_and, UInt8.toNat_not, toNat_mask hi, hrest,
      Nat.testBit_two_pow_sub_succ (Nat.pow_lt_pow_right (by decide) hi), Nat.testBit_two_pow]
    split <;> simp [*]

theorem getElem?_setBit (bytes : Bytes) (i k : Nat) (value : Bool) :
    (bytes.setBit i value)[k]? = bytes[k]?.map fun b => if i / 8 = k then
      (if value then b ||| (1 : UInt8) <<< UInt8.ofNat (i % 8) else b &&& ~~~((1 : UInt8) <<< UInt8.ofNat (i % 8)))
      else b := by
  rw [setBit, List.getElem?_modify]
  cases bytes[k]? with
  | none => rfl
  | some b => by_cases h : i / 8 = k <;> simp [h]

theorem getElem?_overlay {bytes data : Bytes} {off : Nat} (h : off + data.length ≤ bytes.length) (k : Nat) :
    (overlay bytes off data)[k]? = if off ≤ k ∧ k < off + data.length then data[k - off]? else bytes[k]? := by
  have hoff : (bytes.take off).length = off := by
    rw [List.length_take]
    omega
  rw [overlay, List.append_assoc, List.getElem?_append, hoff]
  split
  · rw [if_neg (by omega), List.getElem?_take_of_lt (by assumption)]
  · rw [List.getElem?_append]
    split
    · rw [if_pos (by omega)]
    · rw [if_neg (by omega), List.getElem?_drop]
      congr 1
      omega

end Bytes

/-! ## The layout -/

namespace Layout

variable {tupleSize pageSize slot : Nat}

theorem lt_header {slot : Nat} (h : slot < (ofWidth tupleSize pageSize).slots) :
    slot / 8 < (ofWidth tupleSize pageSize).headerSize := by
  show slot / 8 < (slotCount tupleSize pageSize + 7) / 8
  have h : slot < slotCount tupleSize pageSize := h
  omega

theorem header_le : (ofWidth tupleSize pageSize).headerSize ≤ pageSize :=
  Nat.le_trans (Nat.le_add_right ..) (size_le tupleSize pageSize)

theorem slots_apart {l : Layout} {i j : Nat} (h : i ≠ j) :
    l.slotOffset i + l.tupleSize ≤ l.slotOffset j ∨ l.slotOffset j + l.tupleSize ≤ l.slotOffset i := by
  have hstep : ∀ a b, a < b → l.slotOffset a + l.tupleSize ≤ l.slotOffset b := by
    intro a b hab
    have := Nat.mul_le_mul_right l.tupleSize (show a + 1 ≤ b from hab)
    rw [Nat.add_mul, Nat.one_mul] at this
    unfold slotOffset
    omega
  rcases Nat.lt_or_gt_of_ne h with h | h
  · exact Or.inl (hstep i j h)
  · exact Or.inr (hstep j i h)

end Layout

/-! ## Slots by index -/

namespace HeapPage

variable {p : HeapPage} {slot : Nat} {t : Tuple}

/-- The values of the tuple in a slot. -/
def row? (p : HeapPage) (slot : Nat) : Option (List Field) := (p.tuple? slot).map Tuple.fields

theorem getElem?_occupancy (p : HeapPage) (i : Nat) : p.occupancy[i]? =
    if i < p.layout.slots then p.bytes[i / 8]?.map fun b => b.toNat.testBit (i % 8) else none := by
  rw [occupancy, List.getElem?_take]
  split
  · rename_i h
    have hlt : i / 8 < p.layout.headerSize := Layout.lt_header h
    rw [Bytes.getElem?_bits, List.getElem?_take_of_lt hlt]
  · rfl

theorem isUsed_eq (p : HeapPage) (i : Nat) : p.isUsed i =
    (decide (i < p.layout.slots) && (p.bytes[i / 8]?.map fun b => b.toNat.testBit (i % 8)).getD false) := by
  rw [isUsed, getElem?_occupancy]
  split <;> simp [*]

theorem getElem?_slotImage (p : HeapPage) (slot k : Nat) : (p.slotImage slot)[k]? =
    if k < p.layout.tupleSize then p.bytes[p.layout.slotOffset slot + k]? else none := by
  rw [slotImage, List.getElem?_take]
  split
  · rw [List.getElem?_drop]
  · rfl

/-! ### A bit set -/

/-- The page with the bit of a slot set or cleared. -/
def mark (p : HeapPage) (slot : Nat) (value : Bool) : HeapPage := { p with bytes := p.bytes.setBit slot value }

theorem layout_mark (p : HeapPage) (slot : Nat) (value : Bool) : (p.mark slot value).layout = p.layout := by
  unfold layout mark
  rw [Bytes.length_setBit]

theorem isUsed_mark (hs : slot < p.layout.slots) (value : Bool) (i : Nat) :
    (p.mark slot value).isUsed i = if i = slot then value else p.isUsed i := by
  have hlen : slot / 8 < p.bytes.length := Nat.lt_of_lt_of_le (Layout.lt_header hs) Layout.header_le
  rw [isUsed_eq, isUsed_eq, layout_mark]
  show (_ && (((p.bytes.setBit slot value)[i / 8]?).map _).getD false) = _
  rw [Bytes.getElem?_setBit, Option.map_map]
  by_cases hi : i = slot
  · subst hi
    simp [hs, hlen, Bytes.testBit_set, Nat.mod_lt]
  · rw [if_neg hi]
    congr 2
    cases p.bytes[i / 8]? with
    | none => rfl
    | some b =>
      by_cases hk : slot / 8 = i / 8
      · simp [hk, Bytes.testBit_set, Nat.mod_lt]
        omega
      · simp [hk]

/-- The bits lie in front of the slots. -/
theorem slotImage_mark (hs : slot < p.layout.slots) (value : Bool) (i : Nat) :
    (p.mark slot value).slotImage i = p.slotImage i := by
  refine List.ext_getElem? fun k => ?_
  rw [getElem?_slotImage, getElem?_slotImage, layout_mark]
  have hlt := Layout.lt_header hs
  have hne : slot / 8 ≠ p.layout.slotOffset i + k := by
    have : p.layout.headerSize ≤ p.layout.slotOffset i := Nat.le_add_right ..
    have : slot / 8 < p.layout.headerSize := hlt
    omega
  split
  · show (p.bytes.setBit slot value)[_]? = _
    rw [Bytes.getElem?_setBit]
    simp [hne]
  · rfl

/-! ### A slot written -/

/-- The page with the image of a tuple in a slot. -/
def put (p : HeapPage) (slot : Nat) (t : Tuple) : HeapPage :=
  { p with bytes := p.bytes.overlay (p.layout.slotOffset slot) t.image }

section Put

variable (hs : slot < p.layout.slots) (ht : t.schema.Agrees p.schema)
include hs ht

theorem image_fits : p.layout.slotOffset slot + t.image.length ≤ p.bytes.length := by
  rw [Tuple.length_image, ht.width_eq]
  exact Layout.slot_le hs

theorem layout_put : (p.put slot t).layout = p.layout := by
  unfold layout put
  rw [Bytes.length_overlay (image_fits hs ht)]

theorem isUsed_put (i : Nat) : (p.put slot t).isUsed i = p.isUsed i := by
  rw [isUsed_eq, isUsed_eq, layout_put hs ht]
  by_cases hi : i < p.layout.slots
  · have hlt : i / 8 < p.layout.headerSize := Layout.lt_header hi
    have hle : p.layout.headerSize ≤ p.layout.slotOffset slot := Nat.le_add_right ..
    show (_ && (((p.bytes.overlay _ _)[i / 8]?).map _).getD false) = _
    rw [Bytes.getElem?_overlay (image_fits hs ht), if_neg (by omega)]
  · simp [hi]

theorem slotImage_put (i : Nat) : (p.put slot t).slotImage i = if i = slot then t.image else p.slotImage i := by
  have hsize : t.image.length = p.layout.tupleSize := by
    rw [Tuple.length_image, ht.width_eq]
    rfl
  refine List.ext_getElem? fun k => ?_
  rw [getElem?_slotImage, layout_put hs ht]
  show (if _ then (p.bytes.overlay _ _)[_]? else none) = _
  rw [Bytes.getElem?_overlay (image_fits hs ht), hsize]
  by_cases hi : i = slot
  · subst hi
    rw [if_pos rfl]
    split
    · rw [if_pos (by omega)]
      congr 1
      omega
    · rw [List.getElem?_eq_none (by omega)]
  · rw [if_neg hi, getElem?_slotImage]
    have happart := Layout.slots_apart (l := p.layout) hi
    split
    · rw [if_neg (by omega)]
    · rfl

end Put

/-! ## Rows -/

theorem row?_of (p : HeapPage) (i : Nat) : p.row? i =
    if p.isUsed i then some (Tuple.decodeFields p.schema.types (p.slotImage i)) else none := by
  unfold row? tuple?
  split <;> rfl

theorem row?_of_firstFree? (h : p.firstFree? = some slot) : p.row? slot = none := by
  obtain ⟨hlt, hfree, -⟩ := List.findIdx?_eq_some_iff_getElem.1 h
  have hunused : p.isUsed slot = false := by
    rw [isUsed, List.getElem?_eq_getElem hlt]
    exact (Bool.not_eq_true' _).mp hfree
  rw [row?_of, hunused]
  rfl

theorem row?_fill (hs : slot < p.layout.slots) (ht : t.schema.Agrees p.schema) (i : Nat) :
    (p.fill slot t).row? i = if i = slot then some (t.fields.map Field.clip) else p.row? i := by
  have hs' : slot < (p.put slot t).layout.slots := (layout_put hs ht).symm ▸ hs
  have hfill : p.fill slot t = (p.put slot t).mark slot true := rfl
  rw [row?_of, hfill, isUsed_mark hs', slotImage_mark hs', isUsed_put hs ht, slotImage_put hs ht]
  by_cases hi : i = slot
  · rw [if_pos hi, if_pos hi, if_pos rfl, if_pos hi]
    exact congrArg some (Tuple.decodeFields_image ht)
  · rw [if_neg hi, if_neg hi, if_neg hi]
    exact (row?_of p i).symm

theorem row?_vacate (hs : slot < p.layout.slots) (i : Nat) :
    (p.vacate slot).row? i = if i = slot then none else p.row? i := by
  have hvacate : p.vacate slot = p.mark slot false := rfl
  rw [row?_of, hvacate, isUsed_mark hs, slotImage_mark hs]
  by_cases hi : i = slot
  · rw [if_pos hi, if_pos hi, if_neg Bool.false_ne_true]
  · rw [if_neg hi, if_neg hi]
    exact (row?_of p i).symm

/-! ## Tuples in order -/

theorem tuple?_eq_some : p.tuple? slot = some t ↔ p.isUsed slot = true ∧ t = p.read slot := by
  unfold tuple?
  split
  · rename_i h
    rw [Option.some_inj, eq_comm]
    exact (and_iff_right h).symm
  · rename_i h
    exact ⟨nofun, fun hu => absurd hu.1 h⟩

theorem mem_tuples : t ∈ p.tuples ↔ ∃ slot, p.tuple? slot = some t := by
  unfold tuples
  rw [List.mem_filterMap]
  constructor
  · rintro ⟨⟨used, slot⟩, hin, ht⟩
    have hslot := List.mem_zipIdx_iff_getElem?.1 hin
    dsimp only at hslot ht
    split at ht
    · rename_i hu
      cases ht
      refine ⟨slot, tuple?_eq_some.2 ⟨?_, rfl⟩⟩
      rw [isUsed, hslot, hu]
      rfl
    · cases ht
  · rintro ⟨slot, ht⟩
    obtain ⟨hu, rfl⟩ := tuple?_eq_some.1 ht
    refine ⟨(true, slot), List.mem_zipIdx_iff_getElem?.2 ?_, rfl⟩
    unfold isUsed at hu
    cases ho : p.occupancy[slot]? with
    | none => simp [ho] at hu
    | some b =>
      rw [ho] at hu
      exact congrArg some hu

theorem recordId_of_tuple? (h : p.tuple? slot = some t) : t.recordId = some ⟨p.page, slot⟩ := by
  rw [(tuple?_eq_some.1 h).2]
  rfl

theorem row?_eq_some {fields : List Field} :
    p.row? slot = some fields ↔ ∃ t ∈ p.tuples, t.recordId = some ⟨p.page, slot⟩ ∧ t.fields = fields := by
  rw [row?, Option.map_eq_some_iff]
  constructor
  · rintro ⟨t, ht, hf⟩
    exact ⟨t, mem_tuples.2 ⟨slot, ht⟩, recordId_of_tuple? ht, hf⟩
  · rintro ⟨t, ht, hr, hf⟩
    obtain ⟨slot', ht⟩ := mem_tuples.1 ht
    rw [recordId_of_tuple? ht] at hr
    cases hr
    exact ⟨t, ht, hf⟩

/-- Tuples come in the order of their slots. -/
theorem tuples_ordered (p : HeapPage) : p.tuples.Pairwise fun a b =>
    ∃ i j, a.recordId = some ⟨p.page, i⟩ ∧ b.recordId = some ⟨p.page, j⟩ ∧ i < j := by
  unfold tuples
  refine List.Pairwise.filterMap _ ?_ (R := fun a b => a.2 < b.2) ?_
  · rintro ⟨used, i⟩ ⟨used', j⟩ hij a ha b hb
    dsimp only at ha hb
    split at ha
    · split at hb
      · cases ha
        cases hb
        exact ⟨i, j, rfl, rfl, hij⟩
      · cases hb
    · cases ha
  · rw [List.pairwise_iff_getElem]
    intro i j hi hj hij
    simpa using hij

end HeapPage

end TupleStore
