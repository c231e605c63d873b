import TupleStore.Page.Heap

/-!
# Slots inside the page

Every slot lies inside the page (`Layout.slot_le`), so storing a tuple in the first free slot and freeing a
slot keep the length of the page (`HeapPage.length_insert`, `HeapPage.length_delete`).
-/

namespace TupleStore

set_option autoImplicit false

namespace Layout

/-- The header and all slots fit in the page. -/
theorem size_le (tupleSize pageSize : Nat) :
    (ofWidth tupleSize pageSize).headerSize + (ofWidth tupleSize pageSize).slots * tupleSize ≤ pageSize := by
  show (slotCount tupleSize pageSize + 7) / 8 + slotCount tupleSize pageSize * tupleSize ≤ pageSize
  have h : slotCount tupleSize pageSize * (tupleSize * 8 + 1) ≤ pageSize * 8 := Nat.div_mul_le_self ..
  rw [Nat.mul_add, Nat.mul_one, ← Nat.mul_assoc] at h
  omega

theorem slot_le {tupleSize pageSize slot : Nat} (h : slot < (ofWidth tupleSize pageSize).slots) :
    (ofWidth tupleSize pageSize).slotOffset slot + tupleSize ≤ pageSize := by
  have hsize := size_le tupleSize pageSize
  have hslot : (slot + 1) * tupleSize ≤ (ofWidth tupleSize pageSize).slots * tupleSize :=
    Nat.mul_le_mul_right _ h
  rw [Nat.add_mul, Nat.one_mul] at hslot
  show (ofWidth tupleSize pageSize).headerSize + slot * tupleSize + tupleSize ≤ pageSize
  omega

end Layout

namespace HeapPage

variable {p q : HeapPage}

theorem lt_of_firstFree? {slot : Nat} (h : p.firstFree? = some slot) : slot < p.layout.slots := by
  unfold firstFree? at h
  obtain ⟨hlt, -⟩ := List.findIdx?_eq_some_iff_getElem.1 h
  unfold occupancy at hlt
  rw [List.length_take] at hlt
  exact Nat.lt_of_lt_of_le hlt (Nat.min_le_left _ _)

theorem length_fill {slot : Nat} {t : Tuple} (hs : slot < p.layout.slots) (ht : t.schema.width = p.schema.width) :
    (p.fill slot t).bytes.length = p.bytes.length := by
  show (((p.bytes.overlay (p.layout.slotOffset slot) t.image).setBit slot true) : Bytes).length = _
  rw [Bytes.length_setBit]
  refine Bytes.length_overlay ?_
  rw [Tuple.length_image, ht]
  exact Layout.slot_le hs

/-- A tuple that is inserted goes to the first free slot. -/
theorem of_insert {t t' : Tuple} (h : p.insert t = .ok (q, t')) :
    ∃ slot, t.schema.Agrees p.schema ∧ p.firstFree? = some slot ∧ q = p.fill slot t ∧
      t' = t.place (some ⟨p.page, slot⟩) := by
  unfold insert at h
  split at h
  · rename_i ha
    split at h
    · cases h
    · rename_i slot hfree
      cases h
      exact ⟨slot, ha, hfree, rfl, rfl⟩
  · cases h

/-- A tuple that is deleted was there. -/
theorem of_delete {rid : Option RecordId} (h : p.delete rid = .ok q) :
    ∃ slot, rid = some ⟨p.page, slot⟩ ∧ slot < p.layout.slots ∧ p.isUsed slot = true ∧ q = p.vacate slot := by
  unfold delete at h
  split at h
  · cases h
  · rename_i rid
    split at h
    · cases h
    · rename_i hin
      split at h
      · rename_i hused
        cases h
        obtain ⟨hpage, hslot⟩ := not_or.1 hin
        have hpage : rid.page = p.page := Decidable.not_not.1 hpage
        exact ⟨rid.slot, hpage ▸ rfl, Nat.lt_of_not_le hslot, hused, rfl⟩
      · cases h

theorem length_insert {t t' : Tuple} (h : p.insert t = .ok (q, t')) : q.bytes.length = p.bytes.length := by
  obtain ⟨slot, ha, hfree, rfl, -⟩ := of_insert h
  exact length_fill (lt_of_firstFree? hfree) ha.width_eq

theorem length_delete {rid : Option RecordId} (h : p.delete rid = .ok q) : q.bytes.length = p.bytes.length := by
  obtain ⟨slot, -, -, -, rfl⟩ := of_delete h
  exact Bytes.length_setBit ..

end HeapPage

end TupleStore
