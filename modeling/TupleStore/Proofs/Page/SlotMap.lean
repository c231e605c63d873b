import Mathlib.Logic.Function.Basic
import TupleStore.Proofs.Page.Occupancy

/-!
# A heap page is a finite map

A heap page, whatever its bytes, is a map from slots to images (`HeapPage.image?`), told from the header bits and the
bytes of the slots alone:

* `Contained` : the header and the slots are in the page, and apart from each other;
* `Tells` : what is asked of a page is answered as the map says;
* `Stores`, `Frees` : what comes of storing a tuple and of freeing a slot, each error with the exact condition under
  which it arises, each change bit by bit;
* `edit`, `live` : edits in a row, and what they leave stored by their answers alone.

`refines_map` says all of this of every page.
-/

namespace TupleStore

set_option autoImplicit false

/-! ## Bits after a write -/

namespace Bytes

theorem bits_setBit (bytes : Bytes) (i : Nat) (value : Bool) : bits (bytes.setBit i value) = (bits bytes).set i value := by
  refine List.ext_getElem? fun j => ?_
  rw [getElem?_bits, getElem?_setBit, Option.map_map, List.getElem?_set']
  by_cases hij : i = j
  · subst hij
    rw [if_pos rfl, getElem?_bits]
    cases bytes[i / 8]? with
    | none => rfl
    | some b => simp [testBit_set, Nat.mod_lt]
  · rw [if_neg hij, getElem?_bits]
    cases bytes[j / 8]? with
    | none => rfl
    | some b =>
      by_cases hk : i / 8 = j / 8
      · simp [hk, testBit_set, Nat.mod_lt]
        omega
      · simp [hk]

theorem getElem?_bits_overlay {bytes data : Bytes} {off i : Nat} (h : off + data.length ≤ bytes.length)
    (hi : ¬(off ≤ i / 8 ∧ i / 8 < off + data.length)) : (bits (overlay bytes off data))[i]? = (bits bytes)[i]? := by
  rw [getElem?_bits, getElem?_bits, getElem?_overlay h, if_neg hi]

end Bytes

namespace HeapPage

/-! ## The map -/

/-- The image stored in a slot: the bytes of the slot, if it is one of the page and its header bit is set. -/
def image? (p : HeapPage) (slot : Nat) : Option Bytes :=
  if slot < p.layout.slots ∧ (Bytes.bits p.bytes)[slot]? = some true then some (p.slotImage slot) else none

variable {p q : HeapPage} {slot : Nat} {t : Tuple}

theorem isUsed_iff (p : HeapPage) (slot : Nat) :
    p.isUsed slot = true ↔ slot < p.layout.slots ∧ (Bytes.bits p.bytes)[slot]? = some true := by
  rw [isUsed_eq, Bytes.getElem?_bits]
  cases p.bytes[slot / 8]? <;> simp

theorem image?_eq (p : HeapPage) (slot : Nat) :
    p.image? slot = if p.isUsed slot then some (p.slotImage slot) else none := by
  rw [image?]
  exact if_congr (isUsed_iff p slot).symm rfl rfl

theorem isSome_image? (p : HeapPage) (slot : Nat) : (p.image? slot).isSome = p.isUsed slot := by
  rw [image?_eq]
  cases p.isUsed slot <;> rfl

theorem image?_eq_none : p.image? slot = none ↔ p.isUsed slot = false := by
  rw [← isSome_image?, Option.isSome_eq_false_iff, Option.isNone_iff_eq_none]

/-- The header has a bit for every slot. -/
theorem occupancy_eq (p : HeapPage) : p.occupancy = (List.range p.layout.slots).map p.isUsed := by
  refine List.ext_getElem? fun i => ?_
  rw [List.getElem?_map, getElem?_occupancy]
  by_cases hi : i < p.layout.slots
  · have hlt : i / 8 < p.bytes.length := Nat.lt_of_lt_of_le (Layout.lt_header hi) Layout.header_le
    rw [if_pos hi, List.getElem?_range hi, Option.map_some, isUsed_eq, List.getElem?_eq_getElem hlt]
    simp [hi]
  · rw [if_neg hi, List.getElem?_eq_none (by simpa using hi), Option.map_none]

/-! ## Inside the page -/

/-- The header and the slots are in the page, and apart from each other. -/
structure Contained (p : HeapPage) : Prop where
  header : ∀ slot < p.layout.slots, slot / 8 < p.layout.headerSize
  slots : ∀ slot < p.layout.slots, p.layout.headerSize ≤ p.layout.slotOffset slot ∧
    p.layout.slotOffset slot + p.layout.tupleSize ≤ p.bytes.length
  apart : ∀ i j, i ≠ j → p.layout.slotOffset i + p.layout.tupleSize ≤ p.layout.slotOffset j ∨
    p.layout.slotOffset j + p.layout.tupleSize ≤ p.layout.slotOffset i
  /-- What is read of a slot is all there. -/
  read : ∀ slot < p.layout.slots, (p.slotImage slot).length = p.schema.width
  /-- What is written to a slot fills it. -/
  written : ∀ t : Tuple, t.schema.Agrees p.schema → t.image.length = p.layout.tupleSize

theorem length_slotImage (hs : slot < p.layout.slots) : (p.slotImage slot).length = p.layout.tupleSize := by
  have hle : p.layout.slotOffset slot + p.layout.tupleSize ≤ p.bytes.length := Layout.slot_le hs
  rw [slotImage, List.length_take, List.length_drop]
  omega

theorem contained (p : HeapPage) : p.Contained where
  header _ hs := Layout.lt_header hs
  slots _ hs := ⟨Nat.le_add_right .., Layout.slot_le hs⟩
  apart _ _ h := Layout.slots_apart h
  read _ hs := length_slotImage hs
  written t ht := by
    rw [Tuple.length_image, ht.width_eq]
    rfl

/-! ## Questions -/

/-- What is asked of a page is answered as the map says. -/
structure Tells (p : HeapPage) : Prop where
  isUsed : ∀ slot, p.isUsed slot = (p.image? slot).isSome
  freeCount : p.freeCount = (List.range p.layout.slots).countP fun slot => (p.image? slot).isNone
  firstFree? : ∀ slot, p.firstFree? = some slot ↔
    slot < p.layout.slots ∧ p.image? slot = none ∧ ∀ i < slot, p.image? i ≠ none
  full : p.firstFree? = none ↔ ∀ slot < p.layout.slots, p.image? slot ≠ none
  tuple? : ∀ slot, p.tuple? slot = (p.image? slot).map fun image => .ofBytes p.schema image (some ⟨p.page, slot⟩)
  tuples : p.tuples = (List.range p.layout.slots).filterMap p.tuple?

theorem tuple?_eq (p : HeapPage) (slot : Nat) :
    p.tuple? slot = (p.image? slot).map fun image => .ofBytes p.schema image (some ⟨p.page, slot⟩) := by
  rw [tuple?, image?_eq]
  cases p.isUsed slot <;> rfl

theorem tuples_eq (p : HeapPage) : p.tuples = (List.range p.layout.slots).filterMap p.tuple? := by
  have hzip : p.occupancy.zipIdx = (List.range p.layout.slots).map fun slot => (p.isUsed slot, slot) := by
    refine List.ext_getElem? fun i => ?_
    rw [List.getElem?_zipIdx, occupancy_eq, List.getElem?_map, List.getElem?_map, Option.map_map]
    by_cases hi : i < p.layout.slots
    · simp [List.getElem?_range hi]
    · simp [List.getElem?_eq_none (show (List.range p.layout.slots).length ≤ i by simpa using hi)]
  rw [tuples, hzip, List.filterMap_map]
  rfl

theorem firstFree?_eq_some : p.firstFree? = some slot ↔
    slot < p.layout.slots ∧ p.image? slot = none ∧ ∀ i < slot, p.image? i ≠ none := by
  rw [firstFree?, occupancy_eq, List.findIdx?_eq_some_iff_getElem]
  simp only [List.length_map, List.length_range, List.getElem_map, List.getElem_range, Bool.not_eq_true',
    image?_eq_none, ne_eq, Bool.not_eq_false, exists_prop]

theorem firstFree?_eq_none : p.firstFree? = none ↔ ∀ slot < p.layout.slots, p.image? slot ≠ none := by
  rw [firstFree?, occupancy_eq, List.findIdx?_eq_none_iff]
  simp only [List.mem_map, List.mem_range, forall_exists_index, and_imp, forall_apply_eq_imp_iff₂, Bool.not_eq_false',
    ne_eq, image?_eq_none, Bool.not_eq_false]

theorem tells (p : HeapPage) : p.Tells where
  isUsed slot := (isSome_image? p slot).symm
  freeCount := by
    rw [freeCount, occupancy_eq, List.countP_map]
    congr 1
    funext slot
    rw [Function.comp, ← isSome_image?, Option.not_isSome]
  firstFree? _ := firstFree?_eq_some
  full := firstFree?_eq_none
  tuple? := tuple?_eq p
  tuples := tuples_eq p

/-! ## Changes -/

theorem image?_fill (hs : slot < p.layout.slots) (ht : t.schema.Agrees p.schema) :
    (p.fill slot t).image? = Function.update p.image? slot (some t.image) := by
  have hs' : slot < (p.put slot t).layout.slots := (layout_put hs ht).symm ▸ hs
  have hfill : p.fill slot t = (p.put slot t).mark slot true := rfl
  funext i
  rw [image?_eq, hfill, isUsed_mark hs', slotImage_mark hs', isUsed_put hs ht, slotImage_put hs ht, Function.update_apply,
    image?_eq]
  split <;> rfl

theorem image?_vacate (hs : slot < p.layout.slots) : (p.vacate slot).image? = Function.update p.image? slot none := by
  have hvacate : p.vacate slot = p.mark slot false := rfl
  funext i
  rw [image?_eq, hvacate, isUsed_mark hs, slotImage_mark hs, Function.update_apply, image?_eq]
  split <;> rfl

/-- Of the page, a change has touched at most the bytes of a slot and its header bit. -/
structure Touches (p q : HeapPage) (slot : Nat) : Prop where
  page : q.page = p.page
  schema : q.schema = p.schema
  length : q.bytes.length = p.bytes.length
  bits : ∀ i, i ≠ slot → ¬(p.layout.slotOffset slot ≤ i / 8 ∧ i / 8 < p.layout.slotOffset slot + p.layout.tupleSize) →
    (Bytes.bits q.bytes)[i]? = (Bytes.bits p.bytes)[i]?

theorem touches_fill (hs : slot < p.layout.slots) (ht : t.schema.Agrees p.schema) : p.Touches (p.fill slot t) slot where
  page := rfl
  schema := rfl
  length := length_fill hs ht.width_eq
  bits i hi hout := by
    have hsize : t.image.length = p.layout.tupleSize := p.contained.written t ht
    show (Bytes.bits ((p.bytes.overlay (p.layout.slotOffset slot) t.image).setBit slot true))[i]? = _
    rw [Bytes.bits_setBit, List.getElem?_set_ne hi.symm, Bytes.getElem?_bits_overlay (image_fits hs ht) (hsize ▸ hout)]

/-- What comes of storing a tuple. -/
structure Stores (p : HeapPage) (t : Tuple) : Prop where
  mismatch : p.insert t = .error .schemaMismatch ↔ ¬t.schema.Agrees p.schema
  full : p.insert t = .error (.pageFull p.page) ↔
    t.schema.Agrees p.schema ∧ ∀ slot < p.layout.slots, p.image? slot ≠ none
  fails : ∀ e, p.insert t = .error e → e = .schemaMismatch ∨ e = .pageFull p.page
  /-- The image goes to the least free slot, and the tuple is placed there. -/
  stores : ∀ q t', p.insert t = .ok (q, t') → ∃ slot < p.layout.slots,
    p.image? slot = none ∧ (∀ i < slot, p.image? i ≠ none) ∧ t' = t.place (some ⟨p.page, slot⟩) ∧
    p.Touches q slot ∧ q.image? = Function.update p.image? slot (some t.image)

theorem stores (p : HeapPage) (t : Tuple) : p.Stores t := by
  by_cases ht : t.schema.Agrees p.schema
  · cases hfree : p.firstFree? with
    | none =>
      have hinsert : p.insert t = .error (.pageFull p.page) := by rw [insert, if_pos ht, hfree]
      exact {
        mismatch := by simp [hinsert, ht]
        full := by simpa [hinsert, ht] using firstFree?_eq_none.1 hfree
        fails := fun e he => Or.inr (by rw [hinsert] at he; cases he; rfl)
        stores := fun q t' h => by rw [hinsert] at h; cases h }
    | some slot =>
      have hinsert : p.insert t = .ok (p.fill slot t, t.place (some ⟨p.page, slot⟩)) := by rw [insert, if_pos ht, hfree]
      obtain ⟨hs, hnone, hleast⟩ := firstFree?_eq_some.1 hfree
      exact {
        mismatch := by simp [hinsert, ht]
        full := by
          rw [hinsert]
          exact ⟨nofun, fun h => absurd hnone (h.2 slot hs)⟩
        fails := fun e he => by rw [hinsert] at he; cases he
        stores := fun q t' h => by
          rw [hinsert] at h
          cases h
          exact ⟨slot, hs, hnone, hleast, rfl, touches_fill hs ht, image?_fill hs ht⟩ }
  · have hinsert : p.insert t = .error .schemaMismatch := if_neg ht
    exact {
      mismatch := by simp [hinsert, ht]
      full := by simp [hinsert, ht]
      fails := fun e he => Or.inl (by rw [hinsert] at he; cases he; rfl)
      stores := fun q t' h => by rw [hinsert] at h; cases h }

/-- What comes of freeing the slot that a record id names. -/
structure Frees (p : HeapPage) (recordId : Option RecordId) : Prop where
  missing : p.delete recordId = .error (.invalidRecordId .missing) ↔ recordId = none
  notASlot : ∀ rid, p.delete recordId = .error (.invalidRecordId (.notASlot rid p.page)) ↔
    recordId = some rid ∧ (rid.page ≠ p.page ∨ p.layout.slots ≤ rid.slot)
  empty : ∀ slot, p.delete recordId = .error (.slotEmpty p.page slot) ↔
    recordId = some ⟨p.page, slot⟩ ∧ slot < p.layout.slots ∧ p.image? slot = none
  fails : ∀ e, p.delete recordId = .error e → e = .invalidRecordId .missing ∨
    (∃ rid, e = .invalidRecordId (.notASlot rid p.page)) ∨ ∃ slot, e = .slotEmpty p.page slot
  /-- One bit of the header is cleared. -/
  frees : ∀ q, p.delete recordId = .ok q → ∃ slot < p.layout.slots, recordId = some ⟨p.page, slot⟩ ∧
    p.image? slot ≠ none ∧ q = { p with bytes := q.bytes } ∧ Bytes.bits q.bytes = (Bytes.bits p.bytes).set slot false ∧
    q.bytes.length = p.bytes.length ∧ q.image? = Function.update p.image? slot none

theorem frees_none (p : HeapPage) : p.Frees none where
  missing := by simp [delete]
  notASlot rid := by simp [delete]
  empty slot := by simp [delete]
  fails e he := by
    cases he
    exact Or.inl rfl
  frees q h := nomatch h

theorem frees_of_notASlot {rid : RecordId} (h : rid.page ≠ p.page ∨ p.layout.slots ≤ rid.slot) : p.Frees (some rid) := by
  have hdelete : p.delete (some rid) = .error (.invalidRecordId (.notASlot rid p.page)) := if_pos h
  refine ⟨by simp [hdelete], fun rid' => ?_, fun slot => ?_, fun e he => ?_, fun q hq => ?_⟩
  · simp only [hdelete, Except.error.injEq, Error.invalidRecordId.injEq, RecordFault.notASlot.injEq, and_true,
      Option.some.injEq]
    exact ⟨fun e => ⟨e, e ▸ h⟩, And.left⟩
  · simp only [hdelete, Except.error.injEq, reduceCtorEq, false_iff, Option.some.injEq, not_and]
    rintro rfl hlt
    rcases h with h | h
    · exact absurd rfl h
    · exact absurd hlt (Nat.not_lt.2 h)
  · rw [hdelete] at he
    cases he
    exact Or.inr (Or.inl ⟨rid, rfl⟩)
  · rw [hdelete] at hq
    cases hq

theorem frees_of_slot (hs : slot < p.layout.slots) : p.Frees (some ⟨p.page, slot⟩) := by
  have hin : ¬((⟨p.page, slot⟩ : RecordId).page ≠ p.page ∨ p.layout.slots ≤ slot) := by simpa using hs
  have hdelete : p.delete (some ⟨p.page, slot⟩) =
      if p.isUsed slot then .ok (p.vacate slot) else .error (.slotEmpty p.page slot) := if_neg hin
  cases hused : p.isUsed slot with
  | true =>
    have hsome : p.image? slot ≠ none := by simp [image?_eq_none, hused]
    simp only [hused, if_true] at hdelete
    refine ⟨by simp [hdelete], fun rid => ?_, fun i => ?_, fun e he => ?_, fun q hq => ?_⟩
    · simp only [hdelete, reduceCtorEq, Option.some.injEq, false_iff, not_and]
      rintro rfl
      exact hin
    · simp only [hdelete, reduceCtorEq, Option.some.injEq, RecordId.mk.injEq, true_and, false_iff, not_and]
      rintro rfl _
      exact hsome
    · rw [hdelete] at he
      cases he
    · rw [hdelete] at hq
      cases hq
      exact ⟨slot, hs, rfl, hsome, rfl, Bytes.bits_setBit .., Bytes.length_setBit .., image?_vacate hs⟩
  | false =>
    have hnone : p.image? slot = none := image?_eq_none.2 hused
    simp only [hused, Bool.false_eq_true, if_false] at hdelete
    refine ⟨by simp [hdelete], fun rid => ?_, fun i => ?_, fun e he => ?_, fun q hq => ?_⟩
    · simp only [hdelete, Except.error.injEq, reduceCtorEq, Option.some.injEq, false_iff, not_and]
      rintro rfl
      exact hin
    · simp only [hdelete, Except.error.injEq, Error.slotEmpty.injEq, true_and, Option.some.injEq, RecordId.mk.injEq]
      exact ⟨fun e => ⟨e, e ▸ hs, e ▸ hnone⟩, And.left⟩
    · rw [hdelete] at he
      cases he
      exact Or.inr (Or.inr ⟨slot, rfl⟩)
    · rw [hdelete] at hq
      cases hq

theorem frees (p : HeapPage) (recordId : Option RecordId) : p.Frees recordId := by
  cases recordId with
  | none => exact frees_none p
  | some rid =>
    by_cases h : rid.page ≠ p.page ∨ p.layout.slots ≤ rid.slot
    · exact frees_of_notASlot h
    · obtain ⟨page, slot⟩ := rid
      obtain ⟨hpage, hslot⟩ := not_or.1 h
      have hpage : page = p.page := Decidable.not_not.1 hpage
      subst hpage
      exact frees_of_slot (Nat.lt_of_not_le hslot)

/-! ## Edits in a row -/

/-- A change that is asked of a page. -/
inductive Edit where
  | insert (t : Tuple)
  | delete (t : Tuple)

/-- The page, the tuple and the error after an edit. -/
def edit (p : HeapPage) : Edit → HeapPage × Tuple × Option Error
  | .insert t =>
    match p.insert t with
    | .ok (q, t') => (q, t', none)
    | .error e => (p, t, some e)
  | .delete t =>
    match p.delete t.recordId with
    | .ok q => (q, t, none)
    | .error e => (p, t, some e)

/-- What is stored after an edit, by the tuple and the error that came of it: its image where its record id says, or
nothing there. -/
def Edit.live (m : Nat → Option Bytes) (t : Tuple) : Option Error → Edit → Nat → Option Bytes
  | none, .insert _ => (t.recordId.map RecordId.slot).elim m fun slot => Function.update m slot (some t.image)
  | none, .delete _ => (t.recordId.map RecordId.slot).elim m fun slot => Function.update m slot none
  | some _, _ => m

/-- The page after edits in a row, and what is live by their answers. -/
def run : HeapPage → (Nat → Option Bytes) → List Edit → HeapPage × (Nat → Option Bytes)
  | p, m, [] => (p, m)
  | p, m, e :: es => run (p.edit e).1 (e.live m (p.edit e).2.1 (p.edit e).2.2) es

/-- An edit leaves the place of the page, how it is read and its length, and its answer says what it has changed. An
edit that fails changes neither the page nor the tuple. -/
structure Follows (p : HeapPage) (e : Edit) : Prop where
  page : (p.edit e).1.page = p.page
  schema : (p.edit e).1.schema = p.schema
  length : (p.edit e).1.bytes.length = p.bytes.length
  image? : (p.edit e).1.image? = e.live p.image? (p.edit e).2.1 (p.edit e).2.2
  fails : ∀ err, (p.edit e).2.2 = some err → (p.edit e).1 = p ∧ (e = .insert (p.edit e).2.1 ∨ e = .delete (p.edit e).2.1)

namespace Follows

variable {e : Edit} {err : Error}

theorem of_error (h : p.edit e = (p, t, some err)) (he : e = .insert t ∨ e = .delete t) : p.Follows e where
  page := by rw [h]
  schema := by rw [h]
  length := by rw [h]
  image? := by rw [h, Edit.live]
  fails _ _ := by rw [h]; exact ⟨rfl, he⟩

theorem of_ok (h : p.edit e = (q, t, none)) (hpage : q.page = p.page) (hschema : q.schema = p.schema)
    (hlength : q.bytes.length = p.bytes.length) (himage : q.image? = e.live p.image? t none) : p.Follows e where
  page := by rw [h, hpage]
  schema := by rw [h, hschema]
  length := by rw [h, hlength]
  image? := by rw [h, himage]
  fails err hfails := by rw [h] at hfails; cases hfails

end Follows

theorem follows (p : HeapPage) (e : Edit) : p.Follows e := by
  cases e with
  | insert t =>
    cases hinsert : p.insert t with
    | error err => exact .of_error (by rw [edit, hinsert]) (.inl rfl)
    | ok r =>
      obtain ⟨q, t'⟩ := r
      obtain ⟨slot, -, -, -, rfl, htouch, hmap⟩ := (p.stores t).stores q t' hinsert
      refine .of_ok (by rw [edit, hinsert]) htouch.page htouch.schema htouch.length ?_
      rw [hmap, Edit.live]
      rfl
  | delete t =>
    cases hdelete : p.delete t.recordId with
    | error err => exact .of_error (by rw [edit, hdelete]) (.inr rfl)
    | ok q =>
      obtain ⟨slot, -, hrid, -, hq, -, hlength, hmap⟩ := (p.frees t.recordId).frees q hdelete
      refine .of_ok (by rw [edit, hdelete]) (by rw [hq]) (by rw [hq]) hlength ?_
      rw [hmap, Edit.live, hrid]
      rfl

/-- After edits in a row, the map is what the answers say. -/
theorem image?_run (p : HeapPage) (es : List Edit) : (p.run p.image? es).1.image? = (p.run p.image? es).2 ∧
    (p.run p.image? es).1.page = p.page ∧ (p.run p.image? es).1.schema = p.schema ∧
    (p.run p.image? es).1.bytes.length = p.bytes.length := by
  induction es generalizing p with
  | nil => exact ⟨rfl, rfl, rfl, rfl⟩
  | cons e es ih =>
    have h := p.follows e
    rw [run, ← h.image?]
    obtain ⟨hmap, hpage, hschema, hlength⟩ := ih (p.edit e).1
    exact ⟨hmap, hpage.trans h.page, hschema.trans h.schema, hlength.trans h.length⟩

/-- After edits in a row, the tuples are those that the answers say are stored, in the order of their slots, each at
its slot. -/
theorem tuples_run (p : HeapPage) (es : List Edit) : (p.run p.image? es).1.tuples =
    (List.range p.layout.slots).filterMap fun slot =>
      ((p.run p.image? es).2 slot).map fun image => .ofBytes p.schema image (some ⟨p.page, slot⟩) := by
  obtain ⟨hmap, hpage, hschema, hlength⟩ := image?_run p es
  have hlayout : (p.run p.image? es).1.layout = p.layout := by rw [layout, layout, hschema, hlength]
  rw [tuples_eq, hlayout, ← hmap]
  congr 1
  funext slot
  rw [tuple?_eq, hpage, hschema]

/-- A heap page of any bytes is a finite map from slots to images, and storing a tuple and freeing a slot are changes
of the map at one slot. -/
theorem refines_map (p : HeapPage) : p.Contained ∧ p.Tells ∧ (∀ t, p.Stores t) ∧ (∀ rid, p.Frees rid) ∧
    (∀ e, p.Follows e) ∧
    (∀ es, (p.run p.image? es).1.Tells ∧ (p.run p.image? es).1.image? = (p.run p.image? es).2 ∧
      (p.run p.image? es).1.tuples = (List.range p.layout.slots).filterMap fun slot =>
        ((p.run p.image? es).2 slot).map fun image => .ofBytes p.schema image (some ⟨p.page, slot⟩)) ∧
    ∀ (t : Tuple) (rid : Option RecordId), t.schema.Agrees p.schema →
      (Tuple.ofBytes p.schema t.image rid).fields = t.fields.map Field.clip :=
  ⟨contained p, tells p, stores p, frees p, follows p,
    fun es => ⟨tells _, (image?_run p es).1, tuples_run p es⟩, fun _ _ ht => Tuple.decodeFields_image ht⟩

end HeapPage

end TupleStore
