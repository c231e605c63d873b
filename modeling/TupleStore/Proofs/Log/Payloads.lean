import Mathlib.Algebra.Group.Nat.Defs
import TupleStore.Log.Frame

/-!
# Records and their payloads

A record and its payload say the same: what is read from a payload is the record that it spells, and a string that
spells a record is its payload (`payload?_eq_some_iff`). So it is with every piece of a payload: numbers
(`number?_eq_some_iff`), contents behind their lengths (`lengthPrefixed?_eq_some_iff`), and the fields of an update
(`update?_eq_some_iff`).

`Fits` : the numbers of a record have room in the fields of a frame. All records do that can be had, but those whose
payload is too long.
-/

namespace TupleStore

set_option autoImplicit false

/-! ## Numbers -/

namespace Bytes

theorem leNat_leOctets (n value : Nat) : leNat (leOctets n value) = value % 256 ^ n := by
  induction n generalizing value with
  | zero => exact (Nat.mod_one value).symm
  | succ n ih =>
    show leNat (leOctets n (value / 256)) * 256 + (UInt8.ofNat value).toNat = _
    rw [ih, UInt8.toNat_ofNat', show 256 ^ (n + 1) = 256 * 256 ^ n from Nat.pow_succ', Nat.mod_mul, Nat.mul_comm,
      Nat.add_comm]

theorem leNat_lt (bytes : Bytes) : leNat bytes < 256 ^ bytes.length := by
  induction bytes with
  | nil => exact Nat.one_pos
  | cons b bytes ih =>
    have hb := b.toNat_lt
    show leNat bytes * 256 + b.toNat < 256 ^ (bytes.length + 1)
    rw [Nat.pow_succ]
    omega

theorem leOctets_leNat (bytes : Bytes) : leOctets bytes.length (leNat bytes) = bytes := by
  induction bytes with
  | nil => rfl
  | cons b bytes ih =>
    have hb := b.toNat_lt
    have hlow : UInt8.ofNat (leNat bytes * 256 + b.toNat) = b := UInt8.toNat_inj.1 (by rw [UInt8.toNat_ofNat']; omega)
    have hhigh : (leNat bytes * 256 + b.toNat) / 256 = leNat bytes := by omega
    show UInt8.ofNat (leNat bytes * 256 + b.toNat) :: leOctets bytes.length ((leNat bytes * 256 + b.toNat) / 256) = _
    rw [hlow, hhigh, ih]

theorem leNat_le32 {value : Nat} (h : value < UInt32.size) : leNat (le32 value) = value :=
  (leNat_leOctets 4 value).trans (Nat.mod_eq_of_lt h)

end Bytes

namespace LogRecord

variable {n value : Nat} {txn : TxnId} {bytes front rest : Bytes} {r : LogRecord}

theorem take?_eq_some_iff : take? n bytes = some (front, rest) ↔ front.length = n ∧ bytes = front ++ rest := by
  unfold take?
  constructor
  · intro h
    split at h
    · rename_i hn
      cases h
      exact ⟨List.length_take_of_le hn, (List.take_append_drop n bytes).symm⟩
    · cases h
  · rintro ⟨rfl, rfl⟩
    rw [if_pos (by simp), List.take_left, List.drop_left]

theorem number?_eq_some_iff :
    number? n bytes = some (value, rest) ↔ value < 256 ^ n ∧ bytes = Bytes.leOctets n value ++ rest := by
  unfold number?
  rw [Option.map_eq_some_iff]
  constructor
  · rintro ⟨⟨front, rest'⟩, h, e⟩
    obtain ⟨rfl, rfl⟩ := take?_eq_some_iff.1 h
    cases e
    exact ⟨Bytes.leNat_lt front, by rw [Bytes.leOctets_leNat]⟩
  · rintro ⟨hlt, rfl⟩
    refine ⟨(Bytes.leOctets n value, rest), take?_eq_some_iff.2 ⟨Bytes.length_leOctets n value, rfl⟩, ?_⟩
    show (Bytes.leNat (Bytes.leOctets n value), rest) = _
    rw [Bytes.leNat_leOctets, Nat.mod_eq_of_lt hlt]

/-! ## Pieces of a payload -/

theorem lengthPrefixed?_eq_some_iff :
    lengthPrefixed? bytes = some (front, rest) ↔ front.length < UInt32.size ∧ bytes = lengthPrefixed front ++ rest := by
  unfold lengthPrefixed?
  rw [Option.bind_eq_bind, Option.bind_eq_some_iff]
  constructor
  · rintro ⟨⟨length, rest'⟩, h, h'⟩
    obtain ⟨hlt, rfl⟩ := number?_eq_some_iff.1 h
    obtain ⟨rfl, rfl⟩ := take?_eq_some_iff.1 h'
    exact ⟨hlt, (List.append_assoc ..).symm⟩
  · rintro ⟨hlt, rfl⟩
    exact ⟨(front.length, front ++ rest), number?_eq_some_iff.2 ⟨hlt, List.append_assoc ..⟩,
      take?_eq_some_iff.2 ⟨rfl, rfl⟩⟩

/-- The numbers of a record have room in the fields of a payload. -/
def Spelled : LogRecord → Prop
  | update _ page before after =>
    page.number < UInt32.size ∧ before.length < UInt32.size ∧ after.length < UInt32.size
  | commit _ => True
  | abort _ => True

/-- The bytes of an update behind its kind and its transaction. -/
def fields (page : PageId) (before after : Bytes) : Bytes :=
  Bytes.le32 page.table.number.toNat ++ (Bytes.le32 page.number ++ (lengthPrefixed before ++ lengthPrefixed after))

theorem update?_eq_some_iff : update? txn bytes = some r ↔
    ∃ page before after, r = update txn page before after ∧ r.Spelled ∧ bytes = fields page before after := by
  unfold update? fields
  simp only [Option.bind_eq_bind, Option.bind_eq_some_iff, Option.ite_none_right_eq_some, Option.some.injEq,
    List.isEmpty_iff, Prod.exists, number?_eq_some_iff, lengthPrefixed?_eq_some_iff]
  constructor
  · rintro ⟨table, _, ⟨ht, rfl⟩, number, _, ⟨hn, rfl⟩, before, _, ⟨hb, rfl⟩, after, rest, ⟨ha, rfl⟩, rfl, rfl⟩
    refine ⟨_, before, after, rfl, ⟨hn, hb, ha⟩, ?_⟩
    rw [List.append_nil, UInt32.toNat_ofNat_of_lt' ht]
    rfl
  · rintro ⟨page, before, after, rfl, ⟨hn, hb, ha⟩, rfl⟩
    refine ⟨page.table.number.toNat, _, ⟨page.table.number.toNat_lt, rfl⟩, page.number, _, ⟨hn, rfl⟩, before, _,
      ⟨hb, rfl⟩, after, [], ⟨ha, (List.append_nil _).symm⟩, rfl, ?_⟩
    rw [UInt32.ofNat_toNat]

/-! ## Payloads -/

theorem payload_update (page : PageId) (before after : Bytes) : (update txn page before after).payload =
    1 :: (Bytes.le64 txn.number.toNat ++ fields page before after) := by
  simp only [payload, fields, List.append_assoc]

/-- A string spells the record whose payload it is, and no other. -/
theorem payload?_eq_some_iff : payload? bytes = some r ↔ r.Spelled ∧ r.payload = bytes := by
  constructor
  · intro h
    cases bytes with
    | nil => cases h
    | cons kind bytes =>
      simp only [payload?, Option.bind_eq_bind, Option.bind_eq_some_iff, Prod.exists, number?_eq_some_iff] at h
      obtain ⟨number, rest, ⟨hlt, rfl⟩, h⟩ := h
      have htxn : Bytes.le64 (UInt64.ofNat number).toNat = Bytes.leOctets 8 number := by
        rw [UInt64.toNat_ofNat_of_lt' hlt]
        rfl
      split at h
      · obtain ⟨page, before, after, rfl, hs, rfl⟩ := update?_eq_some_iff.1 h
        rw [payload_update, htxn]
        exact ⟨hs, rfl⟩
      · obtain ⟨hrest, h⟩ := Option.ite_none_right_eq_some.1 h
        cases h
        obtain rfl := List.isEmpty_iff.1 hrest
        rw [payload, htxn, List.append_nil]
        exact ⟨trivial, rfl⟩
      · obtain ⟨hrest, h⟩ := Option.ite_none_right_eq_some.1 h
        cases h
        obtain rfl := List.isEmpty_iff.1 hrest
        rw [payload, htxn, List.append_nil]
        exact ⟨trivial, rfl⟩
      · cases h
  · rintro ⟨hs, rfl⟩
    have hnumber : ∀ (txn : TxnId) (rest : Bytes),
        number? 8 (Bytes.le64 txn.number.toNat ++ rest) = some (txn.number.toNat, rest) := fun txn rest =>
      number?_eq_some_iff.2 ⟨txn.number.toNat_lt, rfl⟩
    cases r with
    | update txn page before after =>
      rw [payload_update]
      simp only [payload?, hnumber, Option.bind_eq_bind, Option.bind_some, UInt64.ofNat_toNat]
      exact update?_eq_some_iff.2 ⟨page, before, after, rfl, hs, rfl⟩
    | commit txn =>
      have hend := hnumber txn []
      rw [List.append_nil] at hend
      rw [payload, payload?, hend]
      show some (commit ⟨UInt64.ofNat txn.number.toNat⟩) = _
      rw [UInt64.ofNat_toNat]
    | abort txn =>
      have hend := hnumber txn []
      rw [List.append_nil] at hend
      rw [payload, payload?, hend]
      show some (abort ⟨UInt64.ofNat txn.number.toNat⟩) = _
      rw [UInt64.ofNat_toNat]

/-! ## Records that fit -/

/-- The number of a record's page has room in its field. -/
def Numbered : LogRecord → Prop
  | update _ page _ _ => page.number < UInt32.size
  | commit _ => True
  | abort _ => True

/-- A record that can be a frame: the length of its payload has room in the header, and its page number in its field. -/
structure Fits (r : LogRecord) : Prop where
  payload : r.payload.length < UInt32.size
  number : r.Numbered

theorem length_payload_update (page : PageId) (before after : Bytes) :
    (update txn page before after).payload.length = 25 + before.length + after.length := by
  simp only [payload_update, fields, lengthPrefixed, List.length_cons, List.length_append, Bytes.length_le32,
    Bytes.length_le64]
  omega

theorem fits_commit (txn : TxnId) : (commit txn).Fits := ⟨(by decide : (9 : Nat) < UInt32.size), trivial⟩

theorem Fits.spelled (h : r.Fits) : r.Spelled := by
  obtain ⟨hp, hn⟩ := h
  cases r with
  | update txn page before after =>
    rw [length_payload_update] at hp
    exact ⟨hn, by omega, by omega⟩
  | commit txn => trivial
  | abort txn => trivial

/-- A record read from a payload that is short enough fits. -/
theorem fits_of_payload? (h : payload? bytes = some r) (hlt : bytes.length < UInt32.size) : r.Fits := by
  obtain ⟨hs, rfl⟩ := payload?_eq_some_iff.1 h
  refine ⟨hlt, ?_⟩
  cases r with
  | update txn page before after => exact hs.1
  | commit txn => trivial
  | abort txn => trivial

/-- What is read from the payload of a record is the record. -/
theorem Fits.payload?_payload (h : r.Fits) : payload? r.payload = some r := payload?_eq_some_iff.2 ⟨h.spelled, rfl⟩

end LogRecord

end TupleStore
