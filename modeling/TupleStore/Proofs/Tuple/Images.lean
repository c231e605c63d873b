import Mathlib.Algebra.Group.Nat.Defs
import TupleStore.Proofs.Text.Octets
import TupleStore.Tuple.Basic

/-!
# Values read back

What is read from the image of a tuple is the tuple with its texts clipped (`Tuple.decodeFields_image`), value by
value (`Field.decode_image`).
-/

namespace TupleStore

set_option autoImplicit false

namespace Bytes

theorem beNat_concat (bytes : Bytes) (b : UInt8) : beNat (bytes ++ [b]) = beNat bytes * 256 + b.toNat :=
  List.foldl_append ..

theorem beNat_reverse (n value : Nat) : beNat (leOctets n value).reverse = value % 256 ^ n := by
  induction n generalizing value with
  | zero => exact (Nat.mod_one value).symm
  | succ n ih =>
    have hpow : 256 ^ (n + 1) = 256 * 256 ^ n := Nat.pow_succ'
    rw [leOctets, List.reverse_cons, beNat_concat, ih, UInt8.toNat_ofNat', hpow, Nat.mod_mul, Nat.mul_comm,
      Nat.add_comm]

theorem beNat_be32 {n : Nat} (h : n < 2 ^ 32) : beNat (be32 n) = n :=
  (beNat_reverse 4 n).trans (Nat.mod_eq_of_lt h)

end Bytes

namespace Field

theorem decode_int (v : Int32) : FieldType.int.decode (int v).image = int v := by
  have hlt : v.toUInt32.toNat < 2 ^ 32 := v.toUInt32.toNat_lt
  rw [FieldType.decode, image, List.take_of_length_le (by simp), Bytes.beNat_be32 hlt]
  simp

theorem decode_text (s : String) : FieldType.text.decode (text s).image = (text s).clip := by
  have hle := Utf8.length_encode_clip textCapacity s.toList
  have hlt : (Utf8.encode (Utf8.clip textCapacity s.toList)).length < 2 ^ 32 := Nat.lt_of_le_of_lt hle (by decide)
  have hannounced : FieldType.announced (text s).image = (Utf8.encode (Utf8.clip textCapacity s.toList)).length := by
    rw [FieldType.announced, image, List.take_left' (by simp), Bytes.beNat_be32 hlt]
    exact Nat.min_eq_left hle
  rw [FieldType.decode, hannounced, image, List.drop_left' (by simp), Bytes.fit,
    List.take_append_of_le_length (by simp [hle]), List.take_take, Nat.min_eq_left hle, List.take_length, Utf8.decode_encode]
  rfl

/-- A value read back is the value clipped. -/
theorem decode_image (f : Field) : f.type.decode f.image = f.clip := by
  cases f with
  | int v => exact decode_int v
  | text s => exact decode_text s

end Field

theorem Tuple.decodeFields_images (fields : List Field) :
    decodeFields (fields.map Field.type) (fields.flatMap Field.image) = fields.map Field.clip := by
  induction fields with
  | nil => rfl
  | cons f fields ih =>
    rw [List.map_cons, List.flatMap_cons, decodeFields, List.take_left' f.length_image, List.drop_left' f.length_image,
      f.decode_image, ih]
    rfl

/-- A tuple read back is the tuple clipped. -/
theorem Tuple.decodeFields_image {t : Tuple} {schema : Schema} (h : t.schema.Agrees schema) :
    decodeFields schema.types t.image = t.fields.map Field.clip := by
  rw [← show t.schema.types = schema.types from h, ← t.conforms]
  exact decodeFields_images t.fields

end TupleStore
