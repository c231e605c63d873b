/-!
# Byte strings

A byte string is a list of octets. This module holds what every format below is built from:

* `zeros n` : `n` zero bytes;
* `overlay` : replace the bytes from an offset on (`length_overlay`); `patch?` and `copy?` do so only
  where the new bytes fit;
* `window` : the bytes of a range, filled up with zeros where the string ends early (`length_window`);
* `beNat`, `be32`, `leNat`, `le32`, `le64` : unsigned numbers, most or least significant byte first.
-/

namespace TupleStore

set_option autoImplicit false

/-- A string of octets. -/
abbrev Bytes := List UInt8

namespace Bytes

/-- A string of `n` zero bytes. -/
def zeros (n : Nat) : Bytes := List.replicate n 0

@[simp] theorem length_zeros (n : Nat) : (zeros n).length = n := List.length_replicate

/-! ## Windows -/

/-- The string with `data` in place of the bytes from `off` on. -/
def overlay (bytes : Bytes) (off : Nat) (data : Bytes) : Bytes :=
  bytes.take off ++ data ++ bytes.drop (off + data.length)

/-- A window that lies inside the string can be written without changing its length. -/
theorem length_overlay {bytes data : Bytes} {off : Nat} (h : off + data.length ≤ bytes.length) :
    (overlay bytes off data).length = bytes.length := by
  simp only [overlay, List.length_append, List.length_take, List.length_drop]
  omega

/-- The string with `data` written from `off` on, if the window lies inside. -/
def patch? (bytes : Bytes) (off : Nat) (data : Bytes) : Option Bytes :=
  if off + data.length ≤ bytes.length then some (overlay bytes off data) else none

theorem length_of_patch? {bytes data result : Bytes} {off : Nat}
    (h : patch? bytes off data = some result) : result.length = bytes.length := by
  simp only [patch?, Option.ite_none_right_eq_some, Option.some.injEq] at h
  exact h.2 ▸ length_overlay h.1

/-- The content of `source` in place of an equally long string. -/
def copy? (bytes source : Bytes) : Option Bytes :=
  if source.length = bytes.length then some source else none

/-- The string cut to `n` bytes, or filled up with zeros to that length. -/
def fit (bytes : Bytes) (n : Nat) : Bytes :=
  bytes.take n ++ zeros (n - bytes.length)

@[simp] theorem length_fit (bytes : Bytes) (n : Nat) : (fit bytes n).length = n := by
  simp only [fit, List.length_append, List.length_take, length_zeros]
  omega

/-- The `n` bytes from `off` on; those past the end of the string read as zeros. -/
def window (bytes : Bytes) (off n : Nat) : Bytes :=
  fit (bytes.drop off) n

@[simp] theorem length_window (bytes : Bytes) (off n : Nat) : (window bytes off n).length = n :=
  length_fit _ _

/-! ## Numbers -/

/-- The number that a string spells, most significant byte first. -/
def beNat (bytes : Bytes) : Nat :=
  bytes.foldl (fun acc b => acc * 256 + b.toNat) 0

/-- The number that a string spells, least significant byte first. -/
def leNat (bytes : Bytes) : Nat :=
  bytes.foldr (fun b acc => acc * 256 + b.toNat) 0

/-- The `n` lowest octets of a number, least significant byte first. -/
def leOctets : Nat → Nat → Bytes
  | 0, _ => []
  | n + 1, value => UInt8.ofNat value :: leOctets n (value / 256)

@[simp] theorem length_leOctets (n value : Nat) : (leOctets n value).length = n := by
  induction n generalizing value with
  | zero => rfl
  | succ n ih => simp [leOctets, ih]

/-- Four octets, least significant byte first. -/
def le32 (value : Nat) : Bytes := leOctets 4 value

/-- Eight octets, least significant byte first. -/
def le64 (value : Nat) : Bytes := leOctets 8 value

/-- Four octets, most significant byte first. -/
def be32 (value : Nat) : Bytes := (leOctets 4 value).reverse

@[simp] theorem length_le32 (value : Nat) : (le32 value).length = 4 := length_leOctets _ _

@[simp] theorem length_le64 (value : Nat) : (le64 value).length = 8 := length_leOctets _ _

@[simp] theorem length_be32 (value : Nat) : (be32 value).length = 4 := by simp [be32]

end Bytes

end TupleStore
