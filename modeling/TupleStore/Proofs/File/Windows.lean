import Mathlib.Logic.Basic
import TupleStore.File.PageFile

/-!
# Pages as windows of a file

A file has a byte at every offset, which is zero past its end (`byteAt`). A window shows the bytes of its
range (`getElem?_window`), and a write changes those of its own range only (`byteAt_writeAt`). So a page that
is written is what is read at its number (`window_writeAt_self`), every other page stays as it was
(`window_writeAt_of_ne`), and a page of zeros behind the end changes no page at all
(`window_writeAt_zeros`).
-/

namespace TupleStore.Bytes

set_option autoImplicit false

/-- The byte at an offset; zero past the end. -/
def byteAt (bytes : Bytes) (i : Nat) : UInt8 := bytes[i]?.getD 0

theorem byteAt_append (a b : Bytes) (i : Nat) :
    (a ++ b).byteAt i = if i < a.length then a.byteAt i else b.byteAt (i - a.length) := by
  unfold byteAt
  rw [List.getElem?_append]
  split <;> rfl

theorem byteAt_of_le {bytes : Bytes} {i : Nat} (h : bytes.length ≤ i) : bytes.byteAt i = 0 := by
  rw [byteAt, List.getElem?_eq_none h]
  rfl

theorem byteAt_zeros (n i : Nat) : (zeros n).byteAt i = 0 := by
  unfold byteAt zeros
  rw [List.getElem?_replicate]
  split <;> rfl

theorem byteAt_append_zeros (bytes : Bytes) (n i : Nat) : (bytes ++ zeros n).byteAt i = bytes.byteAt i := by
  rw [byteAt_append]
  split
  · rfl
  · rw [byteAt_zeros, byteAt_of_le (by omega)]

theorem byteAt_take (bytes : Bytes) (n i : Nat) :
    byteAt (bytes.take n) i = if i < n then bytes.byteAt i else 0 := by
  unfold byteAt
  rw [List.getElem?_take]
  split <;> rfl

theorem byteAt_drop (bytes : Bytes) (n i : Nat) : byteAt (bytes.drop n) i = bytes.byteAt (n + i) := by
  unfold byteAt
  rw [List.getElem?_drop]

theorem getElem?_window (bytes : Bytes) (off n i : Nat) :
    (bytes.window off n)[i]? = if i < n then some (bytes.byteAt (off + i)) else none := by
  by_cases hi : i < n
  · have hb : byteAt (bytes.window off n) i = bytes.byteAt (off + i) := by
      rw [window, fit, byteAt_append_zeros, byteAt_take, if_pos hi, byteAt_drop]
    rw [if_pos hi, ← hb, byteAt, List.getElem?_eq_getElem (by simpa using hi)]
    rfl
  · rw [if_neg hi, List.getElem?_eq_none (by simpa using hi)]

/-- Two windows of one size are the same if they show the same bytes. -/
theorem window_congr {a b : Bytes} {off off' n : Nat}
    (h : ∀ i < n, a.byteAt (off + i) = b.byteAt (off' + i)) : a.window off n = b.window off' n := by
  apply List.ext_getElem?
  intro i
  rw [getElem?_window, getElem?_window]
  split
  · rename_i hi
    rw [h i hi]
  · rfl

theorem byteAt_writeAt (content data : Bytes) (off i : Nat) :
    (content.writeAt off data).byteAt i =
      if off ≤ i ∧ i < off + data.length then data.byteAt (i - off) else content.byteAt i := by
  have hpad : ((content ++ zeros (off - content.length)).take off).length = off := by
    rw [List.length_take, List.length_append, length_zeros]
    omega
  rw [writeAt, overlay, List.append_assoc, byteAt_append, hpad, byteAt_append, byteAt_take, byteAt_drop,
    byteAt_append_zeros, byteAt_append_zeros]
  by_cases h₁ : i < off
  · rw [if_pos h₁, if_pos h₁, if_neg (by omega)]
  · rw [if_neg h₁]
    by_cases h₂ : i - off < data.length
    · rw [if_pos h₂, if_pos (by omega)]
    · rw [if_neg h₂, if_neg (by omega)]
      congr 1
      omega

theorem length_writeAt (content data : Bytes) (off : Nat) :
    (content.writeAt off data).length = max content.length (off + data.length) := by
  unfold writeAt overlay
  simp only [List.length_append, List.length_take, List.length_drop, length_zeros]
  omega

/-! ## Pages -/

/-- A page that was written is read back. -/
theorem window_writeAt_self (content data : Bytes) (off : Nat) :
    (content.writeAt off data).window off data.length = data := by
  apply List.ext_getElem?
  intro i
  rw [getElem?_window]
  split
  · rename_i hi
    rw [byteAt_writeAt, if_pos (by omega), Nat.add_sub_cancel_left, byteAt, List.getElem?_eq_getElem hi]
    rfl
  · rename_i hi
    rw [List.getElem?_eq_none (by omega)]

/-- The ranges of two pages of a file have no byte in common. -/
theorem page_ranges_disjoint {m n size i j : Nat} (h : m ≠ n) (hi : i < size) (hj : j < size) :
    m * size + i ≠ n * size + j := by
  rcases Nat.lt_or_gt_of_ne h with hlt | hlt
  · have := Nat.mul_le_mul_right size (show m + 1 ≤ n from hlt)
    rw [Nat.add_mul] at this
    omega
  · have := Nat.mul_le_mul_right size (show n + 1 ≤ m from hlt)
    rw [Nat.add_mul] at this
    omega

/-- A page that was not written is read as before. -/
theorem window_writeAt_of_ne (content data : Bytes) {m n : Nat} (h : m ≠ n) :
    (content.writeAt (n * data.length) data).window (m * data.length) data.length =
      content.window (m * data.length) data.length := by
  refine window_congr fun i hi => ?_
  rw [byteAt_writeAt, if_neg]
  rintro ⟨h₁, h₂⟩
  exact page_ranges_disjoint h hi (show m * data.length + i - n * data.length < data.length by omega) (by omega)

/-- A page past the end reads as zeros. -/
theorem window_of_le {content : Bytes} {off n : Nat} (h : content.length ≤ off) :
    content.window off n = zeros n := by
  rw [window, List.drop_eq_nil_of_le h]
  simp [fit]

/-- Zeros written behind the end change no window. -/
theorem window_writeAt_zeros {content : Bytes} {at' : Nat} (h : content.length ≤ at') (size off n : Nat) :
    (content.writeAt at' (zeros size)).window off n = content.window off n := by
  refine window_congr fun i _ => ?_
  rw [byteAt_writeAt]
  split
  · rw [byteAt_zeros, byteAt_of_le (by omega)]
  · rfl

end TupleStore.Bytes
