import TupleStore.Text.Utf8

/-!
# Texts as octets and back

`decode_encode` : the octets of a text spell that text. A character is read in one piece, because its first octet
leads the decoder into a range that holds its second octet (`decodeFrom_encodeChar`).

`isPrefix_clip` : a beginning of a text that fits a bound is a beginning of the clipped text, so clipping keeps as
much as fits.
-/

namespace TupleStore.Utf8

set_option autoImplicit false

/-! ## Octets by their numbers -/

theorem toNat_octet {n : Nat} (h : n < 256) : (UInt8.ofNat n).toNat = n := by
  rw [UInt8.toNat_ofNat']
  omega

theorem first_ascii {b : UInt8} (h : b.toNat < 0x80) : first b = ([Char.ofNat b.toNat], .start) := by
  rw [first, if_pos (UInt8.lt_iff_toNat_lt.2 h)]

theorem first_two {b : UInt8} (hl : 0xC2 ≤ b.toNat) (hh : b.toNat < 0xE0) :
    first b = ([], .inside 1 0x80 0xBF (b.toNat - 0xC0)) := by
  simp only [first, UInt8.lt_iff_toNat_lt, UInt8.reduceToNat]
  rw [if_neg (by omega), if_neg (by omega), if_pos hh]

/-- The second octet of a character of three, by the first. -/
theorem first_three {b : UInt8} (hl : 0xE0 ≤ b.toNat) (hh : b.toNat < 0xF0) :
    ∃ low high, first b = ([], .inside 2 low high (b.toNat - 0xE0)) ∧
      low.toNat = (if b.toNat = 0xE0 then 0xA0 else 0x80) ∧ high.toNat = if b.toNat = 0xED then 0x9F else 0xBF := by
  simp only [first, UInt8.lt_iff_toNat_lt, ← UInt8.toNat_inj, UInt8.reduceToNat]
  rw [if_neg (by omega), if_neg (by omega), if_neg (by omega)]
  by_cases h₀ : b.toNat = 0xE0
  · exact ⟨0xA0, 0xBF, by simp [h₀]⟩
  · by_cases h₁ : b.toNat = 0xED
    · exact ⟨0x80, 0x9F, by simp [h₁]⟩
    · exact ⟨0x80, 0xBF, by simp [h₀, h₁, hh]⟩

theorem first_four {b : UInt8} (hl : 0xF0 ≤ b.toNat) (hh : b.toNat < 0xF5) :
    ∃ low high, first b = ([], .inside 3 low high (b.toNat - 0xF0)) ∧
      low.toNat = (if b.toNat = 0xF0 then 0x90 else 0x80) ∧ high.toNat = if b.toNat = 0xF4 then 0x8F else 0xBF := by
  simp only [first, UInt8.lt_iff_toNat_lt, ← UInt8.toNat_inj, UInt8.reduceToNat]
  rw [if_neg (by omega), if_neg (by omega), if_neg (by omega), if_neg (by omega), if_neg (by omega), if_neg (by omega)]
  by_cases h₀ : b.toNat = 0xF0
  · exact ⟨0x90, 0xBF, by simp [h₀]⟩
  · by_cases h₁ : b.toNat = 0xF4
    · exact ⟨0x80, 0x8F, by simp [h₁]⟩
    · exact ⟨0x80, 0xBF, by simp [h₀, h₁]; omega⟩

theorem decodeFrom_start (b : UInt8) (rest : Bytes) :
    decodeFrom .start (b :: rest) = (first b).1 ++ decodeFrom (first b).2 rest := rfl

theorem decodeFrom_last {low high b : UInt8} {bits : Nat} (hl : low.toNat ≤ b.toNat) (hh : b.toNat ≤ high.toNat)
    (rest : Bytes) : decodeFrom (.inside 1 low high bits) (b :: rest) =
      Char.ofNat (bits * 64 + (b.toNat - 0x80)) :: decodeFrom .start rest := by
  have hb : low ≤ b ∧ b ≤ high := ⟨UInt8.le_iff_toNat_le.2 hl, UInt8.le_iff_toNat_le.2 hh⟩
  simp [decodeFrom, step, hb]

theorem decodeFrom_more {low high b : UInt8} {missing bits : Nat} (hl : low.toNat ≤ b.toNat)
    (hh : b.toNat ≤ high.toNat) (rest : Bytes) : decodeFrom (.inside (missing + 2) low high bits) (b :: rest) =
      decodeFrom (.inside (missing + 1) 0x80 0xBF (bits * 64 + (b.toNat - 0x80))) rest := by
  have hb : low ≤ b ∧ b ≤ high := ⟨UInt8.le_iff_toNat_le.2 hl, UInt8.le_iff_toNat_le.2 hh⟩
  simp [decodeFrom, step, hb]

/-! ## Characters and texts -/

theorem decodeFrom_encodeChar (c : Char) (rest : Bytes) :
    decodeFrom .start (String.utf8EncodeChar c ++ rest) = c :: decodeFrom .start rest := by
  have hvalid : c.val.toNat < 0xD800 ∨ 0xDFFF < c.val.toNat ∧ c.val.toNat < 0x110000 := c.valid
  have hc : ∀ n, n = c.val.toNat → Char.ofNat n = c := fun n hn => hn ▸ Char.ofNat_toNat c
  unfold String.utf8EncodeChar
  generalize c.val.toNat = v at hvalid hc
  dsimp only
  split
  · have h₀ : (UInt8.ofNat v).toNat = v := toNat_octet (by omega)
    rw [List.cons_append, List.nil_append, decodeFrom_start, first_ascii (by omega)]
    exact congrArg (· :: _) (hc _ h₀)
  split
  · have h₀ : (UInt8.ofNat (v / 64 % 32 + 192)).toNat = v / 64 % 32 + 192 := toNat_octet (by omega)
    have h₁ : (UInt8.ofNat (v % 64 + 128)).toNat = v % 64 + 128 := toNat_octet (by omega)
    simp only [List.cons_append, List.nil_append]
    rw [decodeFrom_start, first_two (by omega) (by omega), List.nil_append,
      decodeFrom_last (by rw [h₁]; exact Nat.le_add_left ..) (by rw [h₁]; simp; omega), hc _ (by omega)]
  split
  · have h₀ : (UInt8.ofNat (v / 4096 % 16 + 224)).toNat = v / 4096 % 16 + 224 := toNat_octet (by omega)
    have h₁ : (UInt8.ofNat (v / 64 % 64 + 128)).toNat = v / 64 % 64 + 128 := toNat_octet (by omega)
    have h₂ : (UInt8.ofNat (v % 64 + 128)).toNat = v % 64 + 128 := toNat_octet (by omega)
    obtain ⟨low, high, hfirst, hlow, hhigh⟩ := first_three (b := .ofNat (v / 4096 % 16 + 224)) (by omega) (by omega)
    simp only [List.cons_append, List.nil_append]
    rw [decodeFrom_start, hfirst, List.nil_append,
      decodeFrom_more (by rw [hlow]; split <;> omega) (by rw [hhigh]; split <;> omega),
      decodeFrom_last (by rw [h₂]; exact Nat.le_add_left ..) (by rw [h₂]; simp; omega), hc _ (by omega)]
  · have h₀ : (UInt8.ofNat (v / 262144 % 8 + 240)).toNat = v / 262144 % 8 + 240 := toNat_octet (by omega)
    have h₁ : (UInt8.ofNat (v / 4096 % 64 + 128)).toNat = v / 4096 % 64 + 128 := toNat_octet (by omega)
    have h₂ : (UInt8.ofNat (v / 64 % 64 + 128)).toNat = v / 64 % 64 + 128 := toNat_octet (by omega)
    have h₃ : (UInt8.ofNat (v % 64 + 128)).toNat = v % 64 + 128 := toNat_octet (by omega)
    obtain ⟨low, high, hfirst, hlow, hhigh⟩ := first_four (b := .ofNat (v / 262144 % 8 + 240)) (by omega) (by omega)
    simp only [List.cons_append, List.nil_append]
    rw [decodeFrom_start, hfirst, List.nil_append,
      decodeFrom_more (by rw [hlow]; split <;> omega) (by rw [hhigh]; split <;> omega),
      decodeFrom_more (by rw [h₂]; exact Nat.le_add_left ..) (by rw [h₂]; simp; omega),
      decodeFrom_last (by rw [h₃]; exact Nat.le_add_left ..) (by rw [h₃]; simp; omega), hc _ (by omega)]

/-- The octets of a text spell it. -/
theorem decode_encode (text : List Char) : decode (encode text) = text := by
  unfold decode
  induction text with
  | nil => rfl
  | cons c text ih => rw [encode_cons, decodeFrom_encodeChar, ih]

/-- Clipping keeps as much as fits. -/
theorem isPrefix_clip {bound : Nat} {front text : List Char} (h : front <+: text)
    (hfits : (encode front).length ≤ bound) : front <+: clip bound text := by
  induction text generalizing bound front with
  | nil => exact h
  | cons c text ih =>
    cases front with
    | nil => exact List.nil_prefix
    | cons d front =>
      obtain ⟨rfl, hfront⟩ := List.cons_prefix_cons.1 h
      simp only [encode_cons, List.length_append, String.length_utf8EncodeChar] at hfits
      rw [clip, if_pos (by omega), List.cons_prefix_cons]
      exact ⟨rfl, ih hfront (by omega)⟩

theorem clip_isPrefix (bound : Nat) (text : List Char) : clip bound text <+: text := by
  induction text generalizing bound with
  | nil => exact List.prefix_rfl
  | cons c text ih =>
    rw [clip]
    split
    · exact List.cons_prefix_cons.2 ⟨rfl, ih _⟩
    · exact List.nil_prefix

end TupleStore.Utf8
