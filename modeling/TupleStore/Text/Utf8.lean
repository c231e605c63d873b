import TupleStore.Bytes

/-!
# UTF-8 text

* `encode` : the octets of a text;
* `decode` : the text of any octets. Where they are not well formed, each maximal part that begins a
  sequence without completing it, and each octet that can begin none, becomes one U+FFFD;
* `clip` : the longest beginning of a text whose octets fit a bound (`length_encode_clip`).

The decoder is a machine over octets: between characters, or inside one with the range that the next
octet must lie in. After some first octets that range is narrower than `80..BF`, which is what rules
out overlong forms, surrogates and numbers above U+10FFFF.
-/

namespace TupleStore.Utf8

set_option autoImplicit false

/-- The octets of a text. -/
def encode (text : List Char) : Bytes := text.flatMap String.utf8EncodeChar

@[simp] theorem encode_nil : encode [] = [] := rfl

@[simp] theorem encode_cons (c : Char) (text : List Char) :
    encode (c :: text) = String.utf8EncodeChar c ++ encode text := rfl

/-! ## Decoding -/

/-- Where the decoder stands between octets. -/
inductive State where
  /-- Between characters. -/
  | start
  /-- Inside one: so many octets are missing, the next lies between two bounds, and the bits read so
  far spell a number. -/
  | inside (missing : Nat) (low high : UInt8) (bits : Nat)
deriving DecidableEq, Repr

/-- What stands for octets that are no text. -/
def replacement : Char := '\uFFFD'

/-- The first octet of a character: what it yields at once, and the state after it. -/
def first (b : UInt8) : List Char × State :=
  if b < 0x80 then ([Char.ofNat b.toNat], .start)
  else if b < 0xC2 then ([replacement], .start)
  else if b < 0xE0 then ([], .inside 1 0x80 0xBF (b.toNat - 0xC0))
  else if b = 0xE0 then ([], .inside 2 0xA0 0xBF 0)
  else if b = 0xED then ([], .inside 2 0x80 0x9F 0xD)
  else if b < 0xF0 then ([], .inside 2 0x80 0xBF (b.toNat - 0xE0))
  else if b = 0xF0 then ([], .inside 3 0x90 0xBF 0)
  else if b < 0xF4 then ([], .inside 3 0x80 0xBF (b.toNat - 0xF0))
  else if b = 0xF4 then ([], .inside 3 0x80 0x8F 4)
  else ([replacement], .start)

/-- One octet. One that cannot continue the character begun is read again as a first octet. -/
def step : State → UInt8 → List Char × State
  | .start, b => first b
  | .inside missing low high bits, b =>
    if low ≤ b ∧ b ≤ high then
      let bits := bits * 64 + (b.toNat - 0x80)
      if missing ≤ 1 then ([Char.ofNat bits], .start) else ([], .inside (missing - 1) 0x80 0xBF bits)
    else
      (replacement :: (first b).1, (first b).2)

/-- The text of the octets that follow a state. -/
def decodeFrom : State → Bytes → List Char
  | .start, [] => []
  | .inside .., [] => [replacement]
  | state, b :: rest => (step state b).1 ++ decodeFrom (step state b).2 rest

/-- The text of any octets. -/
def decode (bytes : Bytes) : List Char := decodeFrom .start bytes

/-! ## Clipping -/

/-- The longest beginning of a text whose octets number at most `bound`. -/
def clip (bound : Nat) : List Char → List Char
  | [] => []
  | c :: text => if c.utf8Size ≤ bound then c :: clip (bound - c.utf8Size) text else []

theorem length_encode_clip (bound : Nat) (text : List Char) :
    (encode (clip bound text)).length ≤ bound := by
  induction text generalizing bound with
  | nil => simp [clip]
  | cons c text ih =>
    simp only [clip]
    split
    · have := ih (bound - c.utf8Size)
      simp only [encode_cons, List.length_append, String.length_utf8EncodeChar]
      omega
    · simp

/-- A text that fits is not clipped. -/
theorem clip_eq_self {bound : Nat} {text : List Char} (h : (encode text).length ≤ bound) :
    clip bound text = text := by
  induction text generalizing bound with
  | nil => rfl
  | cons c text ih =>
    simp only [encode_cons, List.length_append, String.length_utf8EncodeChar] at h
    rw [clip, if_pos (by omega), ih (by omega)]

end TupleStore.Utf8
