import TupleStore.Bytes

/-!
# The CRC-32 checksum

`crc32` is the reflected cyclic redundancy check of polynomial `0x04C11DB7`, with all bits of the
register set at the start and inverted at the end. Log frames carry it, and table numbers are drawn
from it.
-/

namespace TupleStore

set_option autoImplicit false

namespace Crc32

/-- One bit of the reflected division by the polynomial. -/
def bitStep (register : UInt32) : UInt32 :=
  if register &&& 1 = 1 then (register >>> 1) ^^^ 0xEDB88320 else register >>> 1

/-- One byte: it enters at the low end, then eight bits are divided out. -/
def byteStep (register : UInt32) (b : UInt8) : UInt32 :=
  Nat.repeat bitStep 8 (register ^^^ b.toUInt32)

end Crc32

/-- The CRC-32 of a byte string. -/
def crc32 (bytes : Bytes) : UInt32 :=
  bytes.foldl Crc32.byteStep 0xFFFFFFFF ^^^ 0xFFFFFFFF

end TupleStore
