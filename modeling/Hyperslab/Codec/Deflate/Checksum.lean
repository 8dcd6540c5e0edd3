import Hyperslab.Bytes

/-!
# The Adler-32 checksum

Two sums modulo 65521: of the bytes, starting from one, and of the values of the first sum.
-/

namespace Hyperslab

def adlerModulus : Nat := 65521

/-- The two sums after one more byte. -/
def adlerStep (sums : Nat × Nat) (byte : UInt8) : Nat × Nat :=
  let low := (sums.1 + byte.toNat) % adlerModulus
  (low, (sums.2 + low) % adlerModulus)

/-- The checksum of a byte string, the second sum in the high half. -/
def adler32 (bytes : Bytes) : Nat :=
  let (low, high) := bytes.foldl adlerStep (1, 0)
  high * 65536 + low

end Hyperslab
