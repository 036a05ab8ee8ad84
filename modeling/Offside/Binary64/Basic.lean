/-!
# Double-precision numbers

A number of the IEEE 754 format binary64 is kept as its 64 bits: a sign, eleven bits of exponent and
52 of fraction. `Binary64.equals` is the comparison of the format, under which the two zeros are
equal and a NaN is equal to nothing.
-/

namespace Offside

structure Binary64 where
  bits : UInt64
deriving DecidableEq, Repr

namespace Binary64

/-- The bit of the sign. -/
def signBit : Nat := 0x8000000000000000

/-- The bit above the fraction. A normal number has it in its significand, but it is not stored. -/
def leadingBit : Nat := 0x10000000000000

/-- Whether the sign bit is set. -/
def isNegative (x : Binary64) : Bool :=
  signBit ≤ x.bits.toNat

/-- The bits without the sign. They are in the order of the absolute values. -/
def magnitude (x : Binary64) : Nat :=
  x.bits.toNat % signBit

/-- The magnitude of the infinities. Those above it are NaNs. -/
def infinity : Nat := 2047 * leadingBit

def isNaN (x : Binary64) : Bool :=
  infinity < x.magnitude

/-- The number with the given magnitude. -/
def ofMagnitude (negative : Bool) (magnitude : Nat) : Binary64 where
  bits := UInt64.ofNat (if negative then signBit + magnitude else magnitude)

/-- Whether two numbers compare as equal. -/
def equals (x y : Binary64) : Bool :=
  !x.isNaN && !y.isNaN && (x.bits == y.bits || (x.magnitude == 0 && y.magnitude == 0))

end Binary64

end Offside
