/-!
# Double-precision numbers

A double is its sixty-four bits: two doubles are equal exactly when their bits are, so zero and minus zero
differ and a NaN equals itself. `Binary64.decode` reads the bits as an exact binary fraction.
-/

namespace DatalogRam

/-- A double-precision number, known by its bits. -/
structure Binary64 where
  bits : UInt64
  deriving DecidableEq, Repr

namespace Binary64

/-- What the bits of a double stand for. A finite value is `significand * 2 ^ exponent`, with a sign. -/
inductive Value where
  | notANumber
  | infinite (negative : Bool)
  | finite (negative : Bool) (significand : Nat) (exponent : Int)
  deriving DecidableEq, Repr

def negative (number : Binary64) : Bool :=
  number.bits >>> 63 == 1

/-- How many values the fifty-two fraction bits can take. -/
def fractionRange : Nat :=
  0x10000000000000

/-- The value of the eleven exponent bits. -/
def exponentField (number : Binary64) : Nat :=
  number.bits.toNat / fractionRange % 2048

/-- The value of the fraction bits. -/
def fractionField (number : Binary64) : Nat :=
  number.bits.toNat % fractionRange

/-- Normal numbers have a hidden bit above the fraction. Subnormal numbers have none and share the exponent of
the smallest normal ones. -/
def decode (number : Binary64) : Value :=
  if number.exponentField = 2047 then
    if number.fractionField = 0 then .infinite number.negative else .notANumber
  else if number.exponentField = 0 then
    .finite number.negative number.fractionField (-1074)
  else
    .finite number.negative (fractionRange + number.fractionField)
      (Int.ofNat number.exponentField - 1075)

/-- Whether the gap to the next smaller magnitude is half the gap to the next larger one. It is at powers of
two, the smallest normal number apart. -/
def narrowBelow (number : Binary64) : Bool :=
  number.fractionField == 0 && decide (1 < number.exponentField)

def isFinite (number : Binary64) : Bool :=
  number.exponentField != 2047

end Binary64

end DatalogRam
