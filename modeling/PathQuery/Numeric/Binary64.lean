/-!
# Double-precision numbers by their bits

A number is the 64 bits of its binary interchange format: one sign bit, eleven exponent bits and
fifty-two fraction bits.  Nothing here computes with the numbers; they are compared with each other
and with integers.

* `Binary64.compare`: the order of the numbers, undefined on NaN, with the two zeros equal;
* `Binary64.ofInt`: the nearest number to an integer, ties to the even neighbour.
-/

namespace PathQuery

structure Binary64 where
  bits : UInt64
  deriving DecidableEq, Repr

namespace Binary64

/-- The bits of which only the sign is set. -/
def signBit : Nat := 0x8000000000000000

/-- The bits without the sign. -/
def magnitude (x : Binary64) : Nat :=
  x.bits.toNat % signBit

def isNegative (x : Binary64) : Bool :=
  signBit ≤ x.bits.toNat

/-- The magnitude of the two infinities; only NaN has a larger one. -/
def infinity : Nat := 0x7FF0000000000000

def isNaN (x : Binary64) : Bool :=
  infinity < x.magnitude

/-- The one NaN that is shown. -/
def nan : Binary64 := ⟨0x7FF8000000000000⟩

def canonical (x : Binary64) : Binary64 :=
  if x.isNaN then nan else x

/-- Magnitudes order like the numbers they stand for, so signed magnitudes do too. -/
def key (x : Binary64) : Int :=
  if x.isNegative then - (x.magnitude : Int) else x.magnitude

def compare (x y : Binary64) : Option Ordering :=
  if x.isNaN || y.isNaN then none else some (Ord.compare x.key y.key)

/-- The quotient by a power of two, rounded to the nearest natural number, ties to even. -/
def roundShift (n shift : Nat) : Nat :=
  let divisor := 1 <<< shift
  let quotient := n / divisor
  let twice := 2 * (n % divisor)
  if divisor < twice || (twice == divisor && quotient % 2 == 1) then quotient + 1 else quotient

/-- The place value of the exponent in the bits; a significand without its leading one stays below
it. -/
def exponentUnit : Nat := 1 <<< 52

/-- The bits of the nearest number to a natural number below `2 ^ 1023`.  A significand that rounds
up to the next power of two carries into the exponent. -/
def natMagnitude (n : Nat) : Nat :=
  if n = 0 then 0
  else
    let exponent := n.log2
    let significand :=
      if exponent ≤ 52 then n <<< (52 - exponent) else roundShift n (exponent - 52)
    (exponent + 1023) * exponentUnit + significand - exponentUnit

def ofInt (i : Int) : Binary64 :=
  if i < 0 then ⟨UInt64.ofNat (signBit + natMagnitude i.natAbs)⟩
  else ⟨UInt64.ofNat (natMagnitude i.natAbs)⟩

end Binary64

end PathQuery
