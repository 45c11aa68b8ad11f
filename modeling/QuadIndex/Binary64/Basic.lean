import QuadIndex.Scalar

/-!
# Binary64 numbers

A `Binary64` is the 64-bit pattern of an IEEE 754 double: a sign, eleven bits of exponent and
52 bits of fraction. Order and equality are read off the pattern: after the sign is accounted
for, a larger number has a larger pattern (`rank`). Arithmetic rounds as the machine does, and
keeps which NaN comes out: an operand that is a NaN is passed on, the first one first, and an
invalid operation such as `∞ - ∞` yields the negative quiet NaN, which `totalOrder` puts below
everything.

* `Binary64.rank`: the place of a pattern among all patterns, by sign and magnitude.
* `Binary64.value`: the same with both zeros in one place, so that it orders the numbers.
-/

namespace QuadIndex

/-- A double-precision number, by its bits. -/
structure Binary64 where
  bits : UInt64
  deriving DecidableEq, Repr

namespace Binary64

def signMask : UInt64 := 0x8000000000000000
def exponentMask : UInt64 := 0x7ff0000000000000
def fractionMask : UInt64 := 0x000fffffffffffff

/-- The bit that tells a quiet NaN from a signalling one. -/
def quietBit : UInt64 := 0x0008000000000000

def zero : Binary64 := ⟨0⟩
def one : Binary64 := ⟨0x3ff0000000000000⟩
def infinity : Binary64 := ⟨exponentMask⟩

/-- The NaN that an invalid operation yields. -/
def invalid : Binary64 := ⟨signMask ||| exponentMask ||| quietBit⟩

/-- The bits below the sign. -/
def magnitude (x : Binary64) : UInt64 := x.bits &&& (exponentMask ||| fractionMask)

def isNegative (x : Binary64) : Bool := signMask ≤ x.bits

def isNaN (x : Binary64) : Bool := exponentMask < x.magnitude

def isInfinite (x : Binary64) : Bool := x.magnitude == exponentMask

/-- The place of a pattern among all patterns: negative ones by falling magnitude, then positive
ones by rising magnitude. -/
def rank (x : Binary64) : UInt64 := if x.isNegative then ~~~x.bits else x.bits ||| signMask

/-- The place of a number among the numbers: its rank, with the negative zero at the positive
one. -/
def value (x : Binary64) : UInt64 := if x.magnitude == 0 then signMask else x.rank

/-- Equality of numbers: the zeros are equal, and a NaN equals nothing. -/
def equal (x y : Binary64) : Bool := !x.isNaN && !y.isNaN && x.value == y.value

/-- Strict order of numbers. A NaN is below nothing and above nothing. -/
def less (x y : Binary64) : Bool := !x.isNaN && !y.isNaN && x.value < y.value

/-- Order of numbers. A NaN is below nothing and above nothing. -/
def atMost (x y : Binary64) : Bool := !x.isNaN && !y.isNaN && x.value ≤ y.value

/-- The order of all patterns, NaN included. -/
def totalOrder (x y : Binary64) : Ordering := compare x.rank y.rank

/-- The number read by the machine's arithmetic. -/
def toFloat (x : Binary64) : Float := Float.ofBits x.bits

/-- The result of an operation that none of whose operands was a NaN. -/
def ofFloat (x : Float) : Binary64 :=
  let r : Binary64 := ⟨x.toBits⟩
  if r.isNaN then invalid else r

/-- A NaN as an operation hands it on: quiet, and otherwise unchanged. -/
def quiet (x : Binary64) : Binary64 := ⟨x.bits ||| quietBit⟩

/-- A function of the machine, on one operand. -/
def lift (f : Float → Float) (x : Binary64) : Binary64 :=
  if x.isNaN then x.quiet else ofFloat (f x.toFloat)

/-- An operation of the machine, on two operands. -/
def lift₂ (f : Float → Float → Float) (x y : Binary64) : Binary64 :=
  if x.isNaN then x.quiet
  else if y.isNaN then y.quiet
  else ofFloat (f x.toFloat y.toFloat)

def neg (x : Binary64) : Binary64 := ⟨x.bits ^^^ signMask⟩
def add : Binary64 → Binary64 → Binary64 := lift₂ Float.add
def sub : Binary64 → Binary64 → Binary64 := lift₂ Float.sub
def mul : Binary64 → Binary64 → Binary64 := lift₂ Float.mul
def div : Binary64 → Binary64 → Binary64 := lift₂ Float.div
def half : Binary64 → Binary64 := lift (Float.div · 2)
def sqrt : Binary64 → Binary64 := lift Float.sqrt
def log2 : Binary64 → Binary64 := lift Float.log2

/-- The whole part of a number, kept in `0 … bound`. -/
def wholePart (bound : Nat) (x : Binary64) : Nat :=
  if x.isNaN then 0 else min bound x.toFloat.toUInt64.toNat

instance : Scalar Binary64 where
  zero := zero
  one := one
  neg := neg
  add := add
  sub := sub
  mul := mul
  div := div
  lt x y := less x y = true
  le x y := atMost x y = true
  beq := equal
  infinity := infinity
  half := half
  sqrt := sqrt
  log2 := log2
  wholePart := wholePart
  totalOrder := totalOrder
  decidableLT x y := inferInstanceAs (Decidable (less x y = true))
  decidableLE x y := inferInstanceAs (Decidable (atMost x y = true))

end Binary64
end QuadIndex
