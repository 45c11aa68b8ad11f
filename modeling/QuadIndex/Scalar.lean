/-!
# Scalars

Coordinates are values of any type with the operations of `Scalar`. Comparisons are those of
numbers that may fail to be one: a NaN is below nothing, above nothing and different from
itself. `Scalar.totalOrder` is a second order that ranks every value, NaN included, and serves
for sorting.

* `lesser`, `greater`: the smaller and the larger of two values, passing over a NaN.
* `sorted`: the values in increasing total order.
-/

namespace QuadIndex

/-- The operations that the geometry and the two splits need of a coordinate. -/
class Scalar (α : Type) extends
    Zero α, One α, Neg α, Add α, Sub α, Mul α, Div α, LT α, LE α, BEq α where
  /-- Above every number. -/
  infinity : α
  /-- The value divided by two. -/
  half : α → α
  sqrt : α → α
  /-- The logarithm to base two. -/
  log2 : α → α
  /-- The whole part of a value, kept in `0 … bound`; a NaN has whole part zero. -/
  wholePart : (bound : Nat) → α → Nat
  /-- Ranks all values: numbers by size, and a NaN beyond the infinity of its sign. -/
  totalOrder : α → α → Ordering
  decidableLT : DecidableLT α
  decidableLE : DecidableLE α

attribute [reducible, instance] Scalar.decidableLT Scalar.decidableLE

namespace Scalar

variable {α : Type} [Scalar α]

/-- A value that differs from itself is not a number. -/
def isNaN (x : α) : Bool := !(x == x)

/-- Neither infinite nor a NaN. -/
def isFinite (x : α) : Bool := -infinity < x && x < infinity

/-- The smaller value; the other one if one is a NaN, and the second of two equal ones. -/
def lesser (x y : α) : α := if isNaN x || y ≤ x then y else x

/-- The larger value; the other one if one is a NaN, and the second of two equal ones. -/
def greater (x y : α) : α := if isNaN x || x ≤ y then y else x

/-- The values in increasing total order. -/
def sorted (xs : List α) : List α := xs.mergeSort fun x y => (totalOrder x y).isLE

end Scalar
end QuadIndex
