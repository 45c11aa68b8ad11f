import QuadIndex.Binary64.Basic

/-!
# Decimal text of a number

A finite number is `m · 2 ^ q`, and the reals that round to it form an interval around it, with
its ends if and only if `m` is even. The text of the number is the decimal of fewest digits in
that interval, the one nearest to the number among those, written out without an exponent.

* `Grid.shortest`: that decimal, found on ever finer decimal grids. If a grid has a point in
  the interval, then one of the two neighbours of the number on it lies there.
* `Binary64.text`: the text, with `NaN`, `inf` and the sign of zero.
* `Binary64.ofDecimal`: the number nearest to a decimal.
-/

namespace QuadIndex

/-- A decimal `digits · 10 ^ exponent`. -/
structure Decimal where
  digits : Nat
  exponent : Int
  deriving DecidableEq, Repr

/-- A positive number and the interval of reals that round to it, as fractions with one
denominator. -/
structure Rounding where
  low : Nat
  value : Nat
  high : Nat
  denominator : Nat
  /-- Whether the ends of the interval round to the number too. -/
  closed : Bool
  deriving Repr

namespace Rounding

/-- `n / d` times the denominator lies in the interval. -/
def has (r : Rounding) (n d : Nat) : Bool :=
  if r.closed then r.low * d ≤ n && n ≤ r.high * d else r.low * d < n && n < r.high * d

/-- The number of decimal digits before the point; zero or less for a number below a tenth or
a one, by how many zeros follow the point. -/
def magnitude (r : Rounding) : Int :=
  let width (n : Nat) : Int := (Nat.toDigits 10 n).length
  if r.denominator ≤ r.value then width (r.value / r.denominator)
  else 1 - width ((r.denominator - 1) / r.value)

/-- The decimal on the grid of step `10 ^ exponent` that rounds to the number and lies nearest
to it, the upper one of two equally near. -/
def onGrid? (r : Rounding) (exponent : Int) : Option Decimal :=
  -- the step of the grid is `up / down`
  let up := Nat.pow 10 exponent.toNat
  let down := Nat.pow 10 (-exponent).toNat
  let step := up * r.denominator
  let scaled := r.value * down
  let below := scaled / step
  let fits (n : Nat) : Bool := r.has (n * step) down
  let nearer : Bool := scaled - below * step < (below + 1) * step - scaled
  if fits below && (nearer || !fits (below + 1)) then some ⟨below, exponent⟩
  else if fits (below + 1) then some ⟨below + 1, exponent⟩
  else none

/-- The decimal of fewest digits that rounds to the number. Seventeen digits always suffice. -/
def shortest (r : Rounding) : Decimal :=
  ((List.range 17).findSome? fun n : Nat => r.onGrid? (r.magnitude - 1 - n)).getD ⟨0, 0⟩

end Rounding

/-- The digits of a decimal written out: zeros up to the point, or digits after it, of which
trailing zeros are dropped. -/
def Decimal.text (d : Decimal) : String :=
  let unit := Nat.pow 10 (-d.exponent).toNat
  let whole := d.digits * Nat.pow 10 d.exponent.toNat / unit
  let places := (Nat.toDigits 10 (d.digits % unit + unit)).drop 1
  let fraction := (places.reverse.dropWhile (· == '0')).reverse
  if fraction.isEmpty then Nat.repr whole
  else Nat.repr whole ++ "." ++ String.ofList fraction

namespace Binary64

/-- The leading bit of a significand, which the fraction leaves out. -/
def hidden : Nat := 0x10000000000000

/-- The significand and the power of two of a finite number. -/
def significand (x : Binary64) : Nat × Int :=
  let exponent := (x.magnitude >>> 52).toNat
  let fraction := (x.bits &&& fractionMask).toNat
  if exponent = 0 then (fraction, -1074) else (hidden + fraction, (exponent : Int) - 1075)

/-- The interval of reals that round to a finite number other than zero. Below a power of two
the numbers lie twice as dense. -/
def rounding (x : Binary64) : Rounding :=
  let (m, q) := x.significand
  let up := Nat.pow 2 (q - 2).toNat
  let down := Nat.pow 2 (2 - q).toNat
  let below := if m = hidden && -1074 < q then 1 else 2
  ⟨(4 * m - below) * up, 4 * m * up, (4 * m + 2) * up, down, m % 2 == 0⟩

/-- **The text of a number.** -/
def text (x : Binary64) : String :=
  if x.isNaN then "NaN"
  else (if x.isNegative then "-" else "") ++
    if x.isInfinite then "inf"
    else if x.magnitude == 0 then "0"
    else x.rounding.shortest.text

instance : ToString Binary64 := ⟨text⟩

/-- The number nearest to a decimal. -/
def ofDecimal (negative : Bool) (d : Decimal) : Binary64 :=
  let size : Binary64 :=
    ⟨(Float.ofScientific d.digits (d.exponent < 0) d.exponent.natAbs).toBits⟩
  if negative then size.neg else size

end Binary64
end QuadIndex
