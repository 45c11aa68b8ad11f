import QuadIndex.Scalar

/-!
# Intervals

Nothing forces the low end of an interval to be below its high end, nor either to be a number.
An interval of which that is true is valid.
-/

namespace QuadIndex

/-- The values from `low` to `high`, ends included. -/
structure Interval (α : Type) where
  low : α
  high : α
  deriving Repr, DecidableEq, BEq

namespace Interval

variable {α : Type} [Scalar α]

/-- The interval of all numbers. -/
def full : Interval α := ⟨-Scalar.infinity, Scalar.infinity⟩

def isValid (i : Interval α) : Bool := i.low ≤ i.high

def has (i : Interval α) (x : α) : Bool := i.low ≤ x && x ≤ i.high

/-- Neither end lies outside the other interval. -/
def liesIn (i outer : Interval α) : Bool := outer.low ≤ i.low && i.high ≤ outer.high

/-- The intervals share a value, both being valid. -/
def meets (i j : Interval α) : Bool := i.low ≤ j.high && j.low ≤ i.high

/-- The least interval that covers both. -/
def join (i j : Interval α) : Interval α :=
  ⟨Scalar.lesser i.low j.low, Scalar.greater i.high j.high⟩

def length (i : Interval α) : α := i.high - i.low

def midpoint (i : Interval α) : α := i.low + Scalar.half i.length

/-- The ends in square brackets. -/
def text [ToString α] (i : Interval α) : String := s!"[{i.low}, {i.high}]"

end Interval
end QuadIndex
