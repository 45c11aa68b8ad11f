import QuadIndex.Plane.Box

/-!
# Ranges of boxes

A box is a point of four-dimensional space, with coordinates `minX`, `maxX`, `minY` and `maxY`.
A range of boxes bounds each of the four. A search carries the range of the boxes that can lie
below a node: nothing is known at the root, and each step down into a quadrant moves one bound
on either axis (`BoxRange.narrow`).
-/

namespace QuadIndex

/-- Bounds on the two ends of an interval. -/
structure Bounds (α : Type) where
  low : Interval α
  high : Interval α
  deriving Repr, DecidableEq, BEq

/-- Bounds on the four sides of a box: those of its projections to the two axes. -/
structure BoxRange (α : Type) where
  x : Bounds α
  y : Bounds α
  deriving Repr, DecidableEq, BEq

/-- One of the four sides of a box. -/
inductive Side where
  | minX
  | maxX
  | minY
  | maxY
  deriving Repr, DecidableEq

def Side.text : Side → String
  | minX => "min_x"
  | maxX => "max_x"
  | minY => "min_y"
  | maxY => "max_y"

variable {α : Type} [Scalar α]

namespace Bounds

def full : Bounds α := ⟨Interval.full, Interval.full⟩

def liesIn (b outer : Bounds α) : Bool := b.low.liesIn outer.low && b.high.liesIn outer.high

/-- Keeps the intervals that reach `c` from below or lie above it. -/
def atOrAbove (b : Bounds α) (c : α) : Bounds α :=
  { b with high := { b.high with low := Scalar.greater b.high.low c } }

/-- Keeps the intervals that reach `c` from above or lie below it. -/
def atOrBelow (b : Bounds α) (c : α) : Bounds α :=
  { b with low := { b.low with high := Scalar.lesser b.low.high c } }

end Bounds

namespace BoxRange

/-- The range of all boxes. -/
def full : BoxRange α := ⟨Bounds.full, Bounds.full⟩

/-- The range of the boxes below the child in a quadrant of a node with the given center. A box
whose center lies east of it reaches it with `maxX`, and one whose center lies west of it with
`minX`; north and south do the same to `maxY` and `minY`. -/
def narrow (r : BoxRange α) (center : Point α) (q : Quadrant) : BoxRange α :=
  { x := if q.isEast then r.x.atOrAbove center.x else r.x.atOrBelow center.x
    y := if q.isSouth then r.y.atOrBelow center.y else r.y.atOrAbove center.y }

/-- The range after a path of steps, each a center and the quadrant taken around it. -/
def narrowPath (r : BoxRange α) (steps : List (Point α × Quadrant)) : BoxRange α :=
  steps.foldl (fun r s => r.narrow s.1 s.2) r

def liesIn (r outer : BoxRange α) : Bool := r.x.liesIn outer.x && r.y.liesIn outer.y

/-- The bounds of the four sides. -/
def sides (r : BoxRange α) : List (Side × Interval α) :=
  [(.minX, r.x.low), (.maxX, r.x.high), (.minY, r.y.low), (.maxY, r.y.high)]

/-- The box lies in the range. -/
def has (r : BoxRange α) (b : Box α) : Bool :=
  r.x.low.has b.minX && r.x.high.has b.maxX &&
    r.y.low.has b.minY && r.y.high.has b.maxY

end BoxRange
end QuadIndex
