import QuadIndex.Binary64.Basic
import QuadIndex.Quadrant
import QuadIndex.Plane.Interval
import QuadIndex.Plane.Point

/-!
# Boxes

A box is a closed rectangle with sides along the axes. As with intervals, a box is valid if its
low sides are at most its high sides; an operation that needs that checks it first.

* `Box.quarter`: a quarter of a box, cut at its center.
* `Box.quadrantOf`: the quadrant of a cell that holds the center of a box.
* `Box.compare`: all boxes in one order, for sorting.
* `Box.hull?`: the least box that covers a list of boxes.
-/

namespace QuadIndex

/-- The points with `minX ≤ x ≤ maxX` and `minY ≤ y ≤ maxY`. -/
structure Box (α : Type) where
  minX : α
  minY : α
  maxX : α
  maxY : α
  deriving Repr, DecidableEq, BEq

variable {α : Type} [Scalar α]

/-- The quadrant around a center that holds the point. -/
def Quadrant.around (center p : Point α) : Quadrant :=
  Quadrant.ofHalves (center.x ≤ p.x) (p.y < center.y)

namespace Box

/-- The box that holds one point. -/
def ofPoint (p : Point α) : Box α := ⟨p.x, p.y, p.x, p.y⟩

/-- The projection to the horizontal axis. -/
def xRange (b : Box α) : Interval α := ⟨b.minX, b.maxX⟩

/-- The projection to the vertical axis. -/
def yRange (b : Box α) : Interval α := ⟨b.minY, b.maxY⟩

def width (b : Box α) : α := b.maxX - b.minX

def height (b : Box α) : α := b.maxY - b.minY

def area (b : Box α) : α := b.width * b.height

/-- The longer side. -/
def longSide (b : Box α) : α := Scalar.greater b.width b.height

def center (b : Box α) : Point α :=
  ⟨b.minX + Scalar.half b.width, b.minY + Scalar.half b.height⟩

/-- The corners, from the south-west one around against the clock. -/
def corners (b : Box α) : List (Point α) :=
  [⟨b.minX, b.minY⟩, ⟨b.maxX, b.minY⟩, ⟨b.maxX, b.maxY⟩, ⟨b.minX, b.maxY⟩]

/-- No side is past the opposite one, and none is a NaN. -/
def isValid (b : Box α) : Bool := b.minX ≤ b.maxX && b.minY ≤ b.maxY

def isSinglePoint (b : Box α) : Bool := b.minX == b.maxX && b.minY == b.maxY

def hasPoint (b : Box α) (p : Point α) : Bool :=
  b.minX ≤ p.x && p.x ≤ b.maxX && b.minY ≤ p.y && p.y ≤ b.maxY

/-- The point lies in the box and on none of its sides. -/
def surrounds (b : Box α) (p : Point α) : Bool :=
  b.minX < p.x && p.x < b.maxX && b.minY < p.y && p.y < b.maxY

def covers (b c : Box α) : Bool :=
  b.minX ≤ c.minX && c.maxX ≤ b.maxX && b.minY ≤ c.minY && c.maxY ≤ b.maxY

def meets (b c : Box α) : Bool :=
  b.minX ≤ c.maxX && c.minX ≤ b.maxX && b.minY ≤ c.maxY && c.minY ≤ b.maxY

/-- The least box that covers both. -/
def join (b c : Box α) : Box α :=
  ⟨Scalar.lesser b.minX c.minX, Scalar.lesser b.minY c.minY,
    Scalar.greater b.maxX c.maxX, Scalar.greater b.maxY c.maxY⟩

/-- The area that the box gains if it grows to cover another. -/
def growth (b c : Box α) : α := (b.join c).area - b.area

/-- The quarter of the box in a quadrant of its center. -/
def quarter (b : Box α) (q : Quadrant) : Box α :=
  let mid := b.center
  { minX := if q.isEast then mid.x else b.minX
    minY := if q.isSouth then b.minY else mid.y
    maxX := if q.isEast then b.maxX else mid.x
    maxY := if q.isSouth then mid.y else b.maxY }

/-- The quadrant of the cell that holds the center of the box. -/
def quadrantOf (cell b : Box α) : Quadrant := Quadrant.around cell.center b.center

/-- The order of all boxes, by `minX`, then `minY`, `maxX` and `maxY`. -/
def compare (b c : Box α) : Ordering :=
  ((Scalar.totalOrder b.minX c.minX).then (Scalar.totalOrder b.minY c.minY)).then
    ((Scalar.totalOrder b.maxX c.maxX).then (Scalar.totalOrder b.maxY c.maxY))

/-- The least box that covers all boxes of a list. -/
def hull? : List (Box α) → Option (Box α)
  | [] => none
  | b :: bs => some (bs.foldl join b)

/-- The first of the boxes that no other is below. -/
def least? : List (Box α) → Option (Box α)
  | [] => none
  | b :: bs => some (bs.foldl (fun m c => if (c.compare m).isLT then c else m) b)

/-- The last of the boxes that no other is above. -/
def greatest? : List (Box α) → Option (Box α)
  | [] => none
  | b :: bs => some (bs.foldl (fun m c => if (c.compare m).isLT then m else c) b)

/-- The positions of the boxes in increasing order, equal boxes as they stand. -/
def sortedPositions (bs : List (Box α)) : List Nat :=
  (bs.zipIdx.mergeSort fun b c => (b.1.compare c.1).isLE).map (·.2)

/-- The words by which a box is hashed: the bits of its sides. -/
def hashWords (b : Box Binary64) : List UInt64 :=
  [b.minX.bits, b.minY.bits, b.maxX.bits, b.maxY.bits]

/-- The sides in brackets. -/
def sidesText [ToString α] (b : Box α) : String :=
  s!"({b.minX}, {b.minY}, {b.maxX}, {b.maxY})"

def text [ToString α] (b : Box α) : String := "BoundingBox" ++ b.sidesText

end Box
end QuadIndex
