import QuadIndex.Error
import QuadIndex.Plane.Polygon

/-!
# Shapes

The argument of a query is a point, a circle, a polygon or a box. An index compares boxes only,
so a shape is first reduced to its bounding box. A point and a box are their bounding boxes; a
match on the bounding box of a circle or polygon is checked again on the shape itself.

* `Shape.boundingBox`: the bounding box, or what is wrong with the shape.
* `Shape.meets`, `Shape.liesIn`, `Shape.covers`: the shape against a box.
* `Shape.meets?`: the same, where the point of a box nearest to the center of a circle
  is not defined if the box is not valid.
-/

namespace QuadIndex

/-- The argument of a query. -/
inductive Shape (α : Type) where
  | point (p : Point α)
  | circle (center : Point α) (radius : α)
  | polygon (g : Polygon α)
  | envelope (b : Box α)
  deriving Repr, DecidableEq, BEq

variable {α : Type} [Scalar α]

/-- The value of an interval nearest to `x`. -/
def Interval.nearest (i : Interval α) (x : α) : α :=
  if x < i.low then i.low else if i.high < x then i.high else x

/-- The point of a box nearest to `p`. -/
def Box.nearest (b : Box α) (p : Point α) : Point α :=
  ⟨b.xRange.nearest p.x, b.yRange.nearest p.y⟩

/-- The bounding box of a polygon, whose vertices must be finite. -/
def Polygon.boundingBox (g : Polygon α) : Except (IndexError α) (Box α) :=
  match g.hull?, g.vertices.find? fun p => !p.isFinite with
  | none, _ => .error (.malformed .noVertices)
  | some _, some p => .error (.malformed (.vertex p))
  | some b, none => .ok b

namespace Shape

/-- **The bounding box of a shape.** -/
def boundingBox : Shape α → Except (IndexError α) (Box α)
  | point p => .ok (Box.ofPoint p)
  | circle c r =>
    if 0 ≤ r then .ok ⟨c.x - r, c.y - r, c.x + r, c.y + r⟩
    else .error (.malformed (.radius r))
  | polygon g => g.boundingBox
  | envelope b => .ok b

/-- The shape is its own bounding box. -/
def isExact : Shape α → Bool
  | point _ | envelope _ => true
  | circle _ _ | polygon _ => false

/-- The shape and the box share a point. -/
def meets (s : Shape α) (b : Box α) : Bool :=
  match s with
  | point p => b.hasPoint p
  | envelope e => e.meets b
  | circle c r => c.distance (b.nearest c) ≤ r
  | polygon g => g.meets b

/-- All of the shape lies in the box. A shape without a bounding box lies in none. -/
def liesIn (s : Shape α) (b : Box α) : Bool :=
  match s.boundingBox with
  | .ok own => b.covers own
  | .error _ => false

/-- All of the box lies in the shape. Of a box, a corner is farthest from the center of a
circle. -/
def covers (s : Shape α) (b : Box α) : Bool :=
  match s with
  | point p => b.isSinglePoint && b.hasPoint p
  | envelope e => e.covers b
  | circle c r => b.corners.all fun p => c.distance p ≤ r
  | polygon g => g.covers b

/-- Whether a test of the shape needs a point of the box nearest to another. -/
def needsNearest : Shape α → Bool
  | circle _ _ => true
  | _ => false

/-- `meets`, where that is defined. -/
def meets? (s : Shape α) (b : Box α) : Option Bool :=
  if s.needsNearest && !b.isValid then none else some (s.meets b)

def text [ToString α] : Shape α → String
  | point p => "POINT(" ++ p.pairText ++ ")"
  | circle c r => "CIRCLE(" ++ c.pairText ++ ", " ++ toString r ++ ")"
  | polygon g => g.text
  | envelope b => "ENVELOPE" ++ b.sidesText

end Shape
end QuadIndex
