import QuadIndex.Plane.Segment

/-!
# Polygons

A polygon is the closed ring of its vertices, which may cross itself. A point is in it if it
lies on an edge, or if a ray from it to the east crosses an odd number of edges. An edge counts
as crossed if exactly one of its ends is above the ray, so that a vertex on the ray counts once
where the ring passes it and not at all, or twice, where the ring turns back.
-/

namespace QuadIndex

/-- A ring of points. -/
structure Polygon (α : Type) where
  vertices : List (Point α)
  deriving Repr, DecidableEq, BEq

variable {α : Type} [Scalar α]

/-- The ray from the point to the east crosses the segment. -/
def Segment.crossesRay (s : Segment α) (p : Point α) : Bool :=
  decide (p.y < s.b.y) != decide (p.y < s.a.y) &&
    p.x < (s.a.x - s.b.x) * (p.y - s.b.y) / (s.a.y - s.b.y) + s.b.x

namespace Polygon

/-- The segments from each vertex to the next one, and from the last to the first. -/
def edges (g : Polygon α) : List (Segment α) :=
  g.vertices.zipWith Segment.mk (g.vertices.drop 1 ++ g.vertices.take 1)

/-- The point lies on an edge. -/
def onBoundary (g : Polygon α) (p : Point α) : Bool := g.edges.any (·.has p)

/-- The ray from the point to the east crosses an odd number of edges. -/
def oddCrossings (g : Polygon α) (p : Point α) : Bool :=
  g.edges.countP (·.crossesRay p) % 2 == 1

/-- **The point is in the polygon.** A polygon of fewer than three vertices holds no point. -/
def hasPoint (g : Polygon α) (p : Point α) : Bool :=
  3 ≤ g.vertices.length && (g.onBoundary p || g.oddCrossings p)

/-- The least box that covers the vertices. -/
def hull? (g : Polygon α) : Option (Box α) := Box.hull? (g.vertices.map Box.ofPoint)

/-- The polygon and the box share a point: a vertex, the south-west corner of the box, or a
point where an edge runs through the box. -/
def meets (g : Polygon α) (b : Box α) : Bool :=
  g.vertices.any b.hasPoint || g.hasPoint ⟨b.minX, b.minY⟩ ||
    g.edges.any (·.meets b)

/-- All of the box is in the polygon: its corners are, and no edge runs through its inside. -/
def covers (g : Polygon α) (b : Box α) : Bool :=
  b.corners.all g.hasPoint && !g.edges.any (·.entersInside b)

/-- The vertices in double brackets. -/
def text [ToString α] (g : Polygon α) : String :=
  "POLYGON((" ++ ", ".intercalate (g.vertices.map Point.pairText) ++ "))"

end Polygon
end QuadIndex
