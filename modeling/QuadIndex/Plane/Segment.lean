import QuadIndex.Plane.Box

/-!
# Segments

The segment from `a` to `b` is the set of points `a + t · (b - a)` for `t` from zero to one. A
box cuts the parameters down by one half-plane for each of its sides. `Segment.clip?` makes the
four cuts in turn and ends early when no parameter is left; the points of the segment in the box
are then those of the parameters from `t₀` to `t₁`.
-/

namespace QuadIndex

/-- The points between `a` and `b`. -/
structure Segment (α : Type) where
  a : Point α
  b : Point α
  deriving Repr, DecidableEq

namespace Segment

variable {α : Type} [Scalar α]

/-- The point of the segment with parameter `t`. -/
def pointAt (s : Segment α) (t : α) : Point α :=
  ⟨s.a.x + (s.b.x - s.a.x) * t, s.a.y + (s.b.y - s.a.y) * t⟩

/-- Keeps the parameters `t` in the range for which `p * t ≤ q`. -/
def cut (p q : α) (range : α × α) : Option (α × α) :=
  if p == 0 then
    if q < 0 then none else some range
  else
    let kept :=
      if p < 0 then (Scalar.greater range.1 (q / p), range.2)
      else (range.1, Scalar.lesser range.2 (q / p))
    if kept.2 < kept.1 then none else some kept

/-- The range of parameters for which the segment runs in the box. -/
def clip? (s : Segment α) (box : Box α) : Option (α × α) :=
  let dx := s.b.x - s.a.x
  let dy := s.b.y - s.a.y
  cut (-dx) (s.a.x - box.minX) (0, 1) >>= cut dx (box.maxX - s.a.x) >>=
    cut (-dy) (s.a.y - box.minY) >>= cut dy (box.maxY - s.a.y)

/-- The segment and the box share a point. -/
def meets (s : Segment α) (box : Box α) : Bool := (s.clip? box).isSome

/-- The middle of the part in the box lies on none of the sides of the box. By convexity, that
part then has a point inside if and only if its middle is one. -/
def entersInside (s : Segment α) (box : Box α) : Bool :=
  match s.clip? box with
  | none => false
  | some (t₀, t₁) => box.surrounds (s.pointAt (Scalar.half (t₀ + t₁)))

/-- The point lies on the line through the ends, and in their bounding box. -/
def has (s : Segment α) (p : Point α) : Bool :=
  (s.b.x - s.a.x) * (p.y - s.a.y) - (s.b.y - s.a.y) * (p.x - s.a.x) == 0 &&
    Scalar.lesser s.a.x s.b.x ≤ p.x && p.x ≤ Scalar.greater s.a.x s.b.x &&
    Scalar.lesser s.a.y s.b.y ≤ p.y && p.y ≤ Scalar.greater s.a.y s.b.y

end Segment
end QuadIndex
