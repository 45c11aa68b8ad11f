import QuadIndex.Scalar

/-!
# Points
-/

namespace QuadIndex

/-- A point of the plane, by its coordinates. -/
structure Point (α : Type) where
  x : α
  y : α
  deriving Repr, DecidableEq, BEq

namespace Point

variable {α : Type} [Scalar α]

/-- The Euclidean distance. -/
def distance (p q : Point α) : α :=
  let dx := p.x - q.x
  let dy := p.y - q.y
  Scalar.sqrt (dx * dx + dy * dy)

def isFinite (p : Point α) : Bool := Scalar.isFinite p.x && Scalar.isFinite p.y

/-- The coordinates in brackets. -/
def text [ToString α] (p : Point α) : String := s!"({p.x}, {p.y})"

/-- The coordinates with a blank between them, as shapes list their points. -/
def pairText [ToString α] (p : Point α) : String := s!"{p.x} {p.y}"

end Point
end QuadIndex
