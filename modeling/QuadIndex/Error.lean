import QuadIndex.Plane.BoxRange

/-!
# Errors

An operation refuses its input where its answer could be silently wrong. An `IndexError` is the
cause of a refusal; `IndexError.message` words it.

The checks of boxes and of the bounds of a search stand here too, since they are where most
refusals start.
-/

namespace QuadIndex

/-- What is wrong with a value of the plane. -/
inductive Malformed (α : Type) where
  /-- A low side past the high side, or a NaN. -/
  | box (b : Box α)
  /-- The same of an interval. -/
  | range (i : Interval α)
  /-- The same of one bound of a range of boxes. -/
  | bound (side : Side) (i : Interval α)
  /-- A negative radius, or a NaN. -/
  | radius (r : α)
  /-- A polygon without vertices. -/
  | noVertices
  /-- An infinite vertex, or a NaN in one. -/
  | vertex (p : Point α)
  deriving Repr, DecidableEq

/-- Why an operation cannot start. -/
inductive Unusable where
  | emptyLeaf
  | noLeafCapacity
  | noTreeDepth
  | noColumns
  | tooFewEntries (count : Nat)
  deriving Repr, DecidableEq

/-- The cause of a refusal. -/
inductive IndexError (α : Type) where
  | malformed (what : Malformed α)
  | unknownStrategy (number : Nat)
  | unusable (why : Unusable)
  deriving Repr, DecidableEq

def Malformed.text {α : Type} [Scalar α] [ToString α] : Malformed α → String
  | box b => b.text ++ " has min > max or a NaN coordinate"
  | range i => "range " ++ i.text ++ " has low > high or a NaN bound"
  | bound side i => "traversal bound for " ++ side.text ++ " is " ++ i.text
  | radius r => "circle radius " ++ toString r ++ " is negative or NaN"
  | noVertices => "polygon has no coordinates"
  | vertex p => "polygon coordinate " ++ p.text ++ " is not finite"

def Unusable.text : Unusable → String
  | emptyLeaf => "cannot split an empty leaf"
  | noLeafCapacity => "leaf capacity must be at least 1"
  | noTreeDepth => "maximum tree depth must be at least 1"
  | noColumns => "a page split needs at least one key column"
  | tooFewEntries count => "a page split needs at least 2 entries, got " ++ Nat.repr count

/-- The wording of an error. -/
def IndexError.message {α : Type} [Scalar α] [ToString α] : IndexError α → String
  | malformed what => "Malformed geometry: " ++ what.text
  | unknownStrategy number => "Unrecognized strategy: " ++ Nat.repr number
  | unusable why => "Invalid operation: " ++ why.text

variable {α : Type} [Scalar α]

/-- Refuses a box that is not valid. -/
def Box.check (b : Box α) : Except (IndexError α) Unit :=
  if b.isValid then .ok () else .error (.malformed (.box b))

/-- Refuses an interval that is not valid. -/
def Interval.check (i : Interval α) : Except (IndexError α) Unit :=
  if i.isValid then .ok () else .error (.malformed (.range i))

/-- Refuses a range of boxes by the first of its bounds that is not valid. -/
def BoxRange.check (r : BoxRange α) : Except (IndexError α) Unit :=
  match r.sides.find? fun s => !s.2.isValid with
  | none => .ok ()
  | some (side, i) => .error (.malformed (.bound side i))

end QuadIndex
