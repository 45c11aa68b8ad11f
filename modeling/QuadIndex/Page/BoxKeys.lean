import QuadIndex.Grouping
import QuadIndex.Page.KeyOps

/-!
# Boxes as keys

The summary of some boxes is their hull, and a box costs the area that the summary has to gain.
The boxes are split at the median of their centers on either axis, as a leaf of a tree is.
-/

namespace QuadIndex

variable {α : Type} [Scalar α]

/-- The boxes, numbered from one, by the quadrants of the median center. -/
def boxGroups (boxes : List (Box α)) : Quadrants (List Nat) :=
  let xs := Scalar.sorted (boxes.map fun b => b.center.x)
  let ys := Scalar.sorted (boxes.map fun b => b.center.y)
  match xs[boxes.length / 2]?, ys[boxes.length / 2]? with
  | some x, some y =>
    (Quadrants.positionsBy (fun b => Quadrant.around ⟨x, y⟩ b.center) boxes).map fun g =>
      g.map (· + 1)
  | _, _ => .const []

/-- The cost of a box under a summary: the area gained, if that is positive. -/
def boxCost (summary b : Box α) : α := Scalar.greater (summary.growth b) 0

/-- **The operations on boxes** as keys. -/
def boxKeys (columns : Nat) : KeyOps α (Box α) where
  columns := columns
  hull _ := Box.hull?
  cost _ := boxCost
  propose _ _ boxes _ :=
    let groups := boxGroups boxes
    ⟨groups, groups.map fun g => Box.hull? (keysAt boxes g), false⟩
  same _ a b := a == b
  check _ b := b.check

end QuadIndex
