import QuadIndex.Event
import QuadIndex.Tree.Config

/-!
# Where an object goes below a node

An object belongs on the deepest level whose cells are no smaller than it is. `planDescent` turns
that level into a number of steps down from a node, and takes the steps: each cell is cut at its
center, and the quadrant that holds the center of the object becomes the next cell.

* `naturalLevel`: the level where an object belongs.
* `stepsDown`: the cells on the way down, each with the quadrant taken in it.
* `planDescent`: both together, for boxes that are valid.
-/

namespace QuadIndex

/-- The way of an object down from a node. -/
structure Descent (α : Type) where
  /-- How many levels to add below the node. -/
  levels : Nat
  /-- The quadrant taken at the node, and then at each new level. -/
  path : List Quadrant
  /-- The cells of the new levels. -/
  cells : List (Box α)
  deriving Repr, DecidableEq

namespace Descent

variable {α : Type}

/-- The quadrant at the end of the way. -/
def target (c : Descent α) : Quadrant := c.path.getLast?.getD .northWest

/-- The quadrant taken at the node. -/
def first (c : Descent α) : Quadrant := c.path.head?.getD .northWest

/-- The new levels, each with its cell and the quadrant taken in it. -/
def steps (c : Descent α) : List (Box α × Quadrant) := c.cells.zip (c.path.drop 1)

end Descent

variable {α : Type} [Scalar α]

/-- The level where an object belongs below a cell. It is counted from the ratio of their longer
sides, and a single point belongs on the last level of all. -/
def naturalLevel (cell object : Box α) : Nat :=
  let ratio := cell.longSide / Scalar.half object.longSide
  if cell.longSide ≤ 0 || Scalar.isNaN ratio then 0
  else Scalar.wholePart (maxLevel + 1) (Scalar.log2 ratio) - 1

/-- The first cell and the next `n` cells on the way down, each with the quadrant taken in
it. -/
def stepsDown (object : Box α) : Nat → Box α → List (Box α × Quadrant)
  | 0, cell => [(cell, cell.quadrantOf object)]
  | n + 1, cell =>
    (cell, cell.quadrantOf object) :: stepsDown object n (cell.quarter (cell.quadrantOf object))

/-- The events of a way down. -/
def Descent.events (c : Descent α) (level candidate : Nat) : List Event :=
  .levelPlanned level candidate c.levels ::
    c.path.zipIdx.map fun q => .quadrantTaken q.2 q.1

/-- **The way of an object down** from a node at `level` with the given cell. -/
def planDescent (rules : TreeRules) (cell : Box α) (level : Nat) (object : Box α) :
    Traced (Except (IndexError α) (Descent α)) :=
  match cell.check, object.check with
  | .error e, _ => .silent (.error e)
  | .ok _, .error e => .silent (.error e)
  | .ok _, .ok _ =>
    let candidate := naturalLevel cell object
    let levels := min (candidate - level) rules.maxInsertLevels
    let way := stepsDown object levels cell
    let descent : Descent α := ⟨levels, way.map (·.2), (way.map (·.1)).drop 1⟩
    ⟨.ok descent, descent.events level candidate⟩

end QuadIndex
