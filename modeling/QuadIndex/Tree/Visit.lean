import QuadIndex.Query.Satisfaction

/-!
# What a search visits

A search goes down from the root with the range of the boxes that can lie below each node. It
enters the children whose ranges may hold a match for every condition of the query, and tests the
boxes of the leaves it comes to.

* `childrenToVisit`: the children of an inner node to enter, with their ranges.
* `testBox`: whether a stored box matches, and whether the match is only one on the bounding
  boxes of the arguments.
-/

namespace QuadIndex

variable {α : Type} [Scalar α]

/-- The answer of a stored box to a query. -/
structure Verdict where
  isMatch : Bool
  /-- The box has to be tested against the arguments themselves. -/
  needsRecheck : Bool
  deriving DecidableEq, Repr

/-- The strategies of a query, with the bounding boxes of their arguments. -/
def argumentBoxes (query : List (Condition α)) : Except (IndexError α) (List (Strategy × Box α)) :=
  query.mapM fun c => c.argumentBox.map fun b => (c.strategy, b)

/-- Some box in the range may satisfy all of some strategies. -/
def mayHoldAll (arguments : List (Strategy × Box α)) (r : BoxRange α) : Bool :=
  arguments.all fun a => a.1.mayHold r a.2

/-- **The children of an inner node that may hold a match**, each with the range of the boxes
below it. The range of the node itself is unknown at the root. The children of a node whose
entries were dealt in turn say nothing of their boxes, so none of them can be left out. -/
def childrenToVisit (range : Option (BoxRange α)) (cell : Box α) (dealt : Bool)
    (query : List (Condition α)) : Except (IndexError α) (List (Quadrant × BoxRange α)) := do
  cell.check
  let arguments ← argumentBoxes query
  let parent := range.getD .full
  parent.check
  if dealt then return Quadrant.all.map fun q => (q, parent)
  else
    let child q := parent.narrow cell.center q
    return (Quadrant.all.map fun q => (q, child q)).filter fun c => mayHoldAll arguments c.2

/-- **The answer of a stored box** to a query. -/
def testBox (stored : Box α) (query : List (Condition α)) : Except (IndexError α) Verdict := do
  let arguments ← argumentBoxes query
  return ⟨arguments.all fun a => a.1.holds stored a.2, query.any Condition.isLossy⟩

end QuadIndex
