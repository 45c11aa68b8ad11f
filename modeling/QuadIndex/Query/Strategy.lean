import QuadIndex.Error

/-!
# Strategies

A strategy is a relation between a stored box and the argument of a query. Strategies have the
numbers from one to twelve.
-/

namespace QuadIndex

/-- How a stored box has to lie to the argument of a query. -/
inductive Strategy where
  /-- Strictly left of it. -/
  | left
  /-- Nowhere right of it. -/
  | overLeft
  /-- Shares a point with it. -/
  | overlap
  /-- Nowhere left of it. -/
  | overRight
  /-- Strictly right of it. -/
  | right
  /-- Equal to it. -/
  | same
  /-- Covers it. -/
  | contains
  /-- Covered by it. -/
  | containedBy
  /-- Nowhere above it. -/
  | overBelow
  /-- Strictly below it. -/
  | below
  /-- Strictly above it. -/
  | above
  /-- Nowhere below it. -/
  | overAbove
  deriving Repr, DecidableEq

namespace Strategy

/-- The strategies in the order of their numbers. -/
def all : List Strategy :=
  [left, overLeft, overlap, overRight, right, same, contains, containedBy, overBelow, below,
    above, overAbove]

def number : Strategy → Nat
  | left => 1
  | overLeft => 2
  | overlap => 3
  | overRight => 4
  | right => 5
  | same => 6
  | contains => 7
  | containedBy => 8
  | overBelow => 9
  | below => 10
  | above => 11
  | overAbove => 12

def name : Strategy → String
  | left => "Left"
  | overLeft => "OverLeft"
  | overlap => "Overlap"
  | overRight => "OverRight"
  | right => "Right"
  | same => "Same"
  | contains => "Contains"
  | containedBy => "ContainedBy"
  | overBelow => "OverBelow"
  | below => "Below"
  | above => "Above"
  | overAbove => "OverAbove"

/-- The operator sign of a strategy. -/
def sign : Strategy → String
  | left => "<<"
  | overLeft => "&<"
  | overlap => "&&"
  | overRight => "&>"
  | right => ">>"
  | same => "~="
  | contains => "@>"
  | containedBy => "<@"
  | overBelow => "&<|"
  | below => "<<|"
  | above => "|>>"
  | overAbove => "|&>"

/-- The strategies that compare one side of a box with one side of the argument. Those see of a
shape no more than its bounding box. -/
def isDirectional : Strategy → Bool
  | overlap | same | contains | containedBy => false
  | _ => true

/-- The strategy of a number. -/
def ofNumber {α : Type} (n : Nat) : Except (IndexError α) Strategy :=
  match all.find? fun s => s.number == n with
  | some s => .ok s
  | none => .error (.unknownStrategy n)

end Strategy
end QuadIndex
