import QuadIndex.Query.Strategy
import QuadIndex.Plane.Shape

/-!
# Conditions

A query is a list of conditions, all of which a stored box has to satisfy.
-/

namespace QuadIndex

/-- A strategy and the shape that stored boxes are compared with. -/
structure Condition (α : Type) where
  strategy : Strategy
  argument : Shape α
  deriving Repr, DecidableEq

namespace Condition

variable {α : Type} [Scalar α]

/-- The condition of a strategy number. -/
def ofNumber (n : Nat) (argument : Shape α) : Except (IndexError α) (Condition α) :=
  (Strategy.ofNumber n).map (⟨·, argument⟩)

/-- The bounding box of the argument, which has to be valid. -/
def argumentBox (c : Condition α) : Except (IndexError α) (Box α) := do
  let b ← c.argument.boundingBox
  b.check
  return b

/-- A match on the bounding box has to be checked again on the argument itself. -/
def isLossy (c : Condition α) : Bool := !c.argument.isExact

def text [ToString α] (c : Condition α) : String := c.strategy.sign ++ " " ++ c.argument.text

end Condition
end QuadIndex
