import QuadIndex.Tree.Insert
import QuadIndex.Tree.Search

/-!
# Loose quadtrees

A `Quadtree` keeps values under boxes and finds those whose boxes satisfy a query.

* `Quadtree.insert`: the tree with a value added, unless its box is malformed.
* `Quadtree.search`: the values whose boxes satisfy every condition.
-/

namespace QuadIndex

/-- A tree of boxes with values. -/
structure Quadtree (α ν : Type) where
  rules : TreeRules
  root : Node α ν
  /-- How many values were stored since the tree was last empty. -/
  size : Nat

namespace Quadtree

variable {α ν : Type}

/-- The tree without values. -/
def empty (rules : TreeRules) : Quadtree α ν := ⟨rules, .leaf [], 0⟩

/-- The tree after all values are dropped. -/
def clear (t : Quadtree α ν) : Quadtree α ν := empty t.rules

def isEmpty (t : Quadtree α ν) : Bool := t.size == 0

/-- How many levels of nodes there are, from the root to the deepest leaf. -/
def height (t : Quadtree α ν) : Nat := t.root.height

def census (t : Quadtree α ν) : Census := t.root.census

/-- The stored values with their boxes, leaf after leaf. -/
def entries (t : Quadtree α ν) : List (Entry α ν) := t.root.entries

variable [Scalar α]

/-- **The tree with a value added** under a box, which must be valid. -/
def insert (t : Quadtree α ν) (box : Box α) (value : ν) :
    Traced (Except (IndexError α) (Quadtree α ν)) :=
  match box.check with
  | .error e => .silent (.error e)
  | .ok _ =>
    (t.root.insert t.rules ⟨box, value⟩ 0).map
      (·.map fun root => { t with root := root, size := t.size + 1 })

/-- The tree after an insertion, which is the same tree if the insertion fails. -/
def insertOrKeep (t : Quadtree α ν) (box : Box α) (value : ν) : Quadtree α ν :=
  match (t.insert box value).value with
  | .ok t' => t'
  | .error _ => t

/-- **The values whose boxes satisfy every condition**, leaf after leaf. -/
def search (t : Quadtree α ν) (query : List (Condition α)) : Except (IndexError α) (List ν) :=
  (t.root.search query none).map fun es => es.map Entry.value

end Quadtree
end QuadIndex
