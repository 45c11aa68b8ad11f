import QuadIndex.Tree.Descent
import QuadIndex.Tree.LeafCut
import QuadIndex.Tree.Node

/-!
# Insertion

An entry goes down to a leaf. At an inner node it takes the quadrant of its center; if no node
is there yet, the levels that `planDescent` asks for are made at once, as a chain of nodes with one
child each. At a node whose entries were dealt in turn it takes the child with the fewest entries.
A leaf that overflows is split, and so is a group that overflows itself.

* `splitOverfull`: the node that takes the place of an overflowing leaf. Every group that is split
  again is shorter than the leaf, so this ends whatever the depth limit.
* `Node.insert`: the node with an entry added.
-/

namespace QuadIndex

variable {α ν : Type} [Scalar α]

/-- **The node in place of an overflowing leaf.** -/
def splitOverfull (rules : TreeRules) (level : Nat) (entries : List (Entry α ν)) :
    Traced (Except (IndexError α) (Node α ν)) :=
  let found := LeafCut.cutLeaf (entries.map Entry.box)
  match h : found.value with
  | .error e => ⟨.error e, found.events⟩
  | .ok cut =>
    let groups := cut.deal Entry.box entries
    let child (q : Quadrant) : Traced (Except (IndexError α) (Node α ν)) :=
      if hq : rules.leafCapacity < (groups.get q).length ∧ level + 1 < rules.maxTreeDepth then
        have : (groups.get q).length < entries.length :=
          LeafCut.length_deal_lt_of_lt (LeafCut.eq_ofBoxes h) rules.capacity_pos hq.1
        splitOverfull rules (level + 1) (groups.get q)
      else .silent (.ok (if (groups.get q).isEmpty then .absent else .leaf (groups.get q)))
    let node (children : Quadrants (Node α ν)) : Node α ν :=
      .ofChildren cut.square level cut.isLumped children
    ((Traced.sequence (.ofFn child)).map (·.map node)).after found.events
termination_by entries.length

namespace Node

/-- A leaf with an entry added, split if that is one too many. -/
def addToLeaf (rules : TreeRules) (es : List (Entry α ν)) (level : Nat) (e : Entry α ν) :
    Traced (Except (IndexError α) (Node α ν)) :=
  let all := es ++ [e]
  if rules.leafCapacity < all.length && level < rules.maxTreeDepth then
    splitOverfull rules level all
  else .silent (.ok (.leaf all))

/-- Nodes with one child each, one for each step of a way down, and a leaf at the end. -/
def chain (e : Entry α ν) : List (Box α × Quadrant) → Nat → Node α ν
  | [], _ => .leaf [e]
  | (cell, q) :: steps, level => .ofChildren cell level false (only q (chain e steps (level + 1)))

/-- **The node with an entry added**, for a node at `depth`. -/
def insert (rules : TreeRules) (e : Entry α ν) :
    Node α ν → (depth : Nat) → Traced (Except (IndexError α) (Node α ν))
  | .absent, depth => addToLeaf rules [] depth e
  | .leaf es, depth => addToLeaf rules es depth e
  | .inner cell level true children, depth =>
    let q := lightest children
    ((children q).insert rules e (depth + 1)).map
      (·.map fun child => .ofChildren cell level true (update children q child))
  | .inner cell level false children, depth =>
    (planDescent rules cell level e.box).andThen fun descent =>
      let q := descent.first
      let child :=
        if (children q).isAbsent then
          let room := rules.maxTreeDepth - (depth + 1)
          .silent (.ok (chain e (descent.steps.take room) (depth + 1)))
        else (children q).insert rules e (depth + 1)
      child.map (·.map fun child => .ofChildren cell level false (update children q child))

end Node
end QuadIndex
