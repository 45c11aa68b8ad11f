import QuadIndex.Plane.Box

/-!
# Nodes

A tree has leaves, which hold entries, and inner nodes with a child in each quadrant. A child
that has not been made yet is `absent`. The children stand as a function of the quadrant.

* `Node.entries`: what a node holds.
* `Node.size`, `Node.height`, `Node.census`: its measures.
-/

namespace QuadIndex

/-- A stored box and what is stored under it. -/
structure Entry (α ν : Type) where
  box : Box α
  value : ν
  deriving Repr, DecidableEq

/-- A node of a tree. -/
inductive Node (α ν : Type) where
  /-- No node yet. -/
  | absent
  | leaf (entries : List (Entry α ν))
  /-- A node on a level, with the cell that its children are cut from. If `dealt`, then its
  entries were dealt to the children in turn. -/
  | inner (cell : Box α) (level : Nat) (dealt : Bool) (children : Quadrant → Node α ν)

/-- The shape of a tree. -/
structure Census where
  entries : Nat
  innerNodes : Nat
  leafNodes : Nat
  dealtNodes : Nat
  height : Nat
  deriving DecidableEq, Repr

namespace Node

variable {α ν : Type}

/-- The entries of a node, in the order of the quadrants. -/
def entries : Node α ν → List (Entry α ν)
  | absent => []
  | leaf es => es
  | inner _ _ _ children => Quadrant.all.flatMap fun q => (children q).entries

/-- How many entries a node has. -/
def size : Node α ν → Nat
  | absent => 0
  | leaf es => es.length
  | inner _ _ _ children => (Quadrants.ofFn fun q => (children q).size).total

/-- How many levels of nodes there are, down to the deepest leaf. -/
def height : Node α ν → Nat
  | absent => 0
  | leaf _ => 1
  | inner _ _ _ children => 1 + (Quadrant.all.map fun q => (children q).height).foldl max 0

/-- How many inner nodes there are. -/
def innerNodes : Node α ν → Nat
  | absent => 0
  | leaf _ => 0
  | inner _ _ _ children => 1 + (Quadrants.ofFn fun q => (children q).innerNodes).total

/-- How many leaves there are. -/
def leafNodes : Node α ν → Nat
  | absent => 0
  | leaf _ => 1
  | inner _ _ _ children => (Quadrants.ofFn fun q => (children q).leafNodes).total

/-- How many inner nodes dealt their entries in turn. -/
def dealtNodes : Node α ν → Nat
  | absent => 0
  | leaf _ => 0
  | inner _ _ dealt children =>
    dealt.toNat + (Quadrants.ofFn fun q => (children q).dealtNodes).total

/-- The shape of the tree below a node. -/
def census (n : Node α ν) : Census := ⟨n.size, n.innerNodes, n.leafNodes, n.dealtNodes, n.height⟩

def isAbsent : Node α ν → Bool
  | absent => true
  | _ => false

/-- An inner node with the given children, each of which is made before the node is. -/
def ofChildren (cell : Box α) (level : Nat) (dealt : Bool) (children : Quadrants (Node α ν)) :
    Node α ν := inner cell level dealt children.get

/-- The children with that of one quadrant replaced. -/
def update (children : Quadrant → Node α ν) (q : Quadrant) (n : Node α ν) :
    Quadrants (Node α ν) :=
  .ofFn fun p => if p = q then n else children p

/-- A single child. -/
def only (q : Quadrant) (n : Node α ν) : Quadrants (Node α ν) := update (fun _ => absent) q n

/-- The first quadrant whose child has the fewest entries. -/
def lightest (children : Quadrant → Node α ν) : Quadrant :=
  let load := Quadrants.ofFn fun q => (children q).size
  let lighter (p q : Quadrant) : Quadrant := if load.get q < load.get p then q else p
  Quadrant.all.foldl lighter .northWest

theorem update_apply (children : Quadrant → Node α ν) (p q : Quadrant) (n : Node α ν) :
    (update children q n).get p = if p = q then n else children p := by simp [update]

theorem length_entries (n : Node α ν) : n.entries.length = n.size := by
  induction n with
  | absent => rfl
  | leaf es => rfl
  | inner _ _ _ children ih =>
    simp [entries, size, Quadrants.total, Quadrants.ofFn, Quadrant.all, ih, Nat.add_assoc]

end Node
end QuadIndex
