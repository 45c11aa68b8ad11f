import QuadIndex.Error

/-!
# Configuration of a tree

A `TreeConfig` is any three numbers; `TreeRules` are a configuration that can drive a tree.
-/

namespace QuadIndex

/-- The greatest level that a descent can ask for. -/
def maxLevel : Nat := 4294967295

/-- The numbers that a tree is run with. -/
structure TreeConfig where
  /-- How many entries a leaf holds before it is split. -/
  leafCapacity : Nat := 64
  /-- How many levels one insertion may add. -/
  maxInsertLevels : Nat := 32
  /-- The depth from which on leaves are not split. -/
  maxTreeDepth : Nat := 64
  deriving DecidableEq, Repr

/-- A configuration in which a leaf holds an entry and a split has room below it. -/
structure TreeRules extends TreeConfig where
  capacity_pos : 0 < leafCapacity
  depth_pos : 0 < maxTreeDepth
  deriving DecidableEq, Repr

/-- The rules of a configuration, unless it cannot drive a tree. -/
def TreeConfig.rules {α : Type} (c : TreeConfig) : Except (IndexError α) TreeRules :=
  if hc : 0 < c.leafCapacity then
    if hd : 0 < c.maxTreeDepth then .ok ⟨c, hc, hd⟩
    else .error (.unusable .noTreeDepth)
  else .error (.unusable .noLeafCapacity)

/-- Refuses a configuration that cannot drive a tree. -/
def TreeConfig.check {α : Type} (c : TreeConfig) : Except (IndexError α) Unit :=
  c.rules.map fun _ => ()

end QuadIndex
