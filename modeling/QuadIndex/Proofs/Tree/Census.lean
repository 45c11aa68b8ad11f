import QuadIndex.Proofs.Tree.InPlace

/-!
# Counts of a tree

A tree counts its values apart from its nodes, while a split, a chain of levels and a deal in turn
move entries from leaf to leaf. The counts agree all the same after any run of calls, as no step
drops, copies or forgets an entry, not even one that fails in place.

* `Node.IsSound.leafNodes_le_size`: no leaf of a tree with entries is empty.
* `History.accounts`: counts, leaves and accepted entries of a tree agree after any run.
-/

namespace QuadIndex

variable {α ν : Type}

/-! ## Leaves -/

/-- The size of an inner node is that of its children together. -/
theorem Node.size_inner (cell : Box α) (level : Nat) (dealt : Bool)
    (children : Quadrant → Node α ν) : (inner cell level dealt children).size =
      (children .northWest).size + (children .northEast).size + (children .southWest).size +
        (children .southEast).size := rfl

theorem Node.leafNodes_inner (cell : Box α) (level : Nat) (dealt : Bool)
    (children : Quadrant → Node α ν) : (inner cell level dealt children).leafNodes =
      (children .northWest).leafNodes + (children .northEast).leafNodes +
        (children .southWest).leafNodes + (children .southEast).leafNodes := rfl

variable [Scalar α]

/-- **A sound node has an entry for every leaf.** -/
theorem Node.IsSound.leafNodes_le_size {rules : TreeRules} {depth : Nat} {n : Node α ν}
    (h : IsSound rules depth n) : n.leafNodes ≤ n.size := by
  induction h with
  | absent => exact Nat.le_refl 0
  | leaf hne hdepth hsize =>
    change 1 ≤ List.length _
    exact List.length_pos_iff.2 hne
  | inner hdepth hchild hrouted hbelow ih =>
    rw [leafNodes_inner, size_inner]
    have hnw := ih .northWest
    have hne := ih .northEast
    have hsw := ih .southWest
    have hse := ih .southEast
    omega

/-! ## Trees -/

/-- **A tree accounts for the entries that it accepted** since it was last cleared. -/
structure History.Accounts (h : History α ν) : Prop where
  size : h.tree.size = h.accepted.length
  counted : h.tree.census.entries = h.accepted.length
  isEmpty : h.tree.isEmpty = true ↔ h.accepted.length = 0
  height : h.tree.census.height = h.tree.height
  /-- The leaves hold the accepted entries, and nothing else. -/
  held : h.tree.entries.Perm h.accepted
  leafNodes : h.tree.census.leafNodes ≤ max 1 h.tree.census.entries
  /-- One more insertion, made in place, leaves the tree that it is to lead to, and the tree as it
  was if it is refused. -/
  inPlace : ∀ (box : Box α) (value : ν),
    h.tree.insertInPlace box value = .orLeave (h.tree.insert box value).value h.tree

/-- **After any run of insertions and clearings the accounts of a tree are right**, whether the
insertions were accepted or refused. -/
theorem History.accounts (rules : TreeRules) (calls : List (Call α ν)) :
    (run rules calls).Accounts := by
  have hsize := size_eq_length rules calls
  have hperm := entries_perm rules calls
  have hcounted : (run rules calls).tree.census.entries = (run rules calls).accepted.length := by
    rw [← hperm.length_eq]
    exact (Node.length_entries _).symm
  constructor
  case size => exact hsize
  case counted => exact hcounted
  case isEmpty => rw [Quadtree.isEmpty, beq_iff_eq, hsize]
  case height => rfl
  case held => exact hperm
  case leafNodes =>
    rcases root_isSound rules calls with hempty | hsound
    · -- the root of a new tree is its only leaf
      rw [hempty]
      exact Nat.le_max_left 1 _
    · exact Nat.le_trans hsound.leafNodes_le_size (Nat.le_max_right 1 _)
  case inPlace =>
    exact Quadtree.insertInPlace_eq (entries_isValid rules calls)

end QuadIndex
