import QuadIndex.Proofs.Grouping
import QuadIndex.Proofs.Tree.Insertion

/-!
# What a tree holds

A split keeps the entries of a leaf and an insertion adds one entry, both up to order.

* `Split.entries_perm`, `Inserted.entries_perm`: the entries after a step.
* `LeafCut.deal_perm`: a cut deals out every entry of a leaf once.
-/

namespace QuadIndex

variable {α ν : Type}

namespace Node

theorem entries_ofGroup (g : List (Entry α ν)) : (ofGroup g).entries = g := by
  unfold ofGroup
  split
  · rename_i h
    rw [List.isEmpty_iff.1 h]
    rfl
  · rfl

theorem entries_ofChildren (cell : Box α) (level : Nat) (dealt : Bool)
    (children : Quadrants (Node α ν)) : (ofChildren cell level dealt children).entries =
      Quadrant.all.flatMap fun q => (children.get q).entries := rfl

theorem mem_entries_inner {cell : Box α} {level : Nat} {dealt : Bool}
    {children : Quadrant → Node α ν} {e : Entry α ν} :
    e ∈ (inner cell level dealt children).entries ↔ ∃ q, e ∈ (children q).entries := by
  simp [entries]

theorem update_self (children : Quadrant → Node α ν) (q : Quadrant) (n : Node α ν) :
    (update children q n).get q = n := by rw [update_apply, if_pos rfl]

theorem update_of_ne {children : Quadrant → Node α ν} {p q : Quadrant} {n : Node α ν}
    (h : p ≠ q) : (update children q n).get p = children p := by rw [update_apply, if_neg h]

/-- A child replaced by itself. -/
theorem ofChildren_update_self (cell : Box α) (level : Nat) (dealt : Bool)
    (children : Quadrant → Node α ν) (q : Quadrant) :
    ofChildren cell level dealt (update children q (children q)) =
      inner cell level dealt children := by
  have hget : (update children q (children q)).get = children := by
    funext p
    by_cases hp : p = q
    · subst hp
      exact update_self children p _
    · exact update_of_ne hp
  rw [ofChildren, hget]

/-- A child that gains an entry gives it to its parent. -/
theorem entries_update_perm {cell : Box α} {level : Nat} {dealt : Bool}
    {children : Quadrant → Node α ν} {q : Quadrant} {n : Node α ν} {e : Entry α ν}
    (h : n.entries.Perm (e :: (children q).entries)) :
    (ofChildren cell level dealt (update children q n)).entries.Perm
      (e :: (inner cell level dealt children).entries) := by
  rw [entries_ofChildren]
  refine Quadrant.flatMap_all_cons (q := q) ?_ ?_
  · rw [update_self]
    exact h
  · intro p hp
    rw [update_of_ne hp]

theorem entries_only (cell : Box α) (level : Nat) (dealt : Bool) (q : Quadrant) (n : Node α ν) :
    (ofChildren cell level dealt (only q n)).entries = n.entries := by
  cases q <;> simp [entries_ofChildren, only, update, Quadrant.all, entries]

/-- A chain holds the entry that it was made for. -/
theorem entries_chain (e : Entry α ν) (steps : List (Box α × Quadrant)) (level : Nat) :
    (chain e steps level).entries = [e] := by
  induction steps generalizing level with
  | nil => rfl
  | cons s steps ih =>
    obtain ⟨cell, q⟩ := s
    rw [chain, entries_only, ih]

theorem isAbsent_chain (e : Entry α ν) (steps : List (Box α × Quadrant)) (level : Nat) :
    (chain e steps level).isAbsent = false := by
  cases steps <;> rfl

theorem entries_of_isAbsent {n : Node α ν} (h : n.isAbsent = true) : n.entries = [] := by
  cases n with
  | absent => rfl
  | leaf es => simp [isAbsent] at h
  | inner cell level dealt children => simp [isAbsent] at h

end Node

variable [Scalar α] {rules : TreeRules}

/-- **A cut deals out every entry once.** -/
theorem LeafCut.deal_perm {β : Type} (cut : LeafCut α) (box : β → Box α) (entries : List β) :
    (cut.deal box entries).members.Perm entries := by
  unfold deal
  split
  · exact Quadrants.dealInTurn_perm entries
  · exact Quadrants.groupBy_perm _ entries

/-- If the children hold the groups of a cut, then the node holds the entries that were cut. -/
theorem Node.entries_perm_of_deal {cell : Box α} {level : Nat} {dealt : Bool}
    {children : Quadrant → Node α ν} {cut : LeafCut α} {entries : List (Entry α ν)}
    (h : ∀ q, (children q).entries.Perm ((cut.deal Entry.box entries).get q)) :
    (inner cell level dealt children).entries.Perm entries :=
  (List.Perm.flatMap_left _ fun q _ => h q).trans (cut.deal_perm Entry.box entries)

/-- **A split keeps the entries.** -/
theorem Split.entries_perm {depth : Nat} {entries : List (Entry α ν)} {n : Node α ν}
    (h : Split rules depth entries n) (hdepth : depth < rules.maxTreeDepth) :
    n.entries.Perm entries := by
  refine h.induction_on hdepth (P := fun _ entries n => n.entries.Perm entries) ?_ ?_
  · intro depth g _ _
    rw [Node.entries_ofGroup]
  · intro depth entries children cut _ _ _ _ hgroups
    exact Node.entries_perm_of_deal hgroups

/-- **An insertion adds its entry** and keeps the others. -/
theorem Inserted.entries_perm {e : Entry α ν} {depth : Nat} {n n' : Node α ν}
    (h : Inserted rules e depth n n') : n'.entries.Perm (e :: n.entries) := by
  induction h with
  | fresh => exact List.Perm.refl _
  | added hroom => exact List.perm_append_singleton _ _
  | overflowed hfull hdepth hsplit =>
    exact (hsplit.entries_perm hdepth).trans (List.perm_append_singleton _ _)
  | dealt hchild ih => exact Node.entries_update_perm ih
  | descended hplan hpresent hchild ih => exact Node.entries_update_perm ih
  | chained hplan habsent =>
    refine Node.entries_update_perm ?_
    rw [Node.entries_chain, Node.entries_of_isAbsent habsent]

end QuadIndex
