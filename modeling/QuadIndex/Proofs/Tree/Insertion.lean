import QuadIndex.Proofs.Success
import QuadIndex.Tree.Insert

/-!
# What an insertion does

`Split` and `Inserted` say, case by case, what the split of a leaf and an insertion that succeeds
do to a tree. Every invariant of the tree is an induction on one of the two.

* `splitOverfull_split`: a split that succeeds is a `Split`.
* `Node.insert_inserted`: an insertion that succeeds is an `Inserted`.
* `planDescent_way`, `planDescent_ok`: the way of an object down, for valid boxes.
-/

namespace QuadIndex

variable {α ν : Type}

/-- The leaf of a group, if the group has members. -/
def Node.ofGroup (g : List (Entry α ν)) : Node α ν := if g.isEmpty then .absent else .leaf g

variable [Scalar α]

/-- **The split of a leaf** at a depth. A group that is overfull and above the depth limit is
split again. -/
inductive Split (rules : TreeRules) : (depth : Nat) → List (Entry α ν) → Node α ν → Prop where
  | intro {depth : Nat} {entries : List (Entry α ν)} {children : Quadrant → Node α ν}
      (cut : LeafCut α) (hcut : cut = LeafCut.ofBoxes (entries.map Entry.box))
      (hne : entries ≠ []) (hvalid : ∀ e ∈ entries, e.box.isValid = true)
      (hagain : ∀ q, rules.leafCapacity < ((cut.deal Entry.box entries).get q).length →
        depth + 1 < rules.maxTreeDepth →
        Split rules (depth + 1) ((cut.deal Entry.box entries).get q) (children q))
      (hleaf : ∀ q, ((cut.deal Entry.box entries).get q).length ≤ rules.leafCapacity ∨
        rules.maxTreeDepth ≤ depth + 1 →
        children q = .ofGroup ((cut.deal Entry.box entries).get q)) :
      Split rules depth entries (.inner cut.square depth cut.isLumped children)

/-- **Induction on a split** above the depth limit, over its groups: each becomes a leaf or is split
again. -/
theorem Split.induction_on {rules : TreeRules} {P : Nat → List (Entry α ν) → Node α ν → Prop}
    {depth : Nat} {entries : List (Entry α ν)} {n : Node α ν} (h : Split rules depth entries n)
    (hdepth : depth < rules.maxTreeDepth)
    (hleaf : ∀ (depth : Nat) (g : List (Entry α ν)), depth ≤ rules.maxTreeDepth →
      g.length ≤ rules.leafCapacity ∨ rules.maxTreeDepth ≤ depth → P depth g (.ofGroup g))
    (hsplit : ∀ (depth : Nat) (entries : List (Entry α ν)) (children : Quadrant → Node α ν)
      (cut : LeafCut α), depth < rules.maxTreeDepth →
      cut = LeafCut.ofBoxes (entries.map Entry.box) → entries ≠ [] →
      (∀ e ∈ entries, e.box.isValid = true) →
      (∀ q, P (depth + 1) ((cut.deal Entry.box entries).get q) (children q)) →
      P depth entries (.inner cut.square depth cut.isLumped children)) : P depth entries n := by
  induction h with
  | @intro depth entries children cut hcut hne hvalid hagain hgroup ih =>
    refine hsplit depth entries children cut hdepth hcut hne hvalid fun q => ?_
    by_cases hq : rules.leafCapacity < ((cut.deal Entry.box entries).get q).length ∧
        depth + 1 < rules.maxTreeDepth
    · exact ih q hq.1 hq.2 hq.2
    · rw [hgroup q (by omega)]
      exact hleaf _ _ hdepth (by omega)

/-- **The insertion of an entry** into a node at a depth. -/
inductive Inserted (rules : TreeRules) (e : Entry α ν) :
    (depth : Nat) → Node α ν → Node α ν → Prop where
  | fresh {depth : Nat} : Inserted rules e depth .absent (.leaf [e])
  | added {depth : Nat} {es : List (Entry α ν)}
      (hroom : es.length < rules.leafCapacity ∨ rules.maxTreeDepth ≤ depth) :
      Inserted rules e depth (.leaf es) (.leaf (es ++ [e]))
  | overflowed {depth : Nat} {es : List (Entry α ν)} {n : Node α ν}
      (hfull : rules.leafCapacity ≤ es.length) (hdepth : depth < rules.maxTreeDepth)
      (hsplit : Split rules depth (es ++ [e]) n) : Inserted rules e depth (.leaf es) n
  | dealt {depth level : Nat} {cell : Box α} {children : Quadrant → Node α ν} {child : Node α ν}
      (hchild : Inserted rules e (depth + 1) (children (Node.lightest children)) child) :
      Inserted rules e depth (.inner cell level true children)
        (.ofChildren cell level true (Node.update children (Node.lightest children) child))
  | descended {depth level : Nat} {cell : Box α} {children : Quadrant → Node α ν}
      {child : Node α ν} {descent : Descent α}
      (hplan : (planDescent rules cell level e.box).value = .ok descent)
      (hpresent : (children descent.first).isAbsent = false)
      (hchild : Inserted rules e (depth + 1) (children descent.first) child) :
      Inserted rules e depth (.inner cell level false children)
        (.ofChildren cell level false (Node.update children descent.first child))
  | chained {depth level : Nat} {cell : Box α} {children : Quadrant → Node α ν}
      {descent : Descent α}
      (hplan : (planDescent rules cell level e.box).value = .ok descent)
      (habsent : (children descent.first).isAbsent = true) :
      Inserted rules e depth (.inner cell level false children)
        (.ofChildren cell level false (Node.update children descent.first
          (Node.chain e (descent.steps.take (rules.maxTreeDepth - (depth + 1))) (depth + 1))))

/-- A leaf is split only if it has entries and all of their boxes are valid. -/
theorem LeafCut.cutLeaf_ok {boxes : List (Box α)} {cut : LeafCut α}
    (h : (cutLeaf boxes).value = .ok cut) :
    boxes ≠ [] ∧ (∀ b ∈ boxes, b.isValid = true) ∧ cut = ofBoxes boxes := by
  refine ⟨?_, ?_, eq_ofBoxes h⟩
  · rintro rfl
    simp [cutLeaf] at h
  · unfold cutLeaf at h
    split at h
    · simp at h
    split at h
    · simp at h
    · rename_i hchecks
      intro b hb
      exact Box.check_eq_ok_iff.1 (forM_eq_ok_iff.1 hchecks b hb)

/-- **A split that succeeds is a `Split`.** -/
theorem splitOverfull_split {rules : TreeRules} {level : Nat} {entries : List (Entry α ν)}
    {n : Node α ν} (h : (splitOverfull rules level entries).value = .ok n) :
    Split rules level entries n := by
  induction hlen : entries.length using Nat.strongRecOn generalizing level entries n with
  | ind size ih =>
    rw [splitOverfull] at h
    split at h
    · simp at h
    rename_i cut hcut
    obtain ⟨hne, hvalid, hof⟩ := LeafCut.cutLeaf_ok hcut
    simp only [Traced.value_after, Traced.value_map, map_eq_ok_iff, Traced.sequence_eq_ok_iff,
      Quadrants.get_ofFn] at h
    obtain ⟨children, hchildren, rfl⟩ := h
    refine Split.intro cut hof (by simpa using hne) (by simpa using hvalid) ?_ ?_
    · intro q hfull hdepth
      have hq := hchildren q
      rw [dif_pos ⟨hfull, hdepth⟩] at hq
      -- a group that is split again is shorter than the leaf
      have hlt := LeafCut.length_deal_lt_of_lt hof rules.capacity_pos hfull
      exact ih _ (hlen ▸ hlt) hq rfl
    · intro q hroom
      have hq := hchildren q
      rw [dif_neg (by omega), Traced.value_silent, Except.ok.injEq] at hq
      exact hq.symm

/-- A leaf is split only once if its groups fit into leaves. -/
theorem splitOverfull_of_fits {rules : TreeRules} {level : Nat} {entries : List (Entry α ν)}
    {cut : LeafCut α} (hcut : (LeafCut.cutLeaf (entries.map Entry.box)).value = .ok cut)
    (hfits : ∀ q, ((cut.deal Entry.box entries).get q).length ≤ rules.leafCapacity) :
    (splitOverfull rules level entries).value = .ok (.ofChildren cut.square level cut.isLumped
      (.ofFn fun q => .ofGroup ((cut.deal Entry.box entries).get q))) := by
  rw [splitOverfull]
  split
  · rename_i err herr
    rw [hcut] at herr
    cases herr
  · rename_i found hfound
    rw [hcut] at hfound
    cases hfound
    rw [Traced.value_after, Traced.value_map, map_eq_ok_iff]
    refine ⟨_, Traced.sequence_eq_ok_iff.2 fun q => ?_, rfl⟩
    have hq := hfits q
    rw [Quadrants.get_ofFn, Quadrants.get_ofFn, dif_neg (by omega)]
    rfl

/-- The cell that an object goes down from and the cells of the new levels, each with the quadrant
taken in it. -/
def Descent.way (c : Descent α) (cell : Box α) : List (Box α × Quadrant) :=
  (cell :: c.cells).zip c.path

/-- **The way of an object down can be planned** if both boxes are valid, and takes the steps of
`stepsDown`. -/
theorem planDescent_way (rules : TreeRules) {cell object : Box α} (level : Nat)
    (hcell : cell.isValid = true) (hobject : object.isValid = true) :
    ∃ descent, (planDescent rules cell level object).value = .ok descent ∧
      descent.levels = min (naturalLevel cell object - level) rules.maxInsertLevels ∧
      descent.way cell = stepsDown object descent.levels cell := by
  rw [planDescent, Box.check_eq_ok_iff.2 hcell, Box.check_eq_ok_iff.2 hobject]
  refine ⟨_, rfl, rfl, ?_⟩
  generalize min (naturalLevel cell object - level) rules.maxInsertLevels = levels
  have hfirst : (stepsDown object levels cell).map (·.1) =
      cell :: ((stepsDown object levels cell).map (·.1)).drop 1 := by cases levels <;> rfl
  rw [Descent.way, ← hfirst]
  exact (List.zip_of_prod rfl rfl).symm

/-- **The way of an object down** from a cell starts in the quadrant of its center, and goes on
as `stepsDown` does. Both boxes are valid. -/
theorem planDescent_ok {rules : TreeRules} {cell object : Box α} {level : Nat}
    {descent : Descent α} (h : (planDescent rules cell level object).value = .ok descent) :
    cell.isValid = true ∧ object.isValid = true ∧ descent.first = cell.quadrantOf object ∧
      descent.steps = (stepsDown object descent.levels cell).drop 1 := by
  unfold planDescent at h
  split at h
  · simp at h
  · simp at h
  · rename_i hcell hobject
    simp only [Except.ok.injEq] at h
    subst h
    refine ⟨Box.check_eq_ok_iff.1 hcell, Box.check_eq_ok_iff.1 hobject, ?_, ?_⟩
    · rw [Descent.first]
      generalize min (naturalLevel cell object - level) rules.maxInsertLevels = levels
      cases levels <;> rfl
    · rw [Descent.steps, ← List.map_drop, ← List.map_drop]
      exact (List.zip_of_prod rfl rfl).symm

namespace Node

/-- What is added to a leaf, or to no node yet, is an `Inserted`. -/
theorem addToLeaf_cases {rules : TreeRules} {e : Entry α ν} {es : List (Entry α ν)} {depth : Nat}
    {n : Node α ν} (h : (addToLeaf rules es depth e).value = .ok n) :
    (rules.leafCapacity ≤ es.length ∧ depth < rules.maxTreeDepth ∧
      Split rules depth (es ++ [e]) n) ∨
    ((es.length < rules.leafCapacity ∨ rules.maxTreeDepth ≤ depth) ∧ n = .leaf (es ++ [e])) := by
  unfold addToLeaf at h
  simp only [List.length_append, List.length_singleton, Bool.and_eq_true, decide_eq_true_eq] at h
  split at h
  · rename_i hfull
    exact Or.inl ⟨by omega, hfull.2, splitOverfull_split h⟩
  · rename_i hroom
    rw [Traced.value_silent, Except.ok.injEq] at h
    exact Or.inr ⟨by omega, h.symm⟩

/-- **An insertion that succeeds is an `Inserted`.** -/
theorem insert_inserted {rules : TreeRules} {e : Entry α ν} {n n' : Node α ν} {depth : Nat}
    (h : (n.insert rules e depth).value = .ok n') : Inserted rules e depth n n' := by
  induction n generalizing depth n' with
  | absent =>
    have hpos := rules.capacity_pos
    rcases addToLeaf_cases h with ⟨hfull, -, -⟩ | ⟨-, rfl⟩
    · simp at hfull
      omega
    · exact Inserted.fresh
  | leaf es =>
    rcases addToLeaf_cases h with ⟨hfull, hdepth, hsplit⟩ | ⟨hroom, rfl⟩
    · exact Inserted.overflowed hfull hdepth hsplit
    · exact Inserted.added hroom
  | inner cell level dealt children ih =>
    cases dealt with
    | true =>
      rw [insert, Traced.value_map, map_eq_ok_iff] at h
      obtain ⟨child, hchild, rfl⟩ := h
      exact Inserted.dealt (ih _ hchild)
    | false =>
      rw [insert, Traced.value_andThen, bind_eq_ok_iff] at h
      obtain ⟨descent, hplan, h⟩ := h
      rw [Traced.value_map, map_eq_ok_iff] at h
      obtain ⟨child, hchild, rfl⟩ := h
      split at hchild
      · rename_i habsent
        rw [Traced.value_silent, Except.ok.injEq] at hchild
        subst hchild
        exact Inserted.chained hplan habsent
      · rename_i hpresent
        exact Inserted.descended hplan (by simpa using hpresent) (ih _ hchild)

end Node
end QuadIndex
