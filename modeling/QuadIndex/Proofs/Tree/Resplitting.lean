import Mathlib.Logic.Function.Iterate
import Mathlib.Logic.Relation
import QuadIndex.Proofs.Tree.InPlace

/-!
# Splits within splits

The split of a leaf cuts it once, and splits again what is overfull after that. It does not need the
depth limit to come to an end: boxes that are cut into more than one quadrant leave less in each,
and boxes that are not are dealt in turn, which leaves less in each as well, if there are two of
them. So a leaf of `n` entries is cut at most `n - 1` levels deep.

* `splitRound`: one round of a split, which leaves the splits within it to another splitter.
* `SplitsAgain`: which groups a round leaves to it.
* `iterate_splitRound`: after enough rounds, nothing is left to be split.
* `Split.height_le`: how high the tree can be that takes the place of a leaf.
* `splitOverfull_ends`: the split of a leaf with valid boxes comes to an end, and loses nothing.
-/

namespace QuadIndex

variable {α ν : Type}

/-- A way to split a leaf at a depth. -/
abbrev Splitter (α ν : Type) : Type :=
  (depth : Nat) → List (Entry α ν) → Traced (Except (IndexError α) (Node α ν))

variable [Scalar α]

/-! ## Rounds -/

/-- **One round of a split**: the leaf is cut, and the groups that are overfull and above the depth
limit are split by `again`. -/
def splitRound (rules : TreeRules) (again : Splitter α ν) : Splitter α ν := fun depth entries =>
  let found := LeafCut.cutLeaf (entries.map Entry.box)
  match found.value with
  | .error e => ⟨.error e, found.events⟩
  | .ok cut =>
    let groups := cut.deal Entry.box entries
    let child (q : Quadrant) : Traced (Except (IndexError α) (Node α ν)) :=
      if rules.leafCapacity < (groups.get q).length ∧ depth + 1 < rules.maxTreeDepth then
        again (depth + 1) (groups.get q)
      else .silent (.ok (.ofGroup (groups.get q)))
    ((Traced.sequence (.ofFn child)).map
      (·.map fun children => .ofChildren cut.square depth cut.isLumped children)).after found.events

/-- **A leaf has a group that is split again**: both by their depth and their entries. -/
inductive SplitsAgain (rules : TreeRules) : (leaf group : Nat × List (Entry α ν)) → Prop where
  | intro {depth : Nat} {entries : List (Entry α ν)} {cut : LeafCut α} (q : Quadrant)
      (hcut : (LeafCut.cutLeaf (entries.map Entry.box)).value = .ok cut)
      (hfull : rules.leafCapacity < ((cut.deal Entry.box entries).get q).length)
      (hdepth : depth + 1 < rules.maxTreeDepth) :
      SplitsAgain rules (depth, entries) (depth + 1, (cut.deal Entry.box entries).get q)

variable {rules : TreeRules} {leaf group : Nat × List (Entry α ν)}

/-- **A group that is split again has fewer entries** than the leaf. -/
theorem SplitsAgain.length_lt (h : SplitsAgain rules leaf group) :
    group.2.length < leaf.2.length := by
  cases h with
  | intro q hcut hfull hdepth =>
    exact LeafCut.length_deal_lt_of_lt (LeafCut.eq_ofBoxes hcut) rules.capacity_pos hfull

/-- A group that is split again has two entries at least. -/
theorem SplitsAgain.one_lt_length (h : SplitsAgain rules leaf group) : 1 < group.2.length := by
  cases h with
  | intro q hcut hfull hdepth => exact Nat.lt_of_le_of_lt rules.capacity_pos hfull

/-- **A split is a round** that leaves the splits within it to the split itself. -/
theorem splitOverfull_eq_splitRound (rules : TreeRules) (depth : Nat)
    (entries : List (Entry α ν)) : splitOverfull rules depth entries =
      splitRound rules (splitOverfull rules) depth entries := by
  rw [splitOverfull, splitRound]
  split
  · rename_i e he
    simp only [he]
  · rename_i cut hcut
    simp only [hcut]
    rfl

/-- **A round asks for no other splits** than those of the groups that are split again. -/
theorem splitRound_congr {again again' : Splitter α ν} {depth : Nat} {entries : List (Entry α ν)}
    (h : ∀ group, SplitsAgain rules (depth, entries) group →
      again group.1 group.2 = again' group.1 group.2) :
    splitRound rules again depth entries = splitRound rules again' depth entries := by
  unfold splitRound
  dsimp only
  split
  · rfl
  · rename_i cut hcut
    have hchild : ∀ q : Quadrant,
        (if rules.leafCapacity < ((cut.deal Entry.box entries).get q).length ∧
            depth + 1 < rules.maxTreeDepth then
          again (depth + 1) ((cut.deal Entry.box entries).get q)
        else .silent (.ok (.ofGroup ((cut.deal Entry.box entries).get q)))) =
        (if rules.leafCapacity < ((cut.deal Entry.box entries).get q).length ∧
            depth + 1 < rules.maxTreeDepth then
          again' (depth + 1) ((cut.deal Entry.box entries).get q)
        else .silent (.ok (.ofGroup ((cut.deal Entry.box entries).get q)))) := by
      intro q
      split
      · rename_i hq
        exact h _ (SplitsAgain.intro q hcut hq.1 hq.2)
      · rfl
    simp only [hchild]

/-- **After as many rounds as a leaf has entries but for one, nothing is left to be split**, and it
does not matter what would be done with it. -/
theorem iterate_splitRound (again : Splitter α ν) (rounds : Nat) {depth : Nat}
    {entries : List (Entry α ν)} (h : entries.length ≤ rounds + 2) :
    (splitRound rules)^[rounds + 1] again depth entries = splitOverfull rules depth entries := by
  induction rounds generalizing depth entries with
  | zero =>
    rw [splitOverfull_eq_splitRound]
    refine splitRound_congr fun group hgroup => ?_
    -- the group would have to have two entries, and less than that
    have hlt := hgroup.length_lt
    have htwo := hgroup.one_lt_length
    dsimp only at hlt
    omega
  | succ rounds ih =>
    rw [Function.iterate_succ_apply', splitOverfull_eq_splitRound]
    refine splitRound_congr fun group hgroup => ih ?_
    have hlt := hgroup.length_lt
    dsimp only at hlt
    omega

/-! ## Trees -/

omit [Scalar α] in
theorem Node.height_ofGroup_le (g : List (Entry α ν)) : (Node.ofGroup g).height ≤ 1 := by
  unfold Node.ofGroup
  split
  · exact Nat.zero_le 1
  · exact Nat.le_refl 1

/-- **The tree in place of a leaf is no higher than the leaf has entries.** -/
theorem Split.height_le {depth : Nat} {entries : List (Entry α ν)} {n : Node α ν}
    (h : Split rules depth entries n) : 1 < entries.length → n.height ≤ entries.length := by
  induction h with
  | @intro depth entries children cut hcut hne hvalid hagain hleaf ih =>
    intro htwo
    have hchild : ∀ q, (children q).height + 1 ≤ entries.length := by
      intro q
      by_cases hq : rules.leafCapacity < ((cut.deal Entry.box entries).get q).length ∧
          depth + 1 < rules.maxTreeDepth
      · have hpos := rules.capacity_pos
        have hheight := ih q hq.1 hq.2 (by omega)
        have hlt := LeafCut.length_deal_lt hcut htwo q
        omega
      · rw [hleaf q (by omega)]
        have hone := Node.height_ofGroup_le ((cut.deal Entry.box entries).get q)
        omega
    have h1 := hchild .northWest
    have h2 := hchild .northEast
    have h3 := hchild .southWest
    have h4 := hchild .southEast
    simp only [Node.height, Quadrant.all, List.map_cons, List.map_nil, List.foldl_cons,
      List.foldl_nil]
    omega

/-- **The split of a leaf comes to an end.** -/
structure SplitEnds (rules : TreeRules) (depth : Nat) (entries : List (Entry α ν)) : Prop where
  /-- It is over after fewer rounds than there are entries, whatever would be done after these. -/
  rounds : ∀ again : Splitter α ν,
    (splitRound rules)^[entries.length - 1] again depth entries = splitOverfull rules depth entries
  /-- Every split within it is a round too, which asks for the splits of some groups only. -/
  asks : ∀ leaf, Relation.ReflTransGen (SplitsAgain rules) (depth, entries) leaf →
    ∀ again : Splitter α ν, (∀ group, SplitsAgain rules leaf group →
      again group.1 group.2 = splitOverfull rules group.1 group.2) →
    splitRound rules again leaf.1 leaf.2 = splitOverfull rules leaf.1 leaf.2
  /-- Every split within it is one of fewer entries than the split that asks for it. -/
  shrinks : ∀ leaf group, Relation.ReflTransGen (SplitsAgain rules) (depth, entries) leaf →
    SplitsAgain rules leaf group → group.2.length < leaf.2.length
  /-- It leaves a tree that is no higher than there are entries, and holds these. -/
  tree : ∃ n, (splitOverfull rules depth entries).value = .ok n ∧ n.height ≤ entries.length ∧
    n.entries.Perm entries

/-- **The split of a leaf comes to an end**, whatever the depth limit is, if the leaf has at least
two entries and all boxes are valid. -/
theorem splitOverfull_ends (rules : TreeRules) {depth : Nat} {entries : List (Entry α ν)}
    (hdepth : depth < rules.maxTreeDepth) (htwo : 2 ≤ entries.length)
    (hvalid : ∀ e ∈ entries, e.box.isValid = true) : SplitEnds rules depth entries := by
  constructor
  case rounds =>
    intro again
    obtain ⟨rounds, hrounds⟩ := Nat.exists_eq_add_of_le' htwo
    have hpred : entries.length - 1 = rounds + 1 := by omega
    rw [hpred]
    exact iterate_splitRound again rounds hrounds.le
  case asks =>
    intro leaf _ again hagain
    rw [splitOverfull_eq_splitRound]
    exact splitRound_congr hagain
  case shrinks => exact fun leaf group _ hagain => hagain.length_lt
  case tree =>
    have hne : entries ≠ [] := List.ne_nil_of_length_pos (by omega)
    obtain ⟨n, hn⟩ := splitOverfull_ok hne hvalid
    have hsplit := splitOverfull_split hn
    exact ⟨n, hn, hsplit.height_le htwo, hsplit.entries_perm hdepth⟩

/-- Rules by which leaves hold a single entry, as deep down as levels go. -/
def deepRules : TreeRules := ⟨⟨1, 32, maxLevel⟩, by decide, by decide⟩

theorem splitOverfull_ends_equalBoxes : (0 : Nat) < deepRules.maxTreeDepth ∧
    2 ≤ [Entry.mk unitBox 0, Entry.mk unitBox 1].length ∧
    (∀ e ∈ [Entry.mk unitBox 0, Entry.mk unitBox 1], e.box.isValid = true) ∧
    SplitEnds deepRules 0 [Entry.mk unitBox 0, Entry.mk unitBox 1] := by
  have hvalid : ∀ e ∈ [Entry.mk unitBox 0, Entry.mk unitBox 1], e.box.isValid = true := by decide
  exact ⟨by decide, by decide, hvalid, splitOverfull_ends deepRules (by decide) (by decide) hvalid⟩

end QuadIndex
