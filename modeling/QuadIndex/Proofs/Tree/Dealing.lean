import QuadIndex.Proofs.Tree.Census

/-!
# Nodes that were dealt in turn

If all boxes of a leaf fall into one quadrant, then its entries are dealt to the quadrants in turn.
An entry that comes later goes to the child with the fewest entries, the first of these. Both say
the same of how many entries each child has: as many as if all of them, also those that came later,
had been dealt in turn. Children that are split themselves keep that, since a split moves entries
only below the child.

* `Quadrants.length_dealInTurn`: what each quadrant gets of a deal in turn.
* `Node.LoadedInTurn.update`: the next entry goes to the child whose turn it is.
* `Split.isEvenlyDealt`, `Inserted.isEvenlyDealt`: a step keeps the loads of all dealt nodes.
* `History.loads_of_dealt`: the loads of a dealt node after any run.
-/

namespace QuadIndex

variable {α β ν : Type}

/-! ## Turns -/

/-- From position `k` on, how many positions of a list leave the remainder `c`. -/
theorem length_filter_zipIdx_mod (xs : List β) (k : Nat) {c : Nat} (hc : c < 4) :
    ((xs.zipIdx k).filter fun x => x.2 % 4 = c).length =
      (k + xs.length + 3 - c) / 4 - (k + 3 - c) / 4 := by
  induction xs generalizing k with
  | nil => simp
  | cons x xs ih =>
    rw [List.zipIdx_cons, List.filter_cons, List.length_cons]
    by_cases hk : k % 4 = c
    · rw [if_pos (by simpa using hk), List.length_cons, ih]
      omega
    · rw [if_neg (by simpa using hk), ih]
      omega

/-- **What a quadrant gets of a deal in turn.** -/
theorem Quadrants.length_dealInTurn (xs : List β) (q : Quadrant) :
    ((dealInTurn xs).get q).length = (xs.length + 3 - q.code) / 4 := by
  have hlt := q.code_lt
  have hcount := length_filter_zipIdx_mod xs 0 hlt
  rw [dealInTurn, get_map, get_ofFn, List.length_map, hcount]
  omega

namespace Node

variable {children : Quadrant → Node α ν} {n : Node α ν} {m : Nat}

/-! ## Loads -/

/-- No child has fewer entries than the one that takes the next entry. -/
theorem lightest_least (children : Quadrant → Node α ν) (q : Quadrant) :
    (children (lightest children)).size ≤ (children q).size := by
  simp only [lightest, Quadrant.all, List.foldl_cons, List.foldl_nil, Quadrants.get_ofFn]
  cases q <;> grind

/-- The children before it have more. -/
theorem lightest_first (children : Quadrant → Node α ν) (q : Quadrant)
    (h : q.code < (lightest children).code) :
    (children (lightest children)).size < (children q).size := by
  revert h
  simp only [lightest, Quadrant.all, List.foldl_cons, List.foldl_nil, Quadrants.get_ofFn]
  cases q <;> grind [Quadrant.code]

/-- **The loads of children that `m` entries were dealt to** in turn. -/
def LoadedInTurn (children : Quadrant → Node α ν) (m : Nat) : Prop :=
  ∀ q, (children q).size = (m + 3 - q.code) / 4

namespace LoadedInTurn

theorem size_inner (h : LoadedInTurn children m) (cell : Box α) (level : Nat) (dealt : Bool) :
    (inner cell level dealt children).size = m := by
  rw [Node.size_inner, h .northWest, h .northEast, h .southWest, h .southEast]
  simp only [Quadrant.code]
  omega

/-- **The child with the fewest entries is the one whose turn it is.** -/
theorem code_lightest (h : LoadedInTurn children m) : (lightest children).code = m % 4 := by
  have hsize : ∀ q, (children q).size = (m + 3 - q.code) / 4 := h
  have hlt := (lightest children).code_lt
  have hleast := lightest_least children
  have hfirst := lightest_first children
  simp only [hsize] at hleast hfirst
  generalize (lightest children).code = c at hlt hleast hfirst
  -- the child whose turn it is has the least load, those before it have one more
  have h0 := hleast .northWest
  have h1 := hleast .northEast
  have h2 := hleast .southWest
  have h3 := hleast .southEast
  have f0 := hfirst .northWest
  have f1 := hfirst .northEast
  have f2 := hfirst .southWest
  simp only [Quadrant.code] at h0 h1 h2 h3 f0 f1 f2
  omega

/-- **The next entry goes to the child whose turn it is.** -/
theorem update (h : LoadedInTurn children m)
    (hn : n.size = (children (lightest children)).size + 1) :
    LoadedInTurn (Node.update children (lightest children) n).get (m + 1) := by
  have hturn := h.code_lightest
  intro q
  by_cases hq : q = lightest children
  · rw [hq, update_self, hn, h, hturn]
    omega
  · have hlt := q.code_lt
    have hother : q.code ≠ m % 4 := fun heq => hq (Quadrant.code_injective (heq.trans hturn.symm))
    rw [update_of_ne hq, h]
    omega

end LoadedInTurn

/-- **The dealt nodes of a tree** have the loads of a deal in turn. -/
inductive IsEvenlyDealt : Node α ν → Prop where
  | absent : IsEvenlyDealt .absent
  | leaf {es : List (Entry α ν)} : IsEvenlyDealt (.leaf es)
  | inner {cell : Box α} {level : Nat} {dealt : Bool} {children : Quadrant → Node α ν}
      (hloads : dealt = true → ∃ m, LoadedInTurn children m)
      (hbelow : ∀ q, (children q).IsEvenlyDealt) :
      IsEvenlyDealt (.inner cell level dealt children)

theorem At.isEvenlyDealt {depth : Nat} {root : Node α ν} (h : root.At depth n)
    (hroot : root.IsEvenlyDealt) : n.IsEvenlyDealt := by
  induction h with
  | root => exact hroot
  | child q h ih =>
    cases hroot with
    | inner hloads hbelow => exact ih (hbelow q)

namespace IsEvenlyDealt

theorem ofGroup (g : List (Entry α ν)) : (Node.ofGroup g).IsEvenlyDealt := by
  unfold Node.ofGroup
  split
  · exact absent
  · exact leaf

/-- A child is replaced, in a dealt node by one that keeps the loads. -/
theorem ofUpdate {cell : Box α} {level : Nat} {dealt : Bool} {q : Quadrant}
    (hn : n.IsEvenlyDealt) (hloads : dealt = true → ∃ m, LoadedInTurn (update children q n).get m)
    (hbelow : ∀ q, (children q).IsEvenlyDealt) :
    (ofChildren cell level dealt (update children q n)).IsEvenlyDealt := by
  refine inner hloads fun p => ?_
  by_cases hp : p = q
  · rw [hp, update_self]
    exact hn
  · rw [update_of_ne hp]
    exact hbelow p

/-- No node of a chain is dealt. -/
theorem chain (e : Entry α ν) (steps : List (Box α × Quadrant)) (level : Nat) :
    (Node.chain e steps level).IsEvenlyDealt := by
  induction steps generalizing level with
  | nil => exact leaf
  | cons s steps ih =>
    exact ofUpdate (ih (level + 1)) (fun hdealt => nomatch hdealt) fun _ => absent

end IsEvenlyDealt
end Node

/-! ## Steps -/

variable [Scalar α] {rules : TreeRules}

/-- A node that takes an entry has one more. -/
theorem Inserted.size_eq {e : Entry α ν} {depth : Nat} {n n' : Node α ν}
    (h : Inserted rules e depth n n') : n'.size = n.size + 1 := by
  rw [← n'.length_entries, h.entries_perm.length_eq, List.length_cons, n.length_entries]

/-- **A split leaves nodes that are evenly dealt.** -/
theorem Split.isEvenlyDealt {depth : Nat} {entries : List (Entry α ν)} {n : Node α ν}
    (h : Split rules depth entries n) (hdepth : depth < rules.maxTreeDepth) :
    n.IsEvenlyDealt := by
  -- the entries come along, since the loads are those of the groups
  have hboth : n.entries.Perm entries ∧ n.IsEvenlyDealt := by
    refine h.induction_on hdepth
      (P := fun _ entries n => n.entries.Perm entries ∧ n.IsEvenlyDealt) ?_ ?_
    · intro depth g _ _
      rw [Node.entries_ofGroup]
      exact ⟨List.Perm.refl _, Node.IsEvenlyDealt.ofGroup g⟩
    · intro depth entries children cut _ _ _ _ hgroups
      refine ⟨Node.entries_perm_of_deal fun q => (hgroups q).1,
        Node.IsEvenlyDealt.inner (fun hlumped => ⟨entries.length, fun q => ?_⟩)
          fun q => (hgroups q).2⟩
      rw [← Node.length_entries, (hgroups q).1.length_eq, LeafCut.deal, if_pos hlumped,
        Quadrants.length_dealInTurn]
  exact hboth.2

/-- **An insertion keeps the loads of the dealt nodes.** -/
theorem Inserted.isEvenlyDealt {e : Entry α ν} {depth : Nat} {n n' : Node α ν}
    (h : Inserted rules e depth n n') (hn : n.IsEvenlyDealt) : n'.IsEvenlyDealt := by
  induction h with
  | fresh => exact Node.IsEvenlyDealt.leaf
  | added hroom => exact Node.IsEvenlyDealt.leaf
  | overflowed hfull hdepth hsplit => exact hsplit.isEvenlyDealt hdepth
  | dealt hchild ih =>
    cases hn with
    | inner hloads hbelow =>
      obtain ⟨m, hm⟩ := hloads rfl
      exact Node.IsEvenlyDealt.ofUpdate (ih (hbelow _))
        (fun _ => ⟨m + 1, hm.update hchild.size_eq⟩) hbelow
  | descended hplan hpresent hchild ih =>
    cases hn with
    | inner hloads hbelow =>
      exact Node.IsEvenlyDealt.ofUpdate (ih (hbelow _)) (fun hdealt => nomatch hdealt) hbelow
  | chained hplan habsent =>
    cases hn with
    | inner hloads hbelow =>
      exact Node.IsEvenlyDealt.ofUpdate (Node.IsEvenlyDealt.chain _ _ _)
        (fun hdealt => nomatch hdealt) hbelow

/-! ## Trees -/

namespace History

theorem root_isEvenlyDealt (rules : TreeRules) (calls : List (Call α ν)) :
    (run rules calls).tree.root.IsEvenlyDealt := by
  refine run_induction (P := fun h => h.tree.root.IsEvenlyDealt) Node.IsEvenlyDealt.leaf ?_ calls
  intro root root' size accepted e hroot _ hinserted
  exact hinserted.isEvenlyDealt hroot

/-- **The loads of a dealt node after any run**: of the entries below it, each child has as many as
if all had been dealt in turn, whatever their boxes are and whenever they came. So no child has two
entries more than another. -/
theorem loads_of_dealt (rules : TreeRules) (calls : List (Call α ν)) {depth level : Nat}
    {cell : Box α} {children : Quadrant → Node α ν}
    (h : (run rules calls).tree.root.At depth (.inner cell level true children)) :
    (∀ q, (children q).entries.length =
      ((Node.inner cell level true children).entries.length + 3 - q.code) / 4) ∧
    ∀ p q, (children p).entries.length ≤ (children q).entries.length + 1 := by
  cases h.isEvenlyDealt (root_isEvenlyDealt rules calls) with
  | inner hloads hbelow =>
    obtain ⟨m, hm⟩ := hloads rfl
    refine ⟨fun q => ?_, fun p q => ?_⟩
    · rw [Node.length_entries, Node.length_entries, hm.size_inner]
      exact hm q
    · have hp := p.code_lt
      have hq := q.code_lt
      rw [Node.length_entries, Node.length_entries, hm p, hm q]
      omega

/-- Two values under one box, so that their leaf is dealt in turn, and one under another box. -/
def dealtCalls : List (Call Binary64 Nat) :=
  [.insert unitBox 0, .insert unitBox 1, .insert oppositeBox 2]

theorem dealtCalls_root : (run singleRules dealtCalls).tree.root =
    .inner unitBox 0 true (Quadrants.get ⟨.leaf [⟨unitBox, 0⟩], .leaf [⟨unitBox, 1⟩],
      .leaf [⟨oppositeBox, 2⟩], .absent⟩) := by
  have hsquare : medianSquare [unitBox, unitBox] = unitBox := by
    simp only [medianSquare, List.map_cons, List.map_nil]
    rw [median_pair (by decide), median_pair (by decide), median_pair (by decide),
      median_pair (by decide)]
    decide +kernel
  have hcut : LeafCut.ofBoxes [unitBox, unitBox] = ⟨unitBox, ⟨[], [0, 1], [], []⟩⟩ := by
    rw [LeafCut.ofBoxes, hsquare]
    decide +kernel
  have hdeal : (⟨unitBox, ⟨[], [0, 1], [], []⟩⟩ : LeafCut Binary64).deal Entry.box
      ([⟨unitBox, 0⟩] ++ [(⟨unitBox, 1⟩ : Entry Binary64 Nat)]) =
        ⟨[⟨unitBox, 0⟩], [⟨unitBox, 1⟩], [], []⟩ := by decide +kernel
  have hrun : run singleRules dealtCalls =
      (((start singleRules).step (.insert unitBox 0)).step (.insert unitBox 1)).step
        (.insert oppositeBox 2) := rfl
  have hfirst : ((start singleRules).step (.insert unitBox 0)).tree =
      (⟨singleRules, .leaf [⟨unitBox, 0⟩], 1⟩ : Quadtree Binary64 Nat) := rfl
  have hsecond : (⟨singleRules, .leaf [⟨unitBox, 0⟩], 1⟩ :
      Quadtree Binary64 Nat).insertOrKeep unitBox 1 = _ :=
    Quadtree.insertOrKeep_of_fits (by decide) (by decide) (congrArg Except.ok hcut)
      fun q => by rw [hdeal]; cases q <;> decide
  rw [hrun, step_insert_tree, step_insert_tree, hfirst, hsecond, hdeal]
  rfl

theorem loads_of_dealt_dealtCalls : ∃ cell children,
    (run singleRules dealtCalls).tree.root.At 0 (.inner cell 0 true children) ∧
    (Node.inner cell 0 true children).entries.length = 3 ∧
    (∀ q, (children q).entries.length =
      ((Node.inner cell 0 true children).entries.length + 3 - q.code) / 4) ∧
    ∀ p q, (children p).entries.length ≤ (children q).entries.length + 1 := by
  have hat : (run singleRules dealtCalls).tree.root.At 0
      (.inner unitBox 0 true (Quadrants.get ⟨.leaf [⟨unitBox, 0⟩], .leaf [⟨unitBox, 1⟩],
        .leaf [⟨oppositeBox, 2⟩], .absent⟩)) := by
    rw [dealtCalls_root]
    exact Node.At.root
  exact ⟨_, _, hat, rfl, loads_of_dealt singleRules dealtCalls hat⟩

end History
end QuadIndex
