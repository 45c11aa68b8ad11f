import QuadIndex.Proofs.Tree.Search

/-!
# Insertions that fail

An insertion changes nodes where they stand, and an overfull leaf gives its entries up before it is
split. A step that failed there would lose them. `Node.insertInPlace` says what a failure leaves
behind, so that it can be ruled out. No leaf is at fault for a failure, whatever the cells, so that
a failed insertion leaves every node as it was. In a tree whose cells are valid, an insertion is
refused before it comes to the root, or not at all.

* `Node.insert_ok`: below valid cells, an entry with a valid box is always taken.
* `Quadtree.insertInPlace_eq`: in place, an insertion leaves the tree that `Quadtree.insert`
  returns, or the tree as it was.
* `History.insertsSafely`: after any run, an insertion fails only for its box, and then leaves the
  tree as it was.
-/

namespace QuadIndex

variable {α ν σ τ : Type}

/-! ## Changes in place -/

/-- The outcome of a change in place, and what the change leaves behind. -/
structure Attempt (α σ : Type) where
  outcome : Except (IndexError α) Unit
  left : σ

namespace Attempt

/-- A change that succeeds. -/
def done (s : σ) : Attempt α σ := ⟨.ok (), s⟩

/-- A change to a result, or to what is left if there is none. -/
def orLeave (result : Except (IndexError α) σ) (kept : σ) : Attempt α σ :=
  match result with
  | .ok s => done s
  | .error e => ⟨.error e, kept⟩

/-- A change of a part, seen from the whole. -/
def map (f : σ → τ) (a : Attempt α σ) : Attempt α τ := ⟨a.outcome, f a.left⟩

/-- A change to a result, or to what is left, is a change to either of the two. -/
theorem map_orLeave (f : σ → τ) (result : Except (IndexError α) σ) (kept : σ) :
    (orLeave result kept).map f = orLeave (result.map f) (f kept) := by
  cases result <;> rfl

end Attempt

variable [Scalar α]

namespace Node

/-- A leaf that an entry is pushed to. It gives its entries up before it is split. -/
def fillLeaf (rules : TreeRules) (es : List (Entry α ν)) (depth : Nat) (e : Entry α ν) :
    Attempt α (Node α ν) :=
  let all := es ++ [e]
  if rules.leafCapacity < all.length && depth < rules.maxTreeDepth then
    .orLeave (splitOverfull rules depth all).value (.leaf [])
  else .done (.leaf all)

/-- **An insertion in place**, into a node at `depth`. -/
def insertInPlace (rules : TreeRules) (e : Entry α ν) :
    Node α ν → (depth : Nat) → Attempt α (Node α ν)
  | .absent, depth => fillLeaf rules [] depth e
  | .leaf es, depth => fillLeaf rules es depth e
  | .inner cell level true children, depth =>
    let q := lightest children
    ((children q).insertInPlace rules e (depth + 1)).map fun child =>
      .ofChildren cell level true (update children q child)
  | .inner cell level false children, depth =>
    match (planDescent rules cell level e.box).value with
    | .error err => ⟨.error err, .inner cell level false children⟩
    | .ok descent =>
      let q := descent.first
      let child :=
        if (children q).isAbsent then
          let room := rules.maxTreeDepth - (depth + 1)
          .done (chain e (descent.steps.take room) (depth + 1))
        else (children q).insertInPlace rules e (depth + 1)
      child.map fun child => .ofChildren cell level false (update children q child)

/-- A leaf is empty after a split that fails. -/
theorem fillLeaf_eq (rules : TreeRules) (es : List (Entry α ν)) (depth : Nat) (e : Entry α ν) :
    fillLeaf rules es depth e = .orLeave (addToLeaf rules es depth e).value (.leaf []) := by
  unfold fillLeaf addToLeaf
  dsimp only
  split <;> rfl

end Node

/-- **An insertion in place** into a tree. The size is counted up at the end. -/
def Quadtree.insertInPlace (t : Quadtree α ν) (box : Box α) (value : ν) :
    Attempt α (Quadtree α ν) :=
  match box.check with
  | .error e => ⟨.error e, t⟩
  | .ok _ =>
    let after := t.root.insertInPlace t.rules ⟨box, value⟩ 0
    match after.outcome with
    | .error e => ⟨.error e, { t with root := after.left }⟩
    | .ok _ => .done { t with root := after.left, size := t.size + 1 }

/-! ## Steps that cannot fail -/

/-- Valid boxes, if there are any, can be cut. -/
theorem LeafCut.cutLeaf_of_isValid {boxes : List (Box α)} (hne : boxes ≠ [])
    (hvalid : ∀ b ∈ boxes, b.isValid = true) : (cutLeaf boxes).value = .ok (ofBoxes boxes) := by
  have hchecks : boxes.forM Box.check = .ok () :=
    forM_eq_ok_iff.2 fun b hb => Box.check_eq_ok_iff.2 (hvalid b hb)
  rw [cutLeaf, if_neg (by simpa using hne), hchecks]

/-- **An overfull leaf can be split**, down to the last of its groups, if its boxes are valid. -/
theorem splitOverfull_ok {rules : TreeRules} {level : Nat} {entries : List (Entry α ν)}
    (hne : entries ≠ []) (hvalid : ∀ e ∈ entries, e.box.isValid = true) :
    ∃ n, (splitOverfull rules level entries).value = .ok n := by
  induction hlen : entries.length using Nat.strongRecOn generalizing level entries with
  | ind size ih =>
    have hboxes : entries.map Entry.box ≠ [] := by simpa using hne
    have hcut := LeafCut.cutLeaf_of_isValid hboxes (by simpa using hvalid)
    rw [splitOverfull]
    split
    · rename_i err herr
      rw [hcut] at herr
      cases herr
    · rename_i cut hfound
      have hof := LeafCut.eq_ofBoxes hfound
      have hmem : ∀ q, ∀ e ∈ (cut.deal Entry.box entries).get q, e ∈ entries := fun q e he =>
        (cut.deal_perm Entry.box entries).mem_iff.1 (Quadrants.mem_members.2 ⟨q, he⟩)
      -- a group that is split again is shorter than the leaf, and not empty
      have hagain : ∀ q, rules.leafCapacity < ((cut.deal Entry.box entries).get q).length →
          ∃ n, (splitOverfull rules (level + 1) ((cut.deal Entry.box entries).get q)).value =
            .ok n := by
        intro q hfull
        have hlt := LeafCut.length_deal_lt_of_lt hof rules.capacity_pos hfull
        refine ih _ (hlen ▸ hlt) ?_ (fun e he => hvalid e (hmem q e he)) rfl
        exact List.ne_nil_of_length_pos (Nat.zero_lt_of_lt hfull)
      have hchildren := Traced.sequence_ok (t := Quadrants.ofFn fun q =>
        if _ : rules.leafCapacity < ((cut.deal Entry.box entries).get q).length ∧
            level + 1 < rules.maxTreeDepth then
          splitOverfull rules (level + 1) ((cut.deal Entry.box entries).get q)
        else .silent (.ok (Node.ofGroup ((cut.deal Entry.box entries).get q)))) ?_
      · obtain ⟨children, hchildren⟩ := hchildren
        exact ⟨_, map_eq_ok_iff.2 ⟨children, hchildren, rfl⟩⟩
      · intro q
        rw [Quadrants.get_ofFn]
        split
        · rename_i hq
          exact hagain q hq.1
        · exact ⟨_, rfl⟩

namespace Node

/-- A leaf with valid boxes takes an entry with a valid box, and is split if it has to be. -/
theorem addToLeaf_ok {rules : TreeRules} {e : Entry α ν} {es : List (Entry α ν)} {depth : Nat}
    (hbox : e.box.isValid = true) (hes : ∀ x ∈ es, x.box.isValid = true) :
    ∃ n, (addToLeaf rules es depth e).value = .ok n := by
  unfold addToLeaf
  dsimp only
  split
  · refine splitOverfull_ok (by simp) fun x hx => ?_
    rcases List.mem_append.1 hx with hx | hx
    · exact hes x hx
    · rw [List.mem_singleton.1 hx]
      exact hbox
  · exact ⟨_, rfl⟩

/-- **Below valid cells an entry with a valid box is taken**, if the boxes there are valid. -/
theorem insert_ok {rules : TreeRules} {e : Entry α ν} {n : Node α ν} {depth : Nat}
    (hbox : e.box.isValid = true) (hcells : ∀ c ∈ n.cells, c.isValid = true)
    (hentries : ∀ x ∈ n.entries, x.box.isValid = true) :
    ∃ n', (n.insert rules e depth).value = .ok n' := by
  induction n generalizing depth with
  | absent => exact addToLeaf_ok hbox fun x hx => absurd hx List.not_mem_nil
  | leaf es => exact addToLeaf_ok hbox hentries
  | inner cell level dealt children ih =>
    have hchild : ∀ q, ∃ n', ((children q).insert rules e (depth + 1)).value = .ok n' := by
      intro q
      refine ih q (fun c hc => hcells c ?_) (fun x hx => hentries x ?_)
      · exact List.mem_cons_of_mem _ (List.mem_flatMap.2 ⟨q, Quadrant.mem_all q, hc⟩)
      · exact mem_entries_inner.2 ⟨q, hx⟩
    cases dealt with
    | true =>
      obtain ⟨child, hok⟩ := hchild (lightest children)
      rw [insert, Traced.value_map]
      exact ⟨_, map_eq_ok_iff.2 ⟨child, hok, rfl⟩⟩
    | false =>
      obtain ⟨descent, hplan, -⟩ :=
        planDescent_way rules level (hcells cell List.mem_cons_self) hbox
      rw [insert, Traced.value_andThen, hplan]
      change ∃ n', Except.map _ (Traced.value _) = _
      simp only [map_eq_ok_iff]
      split
      · exact ⟨_, _, rfl, rfl⟩
      · obtain ⟨child, hok⟩ := hchild descent.first
        exact ⟨_, child, hok, rfl⟩

end Node

/-! ## What a failure leaves -/

namespace Node

/-- A leaf with valid boxes does not lose them. -/
theorem fillLeaf_of_isValid {rules : TreeRules} {e : Entry α ν} {es : List (Entry α ν)}
    {depth : Nat} (hbox : e.box.isValid = true) (hes : ∀ x ∈ es, x.box.isValid = true)
    (kept : Node α ν) :
    fillLeaf rules es depth e = .orLeave (addToLeaf rules es depth e).value kept := by
  obtain ⟨n, hn⟩ : ∃ n, (addToLeaf rules es depth e).value = .ok n := addToLeaf_ok hbox hes
  rw [fillLeaf_eq, hn]
  rfl

/-- **In place, an insertion that fails leaves the node as it was**: it fails where a cell on its
way is not valid, and no leaf is touched before that. -/
theorem insertInPlace_eq {rules : TreeRules} {e : Entry α ν} {n : Node α ν} {depth : Nat}
    (hbox : e.box.isValid = true) (hentries : ∀ x ∈ n.entries, x.box.isValid = true) :
    n.insertInPlace rules e depth = .orLeave (n.insert rules e depth).value n := by
  induction n generalizing depth with
  | absent => exact fillLeaf_of_isValid hbox (fun x hx => absurd hx List.not_mem_nil) _
  | leaf es => exact fillLeaf_of_isValid hbox hentries _
  | inner cell level dealt children ih =>
    have hchild : ∀ q, (children q).insertInPlace rules e (depth + 1) =
        .orLeave ((children q).insert rules e (depth + 1)).value (children q) := by
      intro q
      exact ih q fun x hx => hentries x (mem_entries_inner.2 ⟨q, hx⟩)
    cases dealt with
    | true =>
      rw [insertInPlace, insert, Traced.value_map, hchild, Attempt.map_orLeave,
        ofChildren_update_self]
    | false =>
      rw [insertInPlace, insert, Traced.value_andThen]
      cases (planDescent rules cell level e.box).value with
      | error err => rfl
      | ok descent =>
        change Attempt.map _ _ = Attempt.orLeave (Except.map _ (Traced.value _)) _
        split
        · rfl
        · rw [hchild, Attempt.map_orLeave, ofChildren_update_self]

end Node

/-! ## Trees -/

/-- **In place, an insertion leaves the tree that `Quadtree.insert` returns**, or the tree as it
was. -/
theorem Quadtree.insertInPlace_eq {t : Quadtree α ν}
    (hentries : ∀ e ∈ t.entries, e.box.isValid = true) (box : Box α) (value : ν) :
    t.insertInPlace box value = .orLeave (t.insert box value).value t := by
  unfold insertInPlace insert
  cases hcheck : box.check with
  | error e => rfl
  | ok =>
    have hbox := Box.check_eq_ok_iff.1 hcheck
    have hroot : t.root.insertInPlace t.rules ⟨box, value⟩ 0 =
        .orLeave (t.root.insert t.rules ⟨box, value⟩ 0).value t.root :=
      Node.insertInPlace_eq hbox hentries
    dsimp only
    rw [hroot, Traced.value_map]
    cases (t.root.insert t.rules ⟨box, value⟩ 0).value <;> rfl

/-- **A tree that loses nothing to an insertion that fails.** -/
structure Quadtree.InsertsSafely (t : Quadtree α ν) : Prop where
  /-- An insertion succeeds exactly if its box is valid. -/
  insert_ok_iff : ∀ (box : Box α) (value : ν),
    (∃ t', (t.insert box value).value = .ok t') ↔ box.isValid = true
  /-- In place, an insertion that succeeds leaves the tree that it returns. -/
  done : ∀ (box : Box α) (value : ν) (t' : Quadtree α ν),
    (t.insert box value).value = .ok t' → t.insertInPlace box value = .done t'
  /-- In place, an insertion that fails leaves the tree as it was. -/
  kept : ∀ (box : Box α) (value : ν) (e : IndexError α),
    (t.insert box value).value = .error e → t.insertInPlace box value = ⟨.error e, t⟩
  /-- Every cell of the tree is valid. -/
  cells : ∀ c ∈ t.root.cells, c.isValid = true
  /-- At every cell, a way down can be planned for every valid box. -/
  plans : ∀ c ∈ t.root.cells, ∀ (level : Nat) (object : Box α), object.isValid = true →
    ∃ descent, (planDescent t.rules c level object).value = .ok descent
  /-- Stored boxes can be cut, also together with a new box if that is valid. -/
  cuts : ∀ (box : Box α) (boxes : List (Box α)), box.isValid = true → boxes ≠ [] →
    (∀ b ∈ boxes, b = box ∨ b ∈ t.entries.map Entry.box) →
      ∃ cut, (LeafCut.cutLeaf boxes).value = .ok cut

variable [LawfulScalar α]

/-- **After any run, an insertion fails only for its box**, and then leaves the tree as it was, if
the valid cells of the tree hold their centers. -/
theorem History.insertsSafely (rules : TreeRules) (calls : List (Call α ν))
    (hcenter : ∀ c ∈ (run rules calls).tree.root.cells,
      c.isValid = true → c.hasPoint c.center = true) :
    (run rules calls).tree.InsertsSafely := by
  have hcells := cells_isValid rules calls hcenter
  have hentries := entries_isValid rules calls
  generalize (run rules calls).tree = t at hcells hentries
  have hplace := Quadtree.insertInPlace_eq hentries
  constructor
  case insert_ok_iff =>
    intro box value
    constructor
    · rintro ⟨t', ht'⟩
      exact (Quadtree.insert_ok ht').1
    · intro hbox
      have hinsert : ∃ root, (t.root.insert t.rules ⟨box, value⟩ 0).value = .ok root :=
        Node.insert_ok hbox hcells hentries
      obtain ⟨root, hroot⟩ := hinsert
      rw [Quadtree.insert, Box.check_eq_ok_iff.2 hbox]
      exact ⟨_, map_eq_ok_iff.2 ⟨root, hroot, rfl⟩⟩
  case done =>
    intro box value t' ht'
    rw [hplace, ht']
    rfl
  case kept =>
    intro box value e he
    rw [hplace, he]
    rfl
  case cells => exact hcells
  case plans =>
    intro c hc level object hobject
    obtain ⟨descent, hplan, -⟩ := planDescent_way t.rules level (hcells c hc) hobject
    exact ⟨descent, hplan⟩
  case cuts =>
    intro box boxes hbox hne hboxes
    refine ⟨_, LeafCut.cutLeaf_of_isValid hne fun b hb => ?_⟩
    rcases hboxes b hb with rfl | hstored
    · exact hbox
    · obtain ⟨e, he, rfl⟩ := List.mem_map.1 hstored
      exact hentries e he

/-- The tree of `splitCalls` has a cell that holds its center. -/
theorem insertsSafely_splitCalls :
    (∀ c ∈ (History.run singleRules splitCalls).tree.root.cells,
      c.isValid = true → c.hasPoint c.center = true) ∧
    (History.run singleRules splitCalls).tree.InsertsSafely := by
  have hcenter : ∀ c ∈ (History.run singleRules splitCalls).tree.root.cells,
      c.isValid = true → c.hasPoint c.center = true := by
    rw [splitCalls_root]
    decide +kernel
  exact ⟨hcenter, History.insertsSafely singleRules splitCalls hcenter⟩

end QuadIndex
