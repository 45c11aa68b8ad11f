import QuadIndex.Proofs.Tree.History

/-!
# The shape of a tree

Five facts on the nodes of a tree depend on each other: the levels count the depth, the leaves
stand above the depth limit, they are not overfull unless they stand on it, no node is empty, and
every entry lies on the side of each cell that its center is on. `Node.IsSound` states them
together, and every insertion keeps them together.

* `Split.isSound`, `Inserted.isSound`: a step keeps the nodes sound.
* `History.isWellShaped`: what that says of each node of a tree, after any run.
-/

namespace QuadIndex

variable {α ν : Type}

/-- **The nodes of a tree**, each with the number of steps down to it. -/
inductive Node.At : Node α ν → (depth : Nat) → Node α ν → Prop where
  | root {n : Node α ν} : At n 0 n
  | child {cell : Box α} {level depth : Nat} {dealt : Bool} {children : Quadrant → Node α ν}
      {n : Node α ν} (q : Quadrant) (h : (children q).At depth n) :
      (inner cell level dealt children).At (depth + 1) n

variable [Scalar α] {rules : TreeRules}

/-- **A node in order**, at a depth: so are the nodes below it. -/
inductive Node.IsSound (rules : TreeRules) : (depth : Nat) → Node α ν → Prop where
  | absent {depth : Nat} : IsSound rules depth .absent
  | leaf {depth : Nat} {es : List (Entry α ν)} (hne : es ≠ []) (hdepth : depth ≤ rules.maxTreeDepth)
      (hsize : depth < rules.maxTreeDepth → es.length ≤ rules.leafCapacity) :
      IsSound rules depth (.leaf es)
  | inner {depth : Nat} {cell : Box α} {dealt : Bool} {children : Quadrant → Node α ν}
      (hdepth : depth < rules.maxTreeDepth) (hchild : ∃ q, (children q).isAbsent = false)
      (hrouted : dealt = false → ∀ q, ∀ e ∈ (children q).entries, cell.quadrantOf e.box = q)
      (hbelow : ∀ q, IsSound rules (depth + 1) (children q)) :
      IsSound rules depth (.inner cell depth dealt children)

/-! ## Splits -/

theorem Node.IsSound.ofGroup {depth : Nat} {g : List (Entry α ν)}
    (hdepth : depth ≤ rules.maxTreeDepth)
    (hsize : g.length ≤ rules.leafCapacity ∨ rules.maxTreeDepth ≤ depth) :
    IsSound rules depth (Node.ofGroup g) := by
  unfold Node.ofGroup
  split
  · exact IsSound.absent
  · rename_i hne
    exact IsSound.leaf (by simpa using hne) hdepth (fun hlt => by omega)

/-- If no more than one group had members, no box is on the side of another group. -/
theorem LeafCut.quadrantOf_of_mem_deal {cut : LeafCut α} {entries : List (Entry α ν)}
    (hlumped : cut.isLumped = false) {q : Quadrant} {e : Entry α ν}
    (he : e ∈ (cut.deal Entry.box entries).get q) : cut.square.quadrantOf e.box = q := by
  rw [deal, hlumped, if_neg (by simp), Quadrants.get_groupBy] at he
  simpa using (List.mem_filter.1 he).2

/-- **A split leaves sound nodes.** -/
theorem Split.isSound {depth : Nat} {entries : List (Entry α ν)} {n : Node α ν}
    (h : Split rules depth entries n) (hdepth : depth < rules.maxTreeDepth) :
    Node.IsSound rules depth n := by
  -- the entries come along, since the routing of a node speaks of the entries below its children
  have hboth : n.entries.Perm entries ∧ Node.IsSound rules depth n := by
    refine h.induction_on hdepth
      (P := fun depth entries n => n.entries.Perm entries ∧ Node.IsSound rules depth n) ?_ ?_
    · intro depth g hle hsize
      rw [Node.entries_ofGroup]
      exact ⟨List.Perm.refl _, Node.IsSound.ofGroup hle hsize⟩
    · intro depth entries children cut hlt _ hne _ hgroups
      have hperm : (Node.inner cut.square depth cut.isLumped children).entries.Perm entries :=
        Node.entries_perm_of_deal fun q => (hgroups q).1
      refine ⟨hperm, Node.IsSound.inner hlt ?_ ?_ fun q => (hgroups q).2⟩
      · -- some group has an entry, so its child is there
        obtain ⟨e, he⟩ := List.exists_mem_of_ne_nil entries hne
        obtain ⟨q, hq⟩ := Node.mem_entries_inner.1 (hperm.mem_iff.2 he)
        refine ⟨q, ?_⟩
        by_contra habsent
        rw [Node.entries_of_isAbsent (by simpa using habsent)] at hq
        exact List.not_mem_nil hq
      · intro hlumped q e he
        exact LeafCut.quadrantOf_of_mem_deal hlumped ((hgroups q).1.mem_iff.1 he)
  exact hboth.2

/-! ## Insertions -/

/-- An inner node stays in order if one child is replaced by a sound one. -/
theorem Node.IsSound.ofUpdate {depth : Nat} {cell : Box α} {dealt : Bool}
    {children : Quadrant → Node α ν} {q : Quadrant} {n : Node α ν}
    (hdepth : depth < rules.maxTreeDepth) (hn : IsSound rules (depth + 1) n)
    (hpresent : n.isAbsent = false)
    (hroutedNew : dealt = false → ∀ e ∈ n.entries, cell.quadrantOf e.box = q)
    (hrouted : dealt = false → ∀ q, ∀ e ∈ (children q).entries, cell.quadrantOf e.box = q)
    (hbelow : ∀ q, IsSound rules (depth + 1) (children q)) :
    IsSound rules depth (Node.ofChildren cell depth dealt (Node.update children q n)) := by
  refine IsSound.inner hdepth ⟨q, ?_⟩ ?_ ?_
  · rw [update_self]
    exact hpresent
  · intro hdealt p e he
    by_cases hp : p = q
    · subst hp
      rw [update_self] at he
      exact hroutedNew hdealt e he
    · rw [update_of_ne hp] at he
      exact hrouted hdealt p e he
  · intro p
    by_cases hp : p = q
    · subst hp
      rw [update_self]
      exact hn
    · rw [update_of_ne hp]
      exact hbelow p

/-- Each step down takes the quadrant that holds the center of the object. -/
theorem quadrantOf_of_mem_stepsDown {object cell : Box α} {levels : Nat} {s : Box α × Quadrant}
    (h : s ∈ stepsDown object levels cell) : s.1.quadrantOf object = s.2 := by
  induction levels generalizing cell with
  | zero =>
    rw [stepsDown, List.mem_singleton] at h
    rw [h]
  | succ levels ih =>
    rw [stepsDown, List.mem_cons] at h
    rcases h with rfl | h
    · rfl
    · exact ih h

/-- A chain that ends above the depth limit is in order. -/
theorem Node.IsSound.chain {e : Entry α ν} {steps : List (Box α × Quadrant)} {depth : Nat}
    (hlen : depth + steps.length ≤ rules.maxTreeDepth)
    (hsteps : ∀ s ∈ steps, s.1.quadrantOf e.box = s.2) :
    IsSound rules depth (Node.chain e steps depth) := by
  induction steps generalizing depth with
  | nil => exact IsSound.leaf (by simp) (by simpa using hlen) fun _ => rules.capacity_pos
  | cons s steps ih =>
    obtain ⟨cell, q⟩ := s
    rw [List.forall_mem_cons] at hsteps
    rw [List.length_cons] at hlen
    refine IsSound.ofUpdate (by omega) (ih (by omega) hsteps.2) (isAbsent_chain _ _ _) ?_ ?_ ?_
    · intro _ x hx
      rw [entries_chain, List.mem_singleton] at hx
      rw [hx]
      exact hsteps.1
    · intro _ p x hx
      exact absurd hx List.not_mem_nil
    · intro p
      exact IsSound.absent

theorem Split.isAbsent {depth : Nat} {entries : List (Entry α ν)} {n : Node α ν}
    (h : Split rules depth entries n) : n.isAbsent = false := by
  cases h
  rfl

theorem Inserted.isAbsent {e : Entry α ν} {depth : Nat} {n n' : Node α ν}
    (h : Inserted rules e depth n n') : n'.isAbsent = false := by
  cases h with
  | overflowed hfull hdepth hsplit => exact hsplit.isAbsent
  | _ => rfl

/-- What a sound inner node says of its children; only a leaf can be the root of an empty tree. -/
theorem Node.IsSound.of_inner {depth level : Nat} {cell : Box α} {dealt : Bool}
    {children : Quadrant → Node α ν} (h : Node.inner cell level dealt children = .leaf [] ∨
      IsSound rules depth (.inner cell level dealt children)) :
    level = depth ∧ depth < rules.maxTreeDepth ∧
      (dealt = false → ∀ q, ∀ e ∈ (children q).entries, cell.quadrantOf e.box = q) ∧
      ∀ q, IsSound rules (depth + 1) (children q) := by
  rcases h with h | h
  · cases h
  · cases h with
    | inner hdepth hchild hrouted hbelow => exact ⟨rfl, hdepth, hrouted, hbelow⟩

/-- **An insertion leaves sound nodes**, also in a tree that has no entry yet. -/
theorem Inserted.isSound {e : Entry α ν} {depth : Nat} {n n' : Node α ν}
    (h : Inserted rules e depth n n') (hdepth : depth ≤ rules.maxTreeDepth)
    (hn : n = .leaf [] ∨ Node.IsSound rules depth n) : Node.IsSound rules depth n' := by
  induction h with
  | fresh => exact Node.IsSound.leaf (by simp) hdepth fun _ => rules.capacity_pos
  | added hroom =>
    refine Node.IsSound.leaf (by simp) hdepth fun hlt => ?_
    rw [List.length_append, List.length_singleton]
    omega
  | overflowed hfull hlt hsplit => exact hsplit.isSound hlt
  | dealt hchild ih =>
    obtain ⟨rfl, hlt, hrouted, hbelow⟩ := Node.IsSound.of_inner hn
    exact Node.IsSound.ofUpdate hlt (ih hlt (Or.inr (hbelow _))) hchild.isAbsent
      (fun hdealt => by cases hdealt) hrouted hbelow
  | descended hplan hpresent hchild ih =>
    obtain ⟨rfl, hlt, hrouted, hbelow⟩ := Node.IsSound.of_inner hn
    refine Node.IsSound.ofUpdate hlt (ih hlt (Or.inr (hbelow _))) hchild.isAbsent ?_ hrouted hbelow
    intro hdealt x hx
    rcases List.mem_cons.1 (hchild.entries_perm.mem_iff.1 hx) with rfl | hx
    · exact (planDescent_ok hplan).2.2.1.symm
    · exact hrouted hdealt _ x hx
  | @chained depth level cell children descent hplan habsent =>
    obtain ⟨rfl, hlt, hrouted, hbelow⟩ := Node.IsSound.of_inner hn
    obtain ⟨-, -, hfirst, hsteps⟩ := planDescent_ok hplan
    refine Node.IsSound.ofUpdate hlt (Node.IsSound.chain ?_ ?_) (Node.isAbsent_chain _ _ _) ?_
      hrouted hbelow
    · -- the chain was cut to the room below the node
      have := List.length_take_le (rules.maxTreeDepth - (level + 1)) descent.steps
      omega
    · intro s hs
      rw [hsteps] at hs
      exact quadrantOf_of_mem_stepsDown (List.mem_of_mem_drop (List.mem_of_mem_take hs))
    · intro _ x hx
      rw [Node.entries_chain, List.mem_singleton] at hx
      rw [hx, hfirst]

/-! ## The nodes of a tree -/

/-- A node reached from a sound root is sound at its own depth. -/
theorem Node.At.isSound {m n : Node α ν} {steps : Nat} (h : m.At steps n) :
    ∀ {depth : Nat}, IsSound rules depth m → IsSound rules (depth + steps) n := by
  induction h with
  | root => intro depth hm; exact hm
  | child q h ih =>
    intro depth hm
    cases hm with
    | inner hdepth hchild hrouted hbelow =>
      have hn := ih (hbelow q)
      rwa [Nat.add_right_comm] at hn

theorem Node.IsSound.height_le {depth : Nat} {n : Node α ν} (h : IsSound rules depth n) :
    depth ≤ rules.maxTreeDepth + 1 → n.height + depth ≤ rules.maxTreeDepth + 1 := by
  induction h with
  | absent =>
    intro hle
    rw [height]
    omega
  | leaf hne hdepth hsize =>
    intro _
    rw [height]
    omega
  | inner hdepth hchild hrouted hbelow ih =>
    intro _
    have h1 := ih .northWest (by omega)
    have h2 := ih .northEast (by omega)
    have h3 := ih .southWest (by omega)
    have h4 := ih .southEast (by omega)
    simp only [height, Quadrant.all, List.map_cons, List.map_nil, List.foldl_cons,
      List.foldl_nil]
    omega

/-- **A well-shaped tree.** -/
structure Quadtree.IsWellShaped (rules : TreeRules) (t : Quadtree α ν) : Prop where
  /-- The level of an inner node is its depth. -/
  level : ∀ {depth level : Nat} {cell : Box α} {dealt : Bool} {children : Quadrant → Node α ν},
    t.root.At depth (.inner cell level dealt children) → level = depth
  /-- Every inner node has a child. -/
  hasChild : ∀ {depth level : Nat} {cell : Box α} {dealt : Bool} {children : Quadrant → Node α ν},
    t.root.At depth (.inner cell level dealt children) → ∃ q, (children q).isAbsent = false
  /-- Unless the entries of a node were dealt in turn, all those below a child belong to the
  quadrant of the child. -/
  routed : ∀ {depth level : Nat} {cell : Box α} {children : Quadrant → Node α ν},
    t.root.At depth (.inner cell level false children) →
      ∀ q, ∀ e ∈ (children q).entries, cell.quadrantOf e.box = q
  /-- No leaf is deeper than the limit. -/
  leafDepth : ∀ {depth : Nat} {es : List (Entry α ν)}, t.root.At depth (.leaf es) →
    depth ≤ rules.maxTreeDepth
  /-- Only a leaf on the limit is overfull. -/
  leafSize : ∀ {depth : Nat} {es : List (Entry α ν)}, t.root.At depth (.leaf es) →
    depth < rules.maxTreeDepth → es.length ≤ rules.leafCapacity
  /-- Only the root of an empty tree is an empty leaf. -/
  leafFilled : ∀ {depth : Nat}, t.root.At depth (.leaf []) → depth = 0 ∧ t.isEmpty = true
  height : t.height ≤ rules.maxTreeDepth + 1

theorem Node.IsSound.wellShaped {t : Quadtree α ν} (h : IsSound rules 0 t.root) :
    t.IsWellShaped rules := by
  have hat : ∀ {depth : Nat} {n : Node α ν}, t.root.At depth n → IsSound rules depth n := by
    intro depth n hn
    have hsound := hn.isSound h
    rwa [Nat.zero_add] at hsound
  constructor
  case level =>
    intro depth level cell dealt children hn
    cases hat hn
    rfl
  case hasChild =>
    intro depth level cell dealt children hn
    cases hat hn with
    | inner hdepth hchild hrouted hbelow => exact hchild
  case routed =>
    intro depth level cell children hn
    cases hat hn with
    | inner hdepth hchild hrouted hbelow => exact hrouted rfl
  case leafDepth =>
    intro depth es hn
    cases hat hn with
    | leaf hne hdepth hsize => exact hdepth
  case leafSize =>
    intro depth es hn
    cases hat hn with
    | leaf hne hdepth hsize => exact hsize
  case leafFilled =>
    intro depth hn
    cases hat hn with
    | leaf hne hdepth hsize => exact absurd rfl hne
  case height =>
    have hle := h.height_le (by omega)
    rwa [Nat.add_zero] at hle

theorem Quadtree.isWellShaped_empty (rules : TreeRules) :
    (Quadtree.empty rules : Quadtree α ν).IsWellShaped rules := by
  have hroot : ∀ {depth : Nat} {n : Node α ν}, (Node.leaf []).At depth n →
      depth = 0 ∧ n = .leaf [] := by
    intro depth n hn
    cases hn
    exact ⟨rfl, rfl⟩
  constructor
  case level => intro depth level cell dealt children hn; exact absurd (hroot hn).2 (by simp)
  case hasChild => intro depth level cell dealt children hn; exact absurd (hroot hn).2 (by simp)
  case routed => intro depth level cell children hn; exact absurd (hroot hn).2 (by simp)
  case leafDepth => intro depth es hn; rw [(hroot hn).1]; exact Nat.zero_le _
  case leafSize =>
    intro depth es hn _
    obtain ⟨-, hes⟩ := hroot hn
    cases hes
    exact Nat.zero_le _
  case leafFilled => intro depth hn; exact ⟨(hroot hn).1, rfl⟩
  case height => exact Nat.le_add_left 1 _

/-- The root of a tree is sound, unless the tree has no entry. -/
theorem History.root_isSound (rules : TreeRules) (calls : List (Call α ν)) :
    (run rules calls).tree = .empty rules ∨ Node.IsSound rules 0 (run rules calls).tree.root := by
  refine run_induction (P := fun h => h.tree = .empty rules ∨ Node.IsSound rules 0 h.tree.root)
    (Or.inl rfl) ?_ calls
  intro root root' size accepted e hroot _ hinserted
  refine Or.inr (hinserted.isSound (Nat.zero_le _) ?_)
  rcases hroot with hempty | hsound
  · exact Or.inl (congrArg Quadtree.root hempty)
  · exact Or.inr hsound

/-- **After any run of insertions and clearings a tree is well shaped**, whether the insertions
were accepted or refused. -/
theorem History.isWellShaped (rules : TreeRules) (calls : List (Call α ν)) :
    (run rules calls).tree.IsWellShaped rules := by
  rcases root_isSound rules calls with hempty | hsound
  · rw [hempty]
    exact Quadtree.isWellShaped_empty rules
  · exact hsound.wellShaped

end QuadIndex
