import QuadIndex.Proofs.Tree.Search

/-!
# Searches that are refused

A search checks the arguments of its query wherever it tests a box or chooses children, so the first
node that it comes to decides. In a tree with entries that is the root, whether it is a leaf or not:
a malformed argument is found there before anything is left out. A tree without entries tests no
box, and answers a malformed query with no values.

* `FirstRefused`: what is wrong with a query.
* `Node.search_refused`: a node with entries refuses a query with a malformed argument.
* `History.search_eq_error_iff`: after any run, a search fails for its query alone.
-/

namespace QuadIndex

variable {α ν : Type} [Scalar α]

/-! ## Queries -/

/-- **What is wrong with a query**: why the first argument without a valid bounding box has none. -/
def FirstRefused (query : List (Condition α)) (e : IndexError α) : Prop :=
  ∃ before c after, query = before ++ c :: after ∧ WellFormed before ∧ c.argumentBox = .error e

/-- The bounding boxes of the arguments fail as the first of them that is not valid. -/
theorem argumentBoxes_eq_error_iff {query : List (Condition α)} {e : IndexError α} :
    argumentBoxes query = .error e ↔ FirstRefused query e := by
  have hstep : ∀ c : Condition α, ((c.argumentBox.map fun b => (c.strategy, b)) = .error e ↔
      c.argumentBox = .error e) ∧ ((∃ a, (c.argumentBox.map fun b => (c.strategy, b)) = .ok a) ↔
        ∃ b, c.argumentBox = .ok b) := by
    intro c
    cases c.argumentBox <;> simp [Except.map]
  rw [argumentBoxes, mapM_eq_error_iff]
  simp only [(hstep _).1, (hstep _).2]
  rfl

/-- A query that is not well formed has a first argument at fault. -/
theorem wellFormed_or_firstRefused (query : List (Condition α)) :
    WellFormed query ∨ ∃ e, FirstRefused query e := by
  induction query with
  | nil => exact Or.inl fun c hc => absurd hc List.not_mem_nil
  | cons c query ih =>
    cases hc : c.argumentBox with
    | error e => exact Or.inr ⟨e, [], c, query, rfl, fun d hd => absurd hd List.not_mem_nil, hc⟩
    | ok b =>
      rcases ih with hquery | ⟨e, before, d, after, rfl, hbefore, hd⟩
      · exact Or.inl (List.forall_mem_cons.2 ⟨⟨b, hc⟩, hquery⟩)
      · exact Or.inr ⟨e, c :: before, d, after, rfl, List.forall_mem_cons.2 ⟨⟨b, hc⟩, hbefore⟩, hd⟩

/-! ## Nodes -/

/-- **A node with entries refuses a query with a malformed argument**, whatever the kind of the
node and the range it is searched in. -/
theorem Node.search_refused {query : List (Condition α)} {e : IndexError α}
    (hquery : FirstRefused query e) {n : Node α ν} (range : Option (BoxRange α))
    (hcells : ∀ c ∈ n.cells, c.isValid = true) (hentries : n.entries ≠ []) :
    n.search query range = .error e := by
  have harguments := argumentBoxes_eq_error_iff.2 hquery
  cases n with
  | absent => exact absurd rfl hentries
  | leaf es =>
    cases es with
    | nil => exact absurd rfl hentries
    | cons x es =>
      -- the test of the first box fails
      rw [search, answersOf, Entry.answers, testBox, harguments]
      rfl
  | inner cell level dealt children =>
    have hcell := Box.check_eq_ok_iff.2 (hcells cell List.mem_cons_self)
    rw [search, childrenToVisit, hcell, harguments]
    rfl

/-! ## Trees -/

namespace History

/-- A tree is empty if it has no entries. -/
theorem isEmpty_iff (rules : TreeRules) (calls : List (Call α ν)) :
    (run rules calls).tree.isEmpty = true ↔ (run rules calls).tree.entries = [] := by
  have hlength := (entries_perm rules calls).length_eq
  rw [← size_eq_length] at hlength
  rw [Quadtree.isEmpty, beq_iff_eq, ← hlength, List.length_eq_zero_iff]

/-- A tree without entries tests no box. -/
theorem search_of_isEmpty (rules : TreeRules) (calls : List (Call α ν))
    (query : List (Condition α)) (hempty : (run rules calls).tree.isEmpty = true) :
    (run rules calls).tree.search query = .ok [] := by
  have hentries := (isEmpty_iff rules calls).1 hempty
  rw [Quadtree.search]
  rcases root_isSound rules calls with hroot | hsound
  · rw [hroot]
    rfl
  · cases hroot : (run rules calls).tree.root with
    | absent => rfl
    | _ =>
      rw [hroot] at hsound
      rw [Quadtree.entries, hroot] at hentries
      exact absurd hentries (hsound.entries_ne_nil rfl)

variable [LawfulScalar α]

/-- **After any run, a search fails only for its query**, and for what is wrong with the first
malformed argument, if the boxes of the tree hold their centers. A tree with entries refuses every
malformed query, and one without answers it with no values. -/
theorem search_eq_error_iff (rules : TreeRules) (calls : List (Call α ν))
    (query : List (Condition α))
    (hcenter : ∀ b ∈ (run rules calls).tree.boxes, b.isValid = true →
      b.hasPoint b.center = true) :
    (∀ e, (run rules calls).tree.search query = .error e ↔
      (run rules calls).tree.isEmpty = false ∧ FirstRefused query e) ∧
    ((run rules calls).tree.isEmpty = true → (run rules calls).tree.search query = .ok []) := by
  have hcells := cells_isValid rules calls fun c hc => hcenter c (List.mem_append_right _ hc)
  -- a malformed query is refused at the root
  have hrefused : ∀ {e}, (run rules calls).tree.isEmpty = false → FirstRefused query e →
      (run rules calls).tree.search query = .error e := by
    intro e hfilled hquery
    have hentries : (run rules calls).tree.entries ≠ [] := by
      intro hnil
      rw [(isEmpty_iff rules calls).2 hnil] at hfilled
      cases hfilled
    rw [Quadtree.search, Node.search_refused hquery none hcells hentries]
    rfl
  refine ⟨fun e => ⟨fun herror => ?_, fun h => hrefused h.1 h.2⟩,
    search_of_isEmpty rules calls query⟩
  have hfilled : (run rules calls).tree.isEmpty = false := by
    by_contra hempty
    rw [search_of_isEmpty rules calls query (by simpa using hempty)] at herror
    cases herror
  refine ⟨hfilled, ?_⟩
  rcases wellFormed_or_firstRefused query with hquery | ⟨e', hquery⟩
  · rw [search_eq rules calls hquery hcenter] at herror
    cases herror
  · rw [hrefused hfilled hquery] at herror
    cases herror
    exact hquery

end History

/-- Boxes that meet the unit circle, and are left of a circle that has a negative radius. -/
def leftOfNothing : List (Condition Binary64) :=
  [⟨.overlap, .circle ⟨0, 0⟩ 1⟩, ⟨.left, .circle ⟨0, 0⟩ (-1)⟩]

theorem firstRefused_leftOfNothing : FirstRefused leftOfNothing (.malformed (.radius (-1))) := by
  refine ⟨[⟨.overlap, .circle ⟨0, 0⟩ 1⟩], _, [], rfl, ?_, ?_⟩
  · rw [WellFormed, List.forall_mem_singleton]
    exact ⟨⟨-1, -1, 1, 1⟩, by decide +kernel⟩
  · decide +kernel

/-- A tree with a cell refuses the second condition. -/
theorem search_leftOfNothing :
    (∀ b ∈ (History.run singleRules splitCalls).tree.boxes, b.isValid = true →
      b.hasPoint b.center = true) ∧
    (History.run singleRules splitCalls).tree.search leftOfNothing =
      .error (.malformed (.radius (-1))) := by
  have hcenter : ∀ b ∈ (History.run singleRules splitCalls).tree.boxes, b.isValid = true →
      b.hasPoint b.center = true := by
    rw [Quadtree.boxes, Quadtree.entries, splitCalls_root]
    decide +kernel
  have hfilled : (History.run singleRules splitCalls).tree.isEmpty = false := by
    rw [← Bool.not_eq_true, History.isEmpty_iff, Quadtree.entries, splitCalls_root]
    decide +kernel
  exact ⟨hcenter, ((History.search_eq_error_iff singleRules splitCalls leftOfNothing hcenter).1 _).2
    ⟨hfilled, firstRefused_leftOfNothing⟩⟩

/-- **A new tree answers a malformed query**, as if no value satisfied it. -/
theorem not_search_refused_new :
    (∀ b ∈ (History.run singleRules ([] : List (Call Binary64 Nat))).tree.boxes, b.isValid = true →
      b.hasPoint b.center = true) ∧
    ¬ ∀ e, (History.run singleRules ([] : List (Call Binary64 Nat))).tree.search leftOfNothing =
      .error e ↔ FirstRefused leftOfNothing e := by
  refine ⟨fun b hb => absurd hb List.not_mem_nil, fun h => ?_⟩
  have herror := (h _).2 firstRefused_leftOfNothing
  cases herror

end QuadIndex
