import QuadIndex.Proofs.Binary64Order
import QuadIndex.Proofs.Query.Pruning
import QuadIndex.Proofs.Tree.Cells
import QuadIndex.Proofs.Tree.Shape

/-!
# Searches are complete

A search drops nodes on its way down, by the range of the boxes below them. It still finds what a
scan of all accepted entries finds: each entry whose box passes the tests of the query, as often as
it was accepted.

* `passes`: what a scan asks of a stored box.
* `Node.answers_of_mem_search`: whatever a search finds belongs to the answer.
* `Node.search_eq`: below a node in order, a search keeps the entries that pass, and no others.
* `History.search_eq`: after any run, that is what a search of the whole tree returns.
* `History.search_eq_scan`: after any run, a search finds what a scan finds.
-/

namespace QuadIndex

variable {α ν : Type} [Scalar α]

/-- The stored box matches the bounding box of the argument, which has to have one. -/
def Condition.matchesBox (c : Condition α) (stored : Box α) : Bool :=
  match c.argumentBox with
  | .ok b => c.strategy.holds stored b
  | .error _ => false

/-- **The box passes the tests of a query** on its own: it matches the bounding box of every
argument and, if one of those only bounds its argument, it meets every condition. -/
def passes (query : List (Condition α)) (stored : Box α) : Bool :=
  query.all (fun c => c.matchesBox stored) &&
    (!query.any Condition.isLossy || query.all fun c => c.isMet stored)

/-! ## Tests -/

/-- The arguments of a query are well formed if all have valid bounding boxes. -/
def WellFormed (query : List (Condition α)) : Prop := ∀ c ∈ query, ∃ b, c.argumentBox = .ok b

/-- The box of an argument is its bounding box, if that is valid. -/
theorem Condition.argumentBox_eq_ok_iff {c : Condition α} {b : Box α} :
    c.argumentBox = .ok b ↔ c.argument.boundingBox = .ok b ∧ b.isValid = true := by
  unfold argumentBox
  simp only [bind_eq_ok_iff]
  constructor
  · rintro ⟨own, hown, ⟨⟩, hcheck, hb⟩
    cases hb
    exact ⟨hown, Box.check_eq_ok_iff.1 hcheck⟩
  · rintro ⟨hown, hvalid⟩
    exact ⟨b, hown, (), Box.check_eq_ok_iff.2 hvalid, rfl⟩

/-- The arguments of a well-formed query have boxes, and a stored box matches all of these if it
matches each condition. -/
theorem argumentBoxes_ok {query : List (Condition α)} (h : WellFormed query) :
    ∃ arguments, argumentBoxes query = .ok arguments ∧
      ∀ stored : Box α, (arguments.all fun a => a.1.holds stored a.2) =
        query.all fun c => c.matchesBox stored := by
  induction query with
  | nil => exact ⟨[], rfl, fun _ => rfl⟩
  | cons c query ih =>
    obtain ⟨⟨b, hb⟩, hquery⟩ := List.forall_mem_cons.1 h
    obtain ⟨arguments, hok, hall⟩ := ih hquery
    refine ⟨(c.strategy, b) :: arguments, ?_, ?_⟩
    · rw [argumentBoxes] at hok ⊢
      rw [List.mapM_cons, hok, hb]
      rfl
    · intro stored
      have hc : c.matchesBox stored = c.strategy.holds stored b := by rw [Condition.matchesBox, hb]
      rw [List.all_cons, List.all_cons, hall, hc]

/-- On valid boxes every condition is defined. -/
theorem Condition.isMet?_eq {c : Condition α} {stored : Box α} (h : stored.isValid = true) :
    c.isMet? stored = some (c.isMet stored) := by
  unfold isMet?
  split
  · rename_i hoverlap
    rw [Shape.meets?, h, Bool.not_true, Bool.and_false, if_neg Bool.false_ne_true, isMet, hoverlap]
  · rfl

/-- **A leaf answers with the entries that pass.** -/
theorem answersOf_eq {query : List (Condition α)} (h : WellFormed query) (es : List (Entry α ν)) :
    answersOf query es = .ok (es.filter fun e => passes query e.box) := by
  obtain ⟨arguments, hok, hall⟩ := argumentBoxes_ok h
  have hanswers : ∀ e : Entry α ν, e.answers query = .ok (passes query e.box) := by
    intro e
    unfold Entry.answers testBox passes
    rw [hok, ← hall]
    rfl
  induction es with
  | nil => rfl
  | cons e es ih =>
    rw [answersOf, hanswers, ih, List.filter_cons]
    rfl

/-! ## The way down -/

/-- Members that contribute nothing can be left out. -/
theorem flatMap_filter_of_eq_nil {β γ : Type} {p : β → Bool} {f : β → List γ} {xs : List β}
    (h : ∀ x ∈ xs, p x = false → f x = []) : (xs.filter p).flatMap f = xs.flatMap f := by
  induction xs with
  | nil => rfl
  | cons x xs ih =>
    obtain ⟨hx, hxs⟩ := List.forall_mem_cons.1 h
    rw [List.flatMap_cons, ← ih hxs]
    cases hp : p x with
    | true => rw [List.filter_cons_of_pos hp, List.flatMap_cons]
    | false => rw [List.filter_cons_of_neg (by simp [hp]), hx hp, List.nil_append]

theorem Node.IsSound.entries_ne_nil {rules : TreeRules} {depth : Nat} {n : Node α ν}
    (h : IsSound rules depth n) : n.isAbsent = false → n.entries ≠ [] := by
  induction h with
  | absent => exact fun habsent => absurd habsent (by simp [isAbsent])
  | leaf hne hdepth hsize => exact fun _ => hne
  | inner hdepth hchild hrouted hbelow ih =>
    intro _ hnil
    obtain ⟨q, hq⟩ := hchild
    obtain ⟨e, he⟩ := List.exists_mem_of_ne_nil _ (ih q hq)
    rw [entries, List.flatMap_eq_nil_iff] at hnil
    rw [hnil q (Quadrant.mem_all q)] at he
    exact List.not_mem_nil he

/-- The children that a search enters, if the cell, the query and the range pass their checks. -/
theorem childrenToVisit_ok {range : Option (BoxRange α)} {cell : Box α} (dealt : Bool)
    {query : List (Condition α)} {arguments : List (Strategy × Box α)}
    (hcell : cell.isValid = true) (hquery : argumentBoxes query = .ok arguments)
    (hrange : ∀ s ∈ (range.getD .full).sides, s.2.isValid = true) :
    childrenToVisit range cell dealt query = .ok (
      if dealt then Quadrant.all.map fun q => (q, range.getD .full)
      else (Quadrant.all.map fun q => (q, (range.getD .full).narrow cell.center q)).filter
        fun v => mayHoldAll arguments v.2) := by
  have hcheck := BoxRange.check_eq_ok_iff.2 hrange
  unfold childrenToVisit
  rw [Box.check_eq_ok_iff.2 hcell, hquery]
  change ((range.getD .full).check >>= _) = _
  rw [hcheck]
  cases dealt <;> rfl

/-- A search finds at an inner node what it finds below the children that it enters. -/
theorem Node.search_inner_ok {range : Option (BoxRange α)} {cell : Box α} {level : Nat}
    {dealt : Bool} {children : Quadrant → Node α ν} {query : List (Condition α)}
    {visits : List (Quadrant × BoxRange α)} (found : Quadrant → List (Entry α ν))
    (hto : childrenToVisit range cell dealt query = .ok visits)
    (hfound : ∀ v ∈ visits, (children v.1).search query (some v.2) = .ok (found v.1)) :
    (inner cell level dealt children).search query range =
      .ok (visits.flatMap fun v => found v.1) := by
  rw [search, hto]
  change (visits.mapM fun v => (children v.1).search query (some v.2)) >>= _ = _
  rw [mapM_eq_ok hfound, List.flatMap_def]
  rfl

/-! ## What is found -/

/-- What a leaf answers with is in the leaf, and belongs to the answer. -/
theorem answers_of_mem_answersOf {query : List (Condition α)} {es found : List (Entry α ν)}
    (h : answersOf query es = .ok found) {e : Entry α ν} (he : e ∈ found) :
    e ∈ es ∧ e.answers query = .ok true := by
  induction es generalizing found with
  | nil =>
    cases h
    exact absurd he List.not_mem_nil
  | cons x es ih =>
    rw [answersOf, bind_eq_ok_iff] at h
    obtain ⟨kept, hkept, hrest⟩ := h
    obtain ⟨rest, hanswers, hfound⟩ := bind_eq_ok_iff.1 hrest
    cases hfound
    have htail (he : e ∈ rest) : e ∈ x :: es ∧ e.answers query = .ok true := by
      obtain ⟨hmem, hin⟩ := ih hanswers he
      exact ⟨List.mem_cons_of_mem x hmem, hin⟩
    cases kept with
    | false => exact htail he
    | true =>
      rcases List.mem_cons.1 he with rfl | he
      · exact ⟨List.mem_cons_self, hkept⟩
      · exact htail he

/-- **Whatever a search finds is below the node, and belongs to the answer.** -/
theorem Node.answers_of_mem_search {query : List (Condition α)} {n : Node α ν}
    {range : Option (BoxRange α)} {found : List (Entry α ν)}
    (h : n.search query range = .ok found) {e : Entry α ν} (he : e ∈ found) :
    e ∈ n.entries ∧ e.answers query = .ok true := by
  induction n generalizing range found with
  | absent =>
    cases h
    exact absurd he List.not_mem_nil
  | leaf es => exact answers_of_mem_answersOf h he
  | inner cell level dealt children ih =>
    rw [search, bind_eq_ok_iff] at h
    obtain ⟨visits, -, hrest⟩ := h
    obtain ⟨parts, hparts, hfound⟩ := bind_eq_ok_iff.1 hrest
    cases hfound
    obtain ⟨part, hpart, he⟩ := List.mem_flatten.1 he
    obtain ⟨v, -, hv⟩ := exists_of_mem_mapM hparts hpart
    obtain ⟨hmem, hin⟩ := ih v.1 hv he
    exact ⟨mem_entries_inner.2 ⟨v.1, hmem⟩, hin⟩

/-- An entry that belongs to the answer of a query meets its conditions, if for one of these the
bounding box is not enough. -/
theorem Entry.isMet_of_answers {query : List (Condition α)} {e : Entry α ν}
    (h : e.answers query = .ok true) (hlossy : query.any Condition.isLossy = true) :
    ∀ c ∈ query, c.isMet e.box = true := by
  obtain ⟨verdict, hverdict, hkept⟩ := map_eq_ok_iff.1 h
  obtain ⟨arguments, -, hverdict⟩ := bind_eq_ok_iff.1 hverdict
  cases hverdict
  rw [hlossy, Bool.not_true, Bool.false_or, Bool.and_eq_true] at hkept
  exact List.all_eq_true.1 hkept.2

variable [LawfulScalar α]

/-- **Below a node in order, a search keeps the entries that pass**, and no others. The cells and
the boxes below the node hold their centers, and the range has all of the boxes. -/
theorem Node.search_eq {rules : TreeRules} {query : List (Condition α)} (hquery : WellFormed query)
    {n : Node α ν} {depth : Nat} {range : Option (BoxRange α)} (hsound : IsSound rules depth n)
    (hcells : ∀ c ∈ n.cells, c.isValid = true ∧ c.hasPoint c.center = true)
    (hboxes : ∀ e ∈ n.entries, e.box.isValid = true ∧ e.box.hasPoint e.box.center = true)
    (hrange : ∀ e ∈ n.entries, (range.getD .full).has e.box = true) :
    n.search query range = .ok (n.entries.filter fun e => passes query e.box) := by
  induction n generalizing depth range with
  | absent => rfl
  | leaf es => exact answersOf_eq hquery es
  | inner cell level dealt children ih =>
    obtain ⟨hcell, hcellCenter⟩ := hcells cell List.mem_cons_self
    obtain ⟨arguments, hok, hall⟩ := argumentBoxes_ok hquery
    obtain ⟨e, he⟩ := List.exists_mem_of_ne_nil _ (hsound.entries_ne_nil rfl)
    have hto := childrenToVisit_ok dealt hcell hok (BoxRange.isValid_of_has (hrange e he))
    have hmem : ∀ {q : Quadrant} {e : Entry α ν}, e ∈ (children q).entries →
        e ∈ (inner cell level dealt children).entries := fun he => mem_entries_inner.2 ⟨_, he⟩
    cases hsound with
    | inner hdepth hchild hrouted hbelow =>
    -- a child is searched in any range that has the boxes below it
    have hvisit : ∀ (q : Quadrant) (r : BoxRange α),
        (∀ e ∈ (children q).entries, r.has e.box = true) → (children q).search query (some r) =
          .ok ((children q).entries.filter fun e => passes query e.box) := by
      intro q r hr
      refine ih q (hbelow q) (fun c hc => hcells c ?_) (fun e he => hboxes e (hmem he)) hr
      exact List.mem_cons_of_mem _ (List.mem_flatMap.2 ⟨q, Quadrant.mem_all q, hc⟩)
    let found (q : Quadrant) := (children q).entries.filter fun e => passes query e.box
    cases dealt with
    | true =>
      rw [if_pos rfl] at hto
      rw [search_inner_ok found hto, List.flatMap_map, entries, List.filter_flatMap]
      intro v hv
      obtain ⟨q, -, rfl⟩ := List.mem_map.1 hv
      exact hvisit q _ fun e he => hrange e (hmem he)
    | false =>
      rw [if_neg Bool.false_ne_true] at hto
      have hnarrow : ∀ q, ∀ e ∈ (children q).entries,
          ((range.getD .full).narrow cell.center q).has e.box = true := by
        intro q e he
        rw [← hrouted rfl q e he]
        exact BoxRange.narrow_has (hrange e (hmem he)) hcellCenter (hboxes e (hmem he)).2
      rw [search_inner_ok found hto, flatMap_filter_of_eq_nil, List.flatMap_map, entries,
        List.filter_flatMap]
      · intro v hv hdropped
        obtain ⟨q, -, rfl⟩ := List.mem_map.1 hv
        refine List.filter_eq_nil_iff.2 fun e he hpasses => ?_
        -- a match would have kept the child
        have hholds := (Bool.and_eq_true_iff.1 hpasses).1
        rw [← hall, List.all_eq_true] at hholds
        have hmay : mayHoldAll arguments ((range.getD .full).narrow cell.center q) = true :=
          List.all_eq_true.2 fun a ha =>
            Strategy.mayHold_of_holds (hnarrow q e he) (hboxes e (hmem he)).1 (hholds a ha)
        exact absurd hmay (by simp [hdropped])
      · intro v hv
        obtain ⟨q, -, rfl⟩ := List.mem_map.1 (List.mem_of_mem_filter hv)
        exact hvisit q _ (hnarrow q)

/-- **A well-formed query is answered** with the values of the entries that pass, in the order of
the leaves. -/
theorem History.search_eq (rules : TreeRules) (calls : List (Call α ν)) {query : List (Condition α)}
    (hquery : WellFormed query)
    (hcenter : ∀ b ∈ (run rules calls).tree.boxes, b.isValid = true →
      b.hasPoint b.center = true) :
    (run rules calls).tree.search query =
      .ok (((run rules calls).tree.entries.filter fun e => passes query e.box).map
        Entry.value) := by
  have hentries := entries_isValid rules calls
  have hcells := cells_isValid rules calls fun c hc => hcenter c (List.mem_append_right _ hc)
  have hroot : (run rules calls).tree.root.search query none =
      .ok ((run rules calls).tree.entries.filter fun e => passes query e.box) := by
    rcases root_isSound rules calls with hempty | hsound
    · rw [Quadtree.entries, hempty]
      rfl
    · refine Node.search_eq hquery hsound (fun c hc => ⟨hcells c hc, ?_⟩)
        (fun e he => ⟨hentries e he, ?_⟩) fun e he => BoxRange.full_has (hentries e he)
      · exact hcenter c (List.mem_append_right _ hc) (hcells c hc)
      · exact hcenter e.box (List.mem_append_left _ (List.mem_map_of_mem he)) (hentries e he)
  rw [Quadtree.search, hroot]
  rfl

/-- **After any run, a search finds what a scan finds**: it succeeds on a well-formed query, and
returns the values of the accepted entries whose boxes pass, each as often as it was accepted. Of
arithmetic that takes only that a valid box holds its computed center, and that only of the boxes
whose centers the tree compares. No recheck is undefined. -/
theorem History.search_eq_scan (rules : TreeRules) (calls : List (Call α ν))
    (query : List (Condition α)) (hquery : WellFormed query)
    (hcenter : ∀ b ∈ (run rules calls).tree.boxes, b.isValid = true →
      b.hasPoint b.center = true) :
    (∃ found, (run rules calls).tree.search query = .ok found ∧
      found.Perm (((run rules calls).accepted.filter fun e => passes query e.box).map
        Entry.value)) ∧
    ∀ e ∈ (run rules calls).accepted, ∀ c ∈ query, c.isMet? e.box = some (c.isMet e.box) := by
  refine ⟨⟨_, search_eq rules calls hquery hcenter, ?_⟩, fun e he c _ =>
    Condition.isMet?_eq (accepted_valid rules calls e he)⟩
  exact ((entries_perm rules calls).filter _).map _

/-! ## A search after a split -/

/-- The box from the origin to `(1, 1)`. -/
def unitBox : Box Binary64 := ⟨0, 0, 1, 1⟩

/-- The unit box moved to the other side of the origin. -/
def oppositeBox : Box Binary64 := ⟨-1, -1, 0, 0⟩

/-- Rules by which the second entry of a leaf splits it. -/
def singleRules : TreeRules := ⟨⟨1, 32, 3⟩, by decide, by decide⟩

/-- A value that is dropped again, and two that stay. -/
def splitCalls : List (Call Binary64 Nat) :=
  [.insert unitBox 0, .clear, .insert oppositeBox 1, .insert unitBox 2]

/-- The boxes that meet the unit circle. -/
def aroundOrigin : List (Condition Binary64) := [⟨.overlap, .circle ⟨0, 0⟩ 1⟩]

theorem splitCalls_root : (History.run singleRules splitCalls).tree.root =
    .ofChildren unitBox 0 false
      ⟨.absent, .leaf [⟨unitBox, 2⟩], .leaf [⟨oppositeBox, 1⟩], .absent⟩ := by
  have hsquare : medianSquare [oppositeBox, unitBox] = unitBox := by
    simp only [medianSquare, List.map_cons, List.map_nil]
    rw [median_pair (by decide), median_pair (by decide), median_pair (by decide),
      median_pair (by decide)]
    decide +kernel
  have hcut : LeafCut.ofBoxes [oppositeBox, unitBox] = ⟨unitBox, ⟨[], [1], [0], []⟩⟩ := by
    rw [LeafCut.ofBoxes, hsquare]
    decide +kernel
  have hdeal : (⟨unitBox, ⟨[], [1], [0], []⟩⟩ : LeafCut Binary64).deal Entry.box
      ([⟨oppositeBox, 1⟩] ++ [(⟨unitBox, 2⟩ : Entry Binary64 Nat)]) =
        ⟨[], [⟨unitBox, 2⟩], [⟨oppositeBox, 1⟩], []⟩ := by decide +kernel
  have hrun : History.run singleRules splitCalls =
      ((History.start singleRules).step (.insert oppositeBox 1)).step (.insert unitBox 2) := rfl
  have hfirst : ((History.start singleRules).step (.insert oppositeBox 1)).tree =
      (⟨singleRules, .leaf [⟨oppositeBox, 1⟩], 1⟩ : Quadtree Binary64 Nat) := rfl
  have hsecond : (⟨singleRules, .leaf [⟨oppositeBox, 1⟩], 1⟩ :
      Quadtree Binary64 Nat).insertOrKeep unitBox 2 = _ :=
    Quadtree.insertOrKeep_of_fits (by decide) (by decide) (congrArg Except.ok hcut)
      fun q => by rw [hdeal]; cases q <;> decide
  rw [hrun, History.step_insert_tree, hfirst, hsecond, hdeal]
  rfl

theorem search_splitCalls : WellFormed aroundOrigin ∧
    (∀ b ∈ (History.run singleRules splitCalls).tree.boxes, b.isValid = true →
      b.hasPoint b.center = true) ∧
    ∃ found, (History.run singleRules splitCalls).tree.search aroundOrigin = .ok found ∧
      found.Perm (((History.run singleRules splitCalls).accepted.filter fun e =>
        passes aroundOrigin e.box).map Entry.value) := by
  have hquery : WellFormed aroundOrigin := by
    rw [WellFormed, aroundOrigin, List.forall_mem_singleton]
    exact ⟨⟨-1, -1, 1, 1⟩, by decide +kernel⟩
  have hcenter : ∀ b ∈ (History.run singleRules splitCalls).tree.boxes, b.isValid = true →
      b.hasPoint b.center = true := by
    rw [Quadtree.boxes, Quadtree.entries, splitCalls_root]
    decide +kernel
  exact ⟨hquery, hcenter,
    (History.search_eq_scan singleRules splitCalls aroundOrigin hquery hcenter).1⟩

end QuadIndex
