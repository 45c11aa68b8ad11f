import QuadIndex.Proofs.Descent.Way
import QuadIndex.Proofs.Exact.Box
import QuadIndex.Proofs.Tree.Search

/-!
# A search follows an insertion

An insertion goes down by comparing centers, and a search by narrowing the range of the boxes below
each node. The two agree on the way of an object that matches: at each cell the search enters the
quadrant that the insertion takes, in a range that has the object.

That needs the object and the cells to hold their centers. In exact arithmetic they do if their
corners are finite. A box without end to the south is valid, but has no center: the NaN in its place
sends the box north, where the search need not look for it (`not_follows_southStrip`).

* `follows`: what is asked of a search along a way down.
* `childrenToVisit_enters`: one step of the search.
* `follows_stepsDown`: all steps, for cells that hold their centers.
* `planDescent_follows`: the way of an object down from a cell, in exact arithmetic.
-/

namespace QuadIndex

variable {α : Type} [Scalar α]

/-- **A search can follow an object** along a way down: at each cell it succeeds and enters the
quadrant taken there, in a range that has the object. -/
def follows (query : List (Condition α)) (object : Box α) :
    Option (BoxRange α) → List (Box α × Quadrant) → Bool
  | _, [] => true
  | range, (cell, q) :: way =>
    match childrenToVisit range cell false query with
    | .error _ => false
    | .ok visits =>
      match visits.find? fun v => v.1 = q with
      | none => false
      | some (_, next) => next.has object && follows query object (some next) way

/-- A quadrant is among those that a search enters if the range of its boxes may hold a match. -/
theorem find?_visits (arguments : List (Strategy × Box α)) (child : Quadrant → BoxRange α)
    (q : Quadrant) :
    (((Quadrant.all.map fun q => (q, child q)).filter fun v => mayHoldAll arguments v.2).find?
        fun v => v.1 = q) =
      if mayHoldAll arguments (child q) then some (q, child q) else none := by
  rw [List.find?_filter, List.find?_map]
  cases hmay : mayHoldAll arguments (child q) <;> cases q <;> simp [Quadrant.all, hmay]

variable [LawfulScalar α]

/-! ## Steps of the search -/

/-- **A search enters the quadrant that a match is in**, in a range that has the match. -/
theorem childrenToVisit_enters {range : Option (BoxRange α)} {cell object : Box α}
    {query : List (Condition α)} (hquery : WellFormed query)
    (hmatch : ∀ c ∈ query, c.matchesBox object = true)
    (hcell : cell.isValid = true ∧ cell.hasPoint cell.center = true)
    (hobject : object.isValid = true ∧ object.hasPoint object.center = true)
    (hrange : (range.getD .full).has object = true) :
    ∃ visits next, childrenToVisit range cell false query = .ok visits ∧
      (visits.find? fun v => v.1 = cell.quadrantOf object) =
        some (cell.quadrantOf object, next) ∧
      next.has object = true := by
  obtain ⟨arguments, hok, hall⟩ := argumentBoxes_ok hquery
  have hvisits := childrenToVisit_ok false hcell.1 hok (BoxRange.isValid_of_has hrange)
  have hnext := BoxRange.narrow_has hrange hcell.2 hobject.2
  have hholds : (arguments.all fun a => a.1.holds object a.2) = true := by
    rw [hall, List.all_eq_true]
    exact hmatch
  have hmay : mayHoldAll arguments
      ((range.getD .full).narrow cell.center (cell.quadrantOf object)) = true :=
    List.all_eq_true.2 fun a ha =>
      Strategy.mayHold_of_holds hnext hobject.1 (List.all_eq_true.1 hholds a ha)
  refine ⟨_, _, hvisits, ?_, hnext⟩
  rw [if_neg Bool.false_ne_true, find?_visits, if_pos hmay]

/-- **A search can follow a match all the way down** along cells that hold their centers. -/
theorem follows_stepsDown {query : List (Condition α)} {object : Box α} (hquery : WellFormed query)
    (hmatch : ∀ c ∈ query, c.matchesBox object = true)
    (hobject : object.isValid = true ∧ object.hasPoint object.center = true)
    {levels : Nat} {cell : Box α} {range : Option (BoxRange α)}
    (hcells : ∀ s ∈ stepsDown object levels cell,
      s.1.isValid = true ∧ s.1.hasPoint s.1.center = true)
    (hrange : (range.getD .full).has object = true) :
    follows query object range (stepsDown object levels cell) = true := by
  induction levels generalizing cell range with
  | zero =>
    obtain ⟨visits, next, hvisits, hfind, hnext⟩ := childrenToVisit_enters hquery hmatch
      (hcells (cell, _) List.mem_cons_self) hobject hrange
    simp only [stepsDown, follows, hvisits, hfind, hnext, Bool.and_true]
  | succ levels ih =>
    rw [stepsDown, List.forall_mem_cons] at hcells
    obtain ⟨visits, next, hvisits, hfind, hnext⟩ :=
      childrenToVisit_enters hquery hmatch hcells.1 hobject hrange
    simp only [stepsDown, follows, hvisits, hfind, hnext, Bool.true_and]
    exact ih hcells.2 hnext

/-! ## Exact arithmetic -/

open Exact

/-- The query for the boxes south of the unit square. -/
def southOfUnit : List (Condition Exact) := [⟨.below, .envelope unitSquare⟩]

theorem argumentBox_southOfUnit : ∀ c ∈ southOfUnit, c.argumentBox = .ok unitSquare := by
  rw [southOfUnit, List.forall_mem_singleton]
  exact Condition.argumentBox_eq_ok_iff.2 ⟨rfl, isValid_unitSquare⟩

theorem wellFormed_southOfUnit : WellFormed southOfUnit :=
  fun c hc => ⟨unitSquare, argumentBox_southOfUnit c hc⟩

theorem matchesBox_southOfUnit {b : Box Exact} (h : b.maxY < real 0) :
    ∀ c ∈ southOfUnit, c.matchesBox b = true := by
  intro c hc
  rw [Condition.matchesBox, argumentBox_southOfUnit c hc]
  rw [List.mem_singleton.1 hc]
  exact decide_eq_true h

/-- **A search follows an insertion**, in exact arithmetic: the way of an object down from a cell
can be planned, and no search that the object matches is pruned along it. The low sides of both
boxes are finite, the others need not be. -/
theorem planDescent_follows (rules : TreeRules) (cell : Box Exact) (level : Nat)
    (object : Box Exact) (query : List (Condition Exact))
    (hcell : cell.isValid = true) (hobject : object.isValid = true)
    (hcellCorner : cell.corner.isFinite = true) (hobjectCorner : object.corner.isFinite = true)
    (hquery : WellFormed query) (hmatch : ∀ c ∈ query, c.matchesBox object = true) :
    ∃ descent, (planDescent rules cell level object).value = .ok descent ∧
      (descent.way cell).length = descent.levels + 1 ∧
      follows query object none (descent.way cell) = true := by
  obtain ⟨descent, hplan, hlevels, hway⟩ := planDescent_way rules level hcell hobject
  refine ⟨descent, hplan, by rw [hway, length_stepsDown], ?_⟩
  rw [hway]
  refine follows_stepsDown hquery hmatch ⟨hobject, Box.hasPoint_center hobject hobjectCorner⟩ ?_
    (BoxRange.full_has hobject)
  refine holdsCenter_stepsDown hcell hcellCorner fun hdown => ?_
  have hnatural : naturalLevel cell object ≠ 0 := fun hzero => hdown (by simp [hlevels, hzero])
  exact isFinite_center_of_naturalLevel hobject hobjectCorner hnatural

/-- The unit square moved south, in a cell without end to the east. -/
theorem planDescent_follows_endlessCell :
    ∃ descent, (planDescent ⟨{}, by decide, by decide⟩ ⟨real (-2), real (-2), posInf, real 2⟩ 0
        ⟨real 0, real (-2), real 1, real (-1)⟩).value = .ok descent ∧
      (descent.way ⟨real (-2), real (-2), posInf, real 2⟩).length = descent.levels + 1 ∧
      follows southOfUnit ⟨real 0, real (-2), real 1, real (-1)⟩ none
        (descent.way ⟨real (-2), real (-2), posInf, real 2⟩) = true := by
  refine planDescent_follows _ _ 0 _ _ ?_ ?_ ?_ ?_ wellFormed_southOfUnit
    (matchesBox_southOfUnit ?_)
  · simp [Box.isValid_iff]
  · simp [Box.isValid_iff]
  · simp [Box.isFinite_corner_iff, isFinite_iff]
  · simp [Box.isFinite_corner_iff, isFinite_iff]
  · simp

/-! ## A box without a center -/

/-- A strip without end to the south. -/
def southStrip : Box Exact := ⟨real 0, negInf, real 1, real (-1)⟩

theorem isValid_southStrip : southStrip.isValid = true := by simp [southStrip, Box.isValid_iff]

theorem longSide_southStrip : southStrip.longSide = posInf := by
  have hwidth : southStrip.width = real (1 - 0) := real_sub_real
  have hheight : southStrip.height = posInf := rfl
  rw [Box.longSide, hwidth, hheight, Scalar.greater, if_pos (by simp)]

/-- The center of the strip is not a number from south to north, so it counts as north. -/
theorem quadrantOf_southStrip : unitSquare.quadrantOf southStrip = .northEast := by
  have hcenter : southStrip.center = ⟨real (0 + (1 - 0) / 2), nan⟩ := rfl
  have hcell : unitSquare.center = ⟨real (0 + (1 - 0) / 2), real (0 + (1 - 0) / 2)⟩ := rfl
  have hx : unitSquare.center.x ≤ southStrip.center.x := by rw [hcenter, hcell]; simp
  have hy : ¬ southStrip.center.y < unitSquare.center.y := fun h => h.1 (by rw [hcenter])
  rw [Box.quadrantOf, Quadrant.around, decide_eq_true hx, decide_eq_false hy]
  rfl

/-- No box that reaches north of the middle of the unit square may lie south of it. -/
theorem not_mayHoldAll_north :
    mayHoldAll [(.below, unitSquare)] (BoxRange.full.narrow unitSquare.center .northEast) =
      false := by
  have hmiddle : unitSquare.center.y = real (0 + (1 - 0) / 2) := rfl
  have hstart : (BoxRange.full.narrow unitSquare.center .northEast).y.high.low =
      real (0 + (1 - 0) / 2) := by
    change Scalar.greater negInf unitSquare.center.y = _
    rw [hmiddle, Scalar.greater, if_pos (by simp)]
  have hnot : ¬ real (0 + (1 - 0) / 2) < unitSquare.yRange.low := by
    simp [unitSquare, Box.yRange]
  rw [mayHoldAll, List.all_cons, Strategy.mayHold, Bounds.mayEndBefore, hstart,
    decide_eq_false hnot, Bool.and_false, Bool.false_and]

/-- **A search does not follow a box without a center**: the strip has no end to the south and goes
to the north-east of the unit square, but the search for boxes south of that does not. -/
theorem not_follows_southStrip : unitSquare.isValid = true ∧ southStrip.isValid = true ∧
    WellFormed southOfUnit ∧ (∀ c ∈ southOfUnit, c.matchesBox southStrip = true) ∧
    ∃ descent, (planDescent ⟨{}, by decide, by decide⟩ unitSquare 0 southStrip).value =
        .ok descent ∧
      follows southOfUnit southStrip none (descent.way unitSquare) = false := by
  obtain ⟨descent, hplan, hlevels, hway⟩ :=
    planDescent_way ⟨{}, by decide, by decide⟩ 0 isValid_unitSquare isValid_southStrip
  have hzero : descent.levels = 0 := by
    rw [hlevels, naturalLevel_of_longSide longSide_southStrip]
    rfl
  rw [hzero, stepsDown, quadrantOf_southStrip] at hway
  have hmatch := matchesBox_southOfUnit (b := southStrip) (by simp [southStrip])
  refine ⟨isValid_unitSquare, isValid_southStrip, wellFormed_southOfUnit, hmatch, descent, hplan,
    ?_⟩
  have harguments : argumentBoxes southOfUnit = .ok [(.below, unitSquare)] := by
    rw [argumentBoxes, southOfUnit, List.mapM_cons, argumentBox_southOfUnit _ List.mem_cons_self]
    rfl
  have hvisits : childrenToVisit none unitSquare false southOfUnit = .ok _ :=
    childrenToVisit_ok false isValid_unitSquare harguments
      (BoxRange.isValid_of_has (BoxRange.full_has isValid_unitSquare))
  have hfind := find?_visits [(.below, unitSquare)]
    (BoxRange.full.narrow unitSquare.center) .northEast
  rw [not_mayHoldAll_north, if_neg Bool.false_ne_true] at hfind
  rw [hway, follows, hvisits]
  dsimp only [Option.getD_none]
  rw [if_neg Bool.false_ne_true, hfind]

end QuadIndex
