import Mathlib.Data.List.Chain
import QuadIndex.Proofs.Descent.Level

/-!
# The cells on the way of an object down

In exact arithmetic, each new cell is a quarter of the one before it, half as wide and half as
high. It keeps the center of the object if the cell before has it, and the object is never longer
than the last of them, since the number of cells comes from the lengths of both. All that takes is
that the low sides of the new cells are finite. A cell without an end to the west or to the south
has no middle, and its quarters are no boxes.

* `Box.IsQuarterOf`, `Box.isQuarterOf_quarter_iff`: a box cut around its middle.
* `IsOnWay`: what holds of each cell on the way. `IsOnWay.quarter` is a step, and `IsOnWay.cells`
  is all of them.
* `Descent.isChain_cells_iff`, `Descent.isLaidOut_ofLevels_iff`: when a descent is laid out well.
* `planDescent_isLaidOut_iff`: the descent of any valid object below any valid cell.
* `not_isLaidOut_westStrip`: a cell without an end to the west.
-/

namespace QuadIndex

open Exact

/-! ## Halves of a side -/

namespace Exact

variable {low high : Exact}

/-- **Halving keeps how numbers compare.** -/
theorem keepsOrder_half : Scalar.KeepsOrder (Scalar.half (α := Exact)) := by
  have hhalf : (Scalar.half : Exact → Exact) = onReal (· / 2) := by
    funext x
    cases x <;> rfl
  rw [hhalf]
  exact keepsOrder_onReal fun _ _ hlt => div_lt_div_of_pos_right hlt two_pos

theorem half_two_pow_succ_mul (n : Nat) (x : Exact) :
    Scalar.half (real (2 ^ (n + 1)) * x) = real (2 ^ n) * x := by
  rw [real_mul_eq (by positivity), real_mul_eq (by positivity)]
  cases x with
  | real r => exact congrArg real (by ring)
  | _ => rfl

/-- A side whose middle is a number starts at a real number. -/
theorem isFinite_of_middle (h : low ≤ high) (hmiddle : low + Scalar.half (high - low) ≠ nan) :
    Scalar.isFinite low = true := by
  cases low with
  | real r => exact isFinite_iff.2 ⟨r, rfl⟩
  | nan => exact absurd h not_nan_le
  | posInf =>
    obtain rfl := posInf_le.1 h
    simp at hmiddle
  | negInf =>
    cases high with
    | nan => exact absurd h not_le_nan
    | _ => simp at hmiddle

/-- The lower half of a side that starts at a real number. -/
theorem lower_half (hlow : Scalar.isFinite low = true) (h : low ≤ high) :
    low + Scalar.half (high - low) - low = Scalar.half (high - low) := by
  obtain ⟨l, rfl, rfl | ⟨u, rfl, -⟩⟩ := side_cases hlow h
  · simp
  · simp

/-- The upper half of a side is half of it if the middle is a real number. -/
theorem upper_half_iff (hlow : Scalar.isFinite low = true) (h : low ≤ high) :
    high - (low + Scalar.half (high - low)) = Scalar.half (high - low) ↔
      Scalar.isFinite (low + Scalar.half (high - low)) = true := by
  rw [isFinite_iff]
  obtain ⟨l, rfl, rfl | ⟨u, rfl, -⟩⟩ := side_cases hlow h
  · simp
  · simp only [real_sub_real, half_real, real_add_real]
    exact iff_of_true (congrArg real (by ring)) ⟨_, rfl⟩

end Exact

/-! ## Quarters -/

namespace Box

variable {b c : Box Exact}

/-- **A quarter of a box**: a valid box inside it, half as wide and half as high. -/
structure IsQuarterOf (c b : Box Exact) : Prop where
  isValid : c.isValid = true
  inside : b.covers c = true
  width : c.width = Scalar.half b.width
  height : c.height = Scalar.half b.height

theorem IsQuarterOf.longSide (h : c.IsQuarterOf b) : c.longSide = Scalar.half b.longSide := by
  rw [Box.longSide, Box.longSide, h.width, h.height, keepsOrder_half.map_greater]

/-- A box has a finite corner if one of its quarters is valid. -/
theorem isFinite_corner_of_isValid_quarter (hvalid : b.isValid = true) {q : Quadrant}
    (hquarter : (b.quarter q).isValid = true) : b.corner.isFinite = true := by
  obtain ⟨hx, hy⟩ := isValid_iff.1 hvalid
  obtain ⟨hqx, hqy⟩ := isValid_iff.1 hquarter
  -- the middle is an end of both sides of the quarter
  have hmiddle : b.center.x ≠ nan ∧ b.center.y ≠ nan := by
    cases q with
    | northWest => exact ⟨hqx.2.1, hqy.1⟩
    | northEast => exact ⟨hqx.1, hqy.1⟩
    | southWest => exact ⟨hqx.2.1, hqy.2.1⟩
    | southEast => exact ⟨hqx.1, hqy.2.1⟩
  exact isFinite_corner_iff.2
    ⟨isFinite_of_middle hx hmiddle.1, isFinite_of_middle hy hmiddle.2⟩

/-- A box has a finite corner if one of its quarters has. -/
theorem isFinite_corner_of_quarter (hvalid : b.isValid = true) {q : Quadrant}
    (hquarter : (b.quarter q).corner.isFinite = true) : b.corner.isFinite = true := by
  obtain ⟨hx, hy⟩ := isValid_iff.1 hvalid
  obtain ⟨hqx, hqy⟩ := isFinite_corner_iff.1 hquarter
  have hnx := ne_nan_of_isFinite hqx
  have hny := ne_nan_of_isFinite hqy
  -- a low side of the quarter is one of the box, or its middle
  refine isFinite_corner_iff.2 ?_
  cases q with
  | northWest => exact ⟨hqx, isFinite_of_middle hy hny⟩
  | northEast => exact ⟨isFinite_of_middle hx hnx, isFinite_of_middle hy hny⟩
  | southWest => exact ⟨hqx, hqy⟩
  | southEast => exact ⟨isFinite_of_middle hx hnx, hqy⟩

/-- **A box is cut into a quarter of it** exactly where the corner of the quarter is finite. -/
theorem isQuarterOf_quarter_iff (hvalid : b.isValid = true) (q : Quadrant) :
    (b.quarter q).IsQuarterOf b ↔ (b.quarter q).corner.isFinite = true := by
  obtain ⟨hx, hy⟩ := isValid_iff.1 hvalid
  constructor
  · intro h
    obtain ⟨hcx, hcy⟩ :=
      isFinite_corner_iff.1 (isFinite_corner_of_isValid_quarter hvalid h.isValid)
    refine isFinite_corner_iff.2 ?_
    cases q with
    | northWest => exact ⟨hcx, (upper_half_iff hcy hy).1 h.height⟩
    | northEast => exact ⟨(upper_half_iff hcx hx).1 h.width, (upper_half_iff hcy hy).1 h.height⟩
    | southWest => exact ⟨hcx, hcy⟩
    | southEast => exact ⟨(upper_half_iff hcx hx).1 h.width, hcy⟩
  · intro hquarter
    have hcorner := isFinite_corner_of_quarter hvalid hquarter
    have hholds := hasPoint_center hvalid hcorner
    obtain ⟨hcx, hcy⟩ := isFinite_corner_iff.1 hcorner
    obtain ⟨hqx, hqy⟩ := isFinite_corner_iff.1 hquarter
    have hsides : (b.quarter q).width = Scalar.half b.width ∧
        (b.quarter q).height = Scalar.half b.height := by
      cases q with
      | northWest => exact ⟨lower_half hcx hx, (upper_half_iff hcy hy).2 hqy⟩
      | northEast => exact ⟨(upper_half_iff hcx hx).2 hqx, (upper_half_iff hcy hy).2 hqy⟩
      | southWest => exact ⟨lower_half hcx hx, lower_half hcy hy⟩
      | southEast => exact ⟨(upper_half_iff hcx hx).2 hqx, lower_half hcy hy⟩
    exact ⟨isValid_quarter hholds q, covers_quarter hholds q, hsides.1, hsides.2⟩

/-- **The quarter that an object takes has its center**, if the box has it. -/
theorem hasPoint_quarter {α : Type} [Scalar α] [LawfulScalar α] {b object : Box α}
    (hmiddle : b.hasPoint b.center = true) (hobject : b.hasPoint object.center = true) :
    (b.quarter (b.quadrantOf object)).hasPoint object.center = true := by
  obtain ⟨h1, h2, h3, h4⟩ := hasPoint_iff.1 hobject
  obtain ⟨-, hmx, hmy, -⟩ := hasPoint_iff.1 hmiddle
  have hx : (if b.center.x ≤ object.center.x then b.center.x else b.minX) ≤ object.center.x ∧
      object.center.x ≤ (if b.center.x ≤ object.center.x then b.maxX else b.center.x) := by
    split
    · exact ⟨‹_›, h2⟩
    · rename_i hwest
      exact ⟨h1, Scalar.le_of_lt
        (Scalar.lt_of_not_le (LawfulScalar.le_left hmx) (LawfulScalar.le_right h1) hwest)⟩
  have hy : (if object.center.y < b.center.y then b.minY else b.center.y) ≤ object.center.y ∧
      object.center.y ≤ (if object.center.y < b.center.y then b.center.y else b.maxY) := by
    split
    · rename_i hsouth
      exact ⟨h3, Scalar.le_of_lt hsouth⟩
    · rename_i hnorth
      exact ⟨Scalar.le_of_not_lt (LawfulScalar.le_right h3) (LawfulScalar.le_right hmy) hnorth, h4⟩
  simp only [quarter, quadrantOf, Quadrant.isEast_around, Quadrant.isSouth_around,
    decide_eq_true_eq, hasPoint_iff]
  exact ⟨hx.1, hx.2, hy.1, hy.2⟩

end Box

/-! ## Cells -/

/-- **A cell on the way of an object down** from a first one, with levels to go below it. -/
structure IsOnWay (first object : Box Exact) (levels : Nat) (b : Box Exact) : Prop where
  isValid : b.isValid = true
  /-- The object fits into the last cell. -/
  fits : real (2 ^ levels) * object.longSide ≤ b.longSide
  hasPoint : first.hasPoint object.center = true → b.hasPoint object.center = true

namespace IsOnWay

variable {first object b : Box Exact} {levels : Nat}

/-- **A step** to the quarter that the object takes is on the way, if its corner is finite. -/
theorem quarter (h : IsOnWay first object (levels + 1) b)
    (hcorner : (b.quarter (b.quadrantOf object)).corner.isFinite = true) :
    IsOnWay first object levels (b.quarter (b.quadrantOf object)) := by
  have hquarter := (Box.isQuarterOf_quarter_iff h.isValid _).2 hcorner
  have hholds := Box.hasPoint_center h.isValid (Box.isFinite_corner_of_quarter h.isValid hcorner)
  refine ⟨hquarter.isValid, ?_, fun hfirst => Box.hasPoint_quarter hholds (h.hasPoint hfirst)⟩
  rw [hquarter.longSide, ← half_two_pow_succ_mul]
  exact keepsOrder_half.le_iff.2 h.fits

/-- **All new cells of a descent** are on the way, if their corners are finite. -/
theorem cells (h : IsOnWay first object levels b)
    (hcorners : ∀ c ∈ (Descent.ofLevels object levels b).cells, c.corner.isFinite = true) :
    ∀ c ∈ (Descent.ofLevels object levels b).cells, ∃ n, IsOnWay first object n c := by
  induction levels generalizing b with
  | zero =>
    intro c hc
    cases hc
  | succ levels ih =>
    rw [Descent.cells_ofLevels_succ, List.forall_mem_cons] at hcorners ⊢
    have hnext := h.quarter hcorners.1
    exact ⟨⟨levels, hnext⟩, ih hnext hcorners.2⟩

/-- The object is no longer than any cell on the way. -/
theorem longSide_le (h : IsOnWay first object levels b) (hobject : object.isValid = true) :
    object.longSide ≤ b.longSide := by
  have hfits := h.fits
  rcases Box.longSide_nonneg hobject with ho | ho
  · rw [ho] at hfits
    exact absurd hfits not_nan_le
  · exact LawfulScalar.le_trans (le_two_pow_mul ho levels) hfits

end IsOnWay

/-! ## Descents -/

namespace Descent

variable {cell object : Box Exact} {levels : Nat}

/-- **Each new cell of a descent is a quarter of the one before it** exactly if the corners of all
of them are finite. -/
theorem isChain_cells_iff (hcell : cell.isValid = true) :
    List.IsChain (fun b c => c.IsQuarterOf b) (cell :: (ofLevels object levels cell).cells) ↔
      ∀ c ∈ (ofLevels object levels cell).cells, c.corner.isFinite = true := by
  induction levels generalizing cell with
  | zero => exact iff_of_true (List.isChain_singleton cell) fun c hc => absurd hc List.not_mem_nil
  | succ levels ih =>
    rw [cells_ofLevels_succ, List.isChain_cons_cons, List.forall_mem_cons,
      ← Box.isQuarterOf_quarter_iff hcell]
    exact and_congr_right fun hquarter => ih hquarter.isValid

/-- The corners of the new cells are finite if the corner of the cell and the center of the object
are. -/
theorem isFinite_corner_cells (hcell : cell.isValid = true) (hcorner : cell.corner.isFinite = true)
    (hcenter : object.center.isFinite = true) :
    ∀ c ∈ (ofLevels object levels cell).cells, c.corner.isFinite = true := by
  induction levels generalizing cell with
  | zero => exact fun c hc => absurd hc List.not_mem_nil
  | succ levels ih =>
    have hnext := Box.isFinite_corner_quarter hcell hcorner hcenter
    have hvalid := Box.isValid_quarter (Box.hasPoint_center hcell hcorner) (cell.quadrantOf object)
    rw [cells_ofLevels_succ, List.forall_mem_cons]
    exact ⟨hnext, ih hvalid hnext⟩

/-- **A descent of an object that is laid out well** below a cell. -/
structure IsLaidOut (cell object : Box Exact) (d : Descent Exact) : Prop where
  /-- One quadrant is taken in the cell itself. -/
  length_path : d.path.length = d.levels + 1
  length_cells : d.cells.length = d.levels
  isChain_cells : List.IsChain (fun b c => c.IsQuarterOf b) (cell :: d.cells)
  hasPoint : cell.hasPoint object.center = true → ∀ c ∈ d.cells, c.hasPoint object.center = true
  longSide_le : ∀ c ∈ d.cells, object.longSide ≤ c.longSide
  /-- Planned again from one of the new cells, the descent goes on as before. -/
  restarts : ∀ i c, d.cells[i]? = some c → ∀ (rules : TreeRules) (level : Nat), ∃ rest,
    (planDescent rules c level object).value = .ok rest ∧
      (rest.IsStartOf (d.below i) ∨ (d.below i).IsStartOf rest)

/-- A descent without new levels has nothing to lay out. -/
theorem isLaidOut_zero (cell object : Box Exact) :
    (ofLevels object 0 cell).IsLaidOut cell object where
  length_path := length_path_ofLevels object 0 cell
  length_cells := length_cells_ofLevels object 0 cell
  isChain_cells := List.isChain_singleton cell
  hasPoint _ _ hc := absurd hc List.not_mem_nil
  longSide_le _ hc := absurd hc List.not_mem_nil
  restarts _ _ hi := nomatch hi

theorem isLaidOut_ofLevels (h : IsOnWay cell object levels cell) (hobject : object.isValid = true)
    (hcorners : ∀ c ∈ (ofLevels object levels cell).cells, c.corner.isFinite = true) :
    (ofLevels object levels cell).IsLaidOut cell object := by
  have hcells := h.cells hcorners
  refine ⟨length_path_ofLevels object levels cell, length_cells_ofLevels object levels cell,
    (isChain_cells_iff h.isValid).2 hcorners, fun hcell c hc => ?_, fun c hc => ?_,
    fun i c hi rules level => ?_⟩
  · obtain ⟨n, hn⟩ := hcells c hc
    exact hn.hasPoint hcell
  · obtain ⟨n, hn⟩ := hcells c hc
    exact hn.longSide_le hobject
  · obtain ⟨n, hn⟩ := hcells c (List.mem_of_getElem? hi)
    exact planDescent_restart hi rules level hn.isValid hobject

/-- **A descent is laid out well** exactly if the corners of its new cells are finite. -/
theorem isLaidOut_ofLevels_iff (hcell : cell.isValid = true) (hobject : object.isValid = true)
    (hlevels : levels ≤ naturalLevel cell object) :
    (ofLevels object levels cell).IsLaidOut cell object ↔
      ∀ c ∈ (ofLevels object levels cell).cells, c.corner.isFinite = true := by
  refine ⟨fun h => (isChain_cells_iff hcell).1 h.isChain_cells, fun hcorners => ?_⟩
  rcases Nat.eq_zero_or_pos levels with rfl | hpos
  · exact isLaidOut_zero cell object
  · have hfits := ((le_naturalLevel_iff hcell hobject hpos
      (hlevels.trans naturalLevel_le_maxLevel)).1 hlevels).2.2
    exact isLaidOut_ofLevels ⟨hcell, hfits, id⟩ hobject hcorners

/-- A descent is laid out well if the corners of the cell and of the object are finite. -/
theorem isLaidOut_of_isFinite (hcell : cell.isValid = true) (hobject : object.isValid = true)
    (hlevels : levels ≤ naturalLevel cell object) (hcorner : cell.corner.isFinite = true)
    (hobjectCorner : object.corner.isFinite = true) :
    (ofLevels object levels cell).IsLaidOut cell object := by
  rw [isLaidOut_ofLevels_iff hcell hobject hlevels]
  rcases Nat.eq_zero_or_pos levels with rfl | hpos
  · exact fun c hc => absurd hc List.not_mem_nil
  · have hdown : naturalLevel cell object ≠ 0 := by omega
    exact isFinite_corner_cells hcell hcorner
      (isFinite_center_of_naturalLevel hobject hobjectCorner hdown)

/-- Only below a cell with a finite corner are new cells laid out well. -/
theorem isFinite_corner_of_isLaidOut (hcell : cell.isValid = true) (hlevels : levels ≠ 0)
    (h : (ofLevels object levels cell).IsLaidOut cell object) : cell.corner.isFinite = true := by
  obtain ⟨levels, rfl⟩ := Nat.exists_eq_succ_of_ne_zero hlevels
  have hchain := h.isChain_cells
  rw [cells_ofLevels_succ, List.isChain_cons_cons] at hchain
  exact Box.isFinite_corner_of_isValid_quarter hcell hchain.1.isValid

end Descent

/-- **The descent of an object** below a cell: there is one, for all valid boxes, and it is laid
out well exactly if the corners of its new cells are finite. So they are if those of the cell and of
the object are, whatever the high sides. -/
theorem planDescent_isLaidOut_iff (rules : TreeRules) (cell object : Box Exact) (level : Nat)
    (hcell : cell.isValid = true) (hobject : object.isValid = true) :
    ∃ descent, (planDescent rules cell level object).value = .ok descent ∧
      (descent.IsLaidOut cell object ↔ ∀ c ∈ descent.cells, c.corner.isFinite = true) ∧
      (cell.corner.isFinite = true → object.corner.isFinite = true →
        descent.IsLaidOut cell object) := by
  have hlevels : min (naturalLevel cell object - level) rules.maxInsertLevels ≤
      naturalLevel cell object := (Nat.min_le_left _ _).trans (Nat.sub_le _ _)
  exact ⟨_, planDescent_eq rules level hcell hobject,
    Descent.isLaidOut_ofLevels_iff hcell hobject hlevels,
    Descent.isLaidOut_of_isFinite hcell hobject hlevels⟩

theorem planDescent_isLaidOut_eastStrip :
    eastStrip.isValid = true ∧ unitSquare.isValid = true ∧ ∃ descent,
      (planDescent ⟨{}, by decide, by decide⟩ eastStrip 0 unitSquare).value = .ok descent ∧
        descent.IsLaidOut eastStrip unitSquare := by
  have heast : eastStrip.isValid = true := by simp [eastStrip, Box.isValid_iff]
  obtain ⟨descent, hplan, -, hlaid⟩ := planDescent_isLaidOut_iff ⟨{}, by decide, by decide⟩
    eastStrip unitSquare 0 heast isValid_unitSquare
  refine ⟨heast, isValid_unitSquare, descent, hplan, hlaid ?_ ?_⟩
  · simp [eastStrip, Box.isFinite_corner_iff, isFinite_iff]
  · simp [unitSquare, Box.isFinite_corner_iff, isFinite_iff]

/-! ## A cell without a middle -/

/-- A strip without an end to the west. -/
def westStrip : Box Exact := ⟨negInf, real 0, real 1, real 1⟩

theorem naturalLevel_westStrip : naturalLevel westStrip unitSquare = maxLevel := by
  have hwidth : westStrip.width = posInf := rfl
  have hheight : westStrip.height = real (1 - 0) := real_sub_real
  have hside : westStrip.longSide = posInf := by
    rw [Box.longSide, hwidth, hheight, Scalar.greater, if_neg (by simp)]
  have hsize : unitSquare.longSide = real (1 - 0) := ite_self _
  refine naturalLevel_of_endless ?_ ?_
  · rw [hside]
    exact LawfulScalar.lt_iff.2 (by simp [zero_eq])
  · rw [hside, hsize]
    exact posInf_div_half (by norm_num)

/-- **A cell without an end to the west is not cut into quarters**: it has no middle, and already
the first new cell below it is not laid out well. -/
theorem not_isLaidOut_westStrip :
    westStrip.isValid = true ∧ unitSquare.isValid = true ∧ ∃ descent,
      (planDescent ⟨{ maxInsertLevels := 1 }, by decide, by decide⟩ westStrip 0
        unitSquare).value = .ok descent ∧ ¬ descent.IsLaidOut westStrip unitSquare := by
  have hwest : westStrip.isValid = true := by simp [westStrip, Box.isValid_iff]
  refine ⟨hwest, isValid_unitSquare, _, planDescent_eq _ 0 hwest isValid_unitSquare, ?_⟩
  intro hlaid
  rw [naturalLevel_westStrip] at hlaid
  have hcorner := Descent.isFinite_corner_of_isLaidOut hwest (by decide) hlaid
  simp [westStrip, Box.isFinite_corner_iff, isFinite_iff] at hcorner

end QuadIndex
