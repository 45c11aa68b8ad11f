import QuadIndex.Proofs.Descent.Way
import QuadIndex.Proofs.Exact.Box
import QuadIndex.Proofs.Page.Rescaling

/-!
# Descents on another scale

Both axes can be rescaled by one factor, each with a shift of its own. Ratios of lengths stay the
same, and so does the level where an object belongs. Middles of sides are rescaled along, so that an
object takes the same quadrants on its way, and the cells are rescaled. None of this needs the sides
to be finite.

* `naturalLevel_rescale`: the level of an object. It depends on both axes, and so needs one factor.
* `stepsDown_rescale`: the way of an object down, for any two factors.
* `planDescent_rescale`: the descent of an object.
-/

namespace QuadIndex

open Exact

/-- A common positive factor is cancelled in a ratio. -/
theorem Exact.real_mul_div_real_mul {a : ℝ} (ha : 0 < a) (x y : Exact) :
    real a * x / (real a * y) = x / y := by
  rw [real_mul_eq ha, real_mul_eq ha]
  have hzero : ∀ s : ℝ, a * s = 0 ↔ s = 0 := fun s => mul_eq_zero_iff_left ha.ne'
  -- an infinite ratio has the sign of its sides, and a positive factor does not change that
  cases x with
  | nan => cases y <;> rfl
  | real r =>
    cases y with
    | real s =>
      change (if a * s = 0 then infinite (a * r) else real (a * r / (a * s))) =
        if s = 0 then infinite r else real (r / s)
      simp only [hzero, infinite_mul ha, mul_div_mul_left r s ha.ne']
    | _ => rfl
  | _ =>
    cases y with
    | real s =>
      change (if a * s = 0 then _ else infinite (_ * (a * s))) =
        if s = 0 then _ else infinite (_ * s)
      simp only [hzero, mul_left_comm _ a, infinite_mul ha]
    | _ => rfl

namespace Box

variable {rx ry : Rescaling} (b object : Box Exact)

/-- One factor for both axes is that of the longer side. -/
theorem longSide_rescale (h : rx.factor = ry.factor) :
    (b.rescale rx ry).longSide = real rx.factor * b.longSide := by
  have hheight : (b.rescale rx ry).height = real rx.factor * b.height :=
    h ▸ ry.apply_sub_apply b.maxY b.minY
  rw [longSide, longSide, (keepsCosts_mul rx.pos).map_greater, hheight]
  exact congrArg (Scalar.greater · _) (rx.apply_sub_apply b.maxX b.minX)

theorem quarter_rescale (q : Quadrant) :
    (b.rescale rx ry).quarter q = (b.quarter q).rescale rx ry := by
  cases q <;> simp only [quarter, center_rescale] <;> rfl

/-- A rescaled object is in the same quadrant of the rescaled cell. -/
theorem quadrantOf_rescale :
    (b.rescale rx ry).quadrantOf (object.rescale rx ry) = b.quadrantOf object := by
  rw [quadrantOf, center_rescale, center_rescale]
  exact Quadrant.around_rescale rx ry b.center object.center

end Box

variable {rx ry : Rescaling}

/-- **The level of an object** does not depend on the scale. -/
theorem naturalLevel_rescale (h : rx.factor = ry.factor) (cell object : Box Exact) :
    naturalLevel (cell.rescale rx ry) (object.rescale rx ry) = naturalLevel cell object := by
  have hcosts := keepsCosts_mul rx.pos
  have hflat : real rx.factor * cell.longSide ≤ real rx.factor * 0 ↔ cell.longSide ≤ 0 :=
    hcosts.le_iff
  have hzero : real rx.factor * 0 = 0 := hcosts.map_zero
  rw [hzero] at hflat
  simp only [naturalLevel, Box.longSide_rescale _ h, rx.half_mul, real_mul_div_real_mul rx.pos,
    hflat]

/-- **The way of an object down** is rescaled with the object and the cell. -/
theorem stepsDown_rescale (object : Box Exact) (levels : Nat) (cell : Box Exact) :
    stepsDown (object.rescale rx ry) levels (cell.rescale rx ry) =
      (stepsDown object levels cell).map (Prod.map (Box.rescale rx ry) id) := by
  induction levels generalizing cell with
  | zero =>
    rw [stepsDown, Box.quadrantOf_rescale]
    rfl
  | succ levels ih =>
    rw [stepsDown, Box.quadrantOf_rescale, Box.quarter_rescale, ih]
    rfl

theorem Descent.ofLevels_rescale (object : Box Exact) (levels : Nat) (cell : Box Exact) :
    ofLevels (object.rescale rx ry) levels (cell.rescale rx ry) =
      ⟨levels, (ofLevels object levels cell).path,
        (ofLevels object levels cell).cells.map (Box.rescale rx ry)⟩ := by
  simp only [ofLevels, stepsDown_rescale, List.map_drop, List.map_map]
  rfl

/-- **A descent does not depend on the scale**: if both axes are rescaled by one factor and shifted,
for the cell and for the object, then the levels and the path stay the same, and the cells are
rescaled. -/
theorem planDescent_rescale (rules : TreeRules) (cell object : Box Exact) (level : Nat)
    (k dx dy : ℝ) (hk : 0 < k) (hcell : cell.isValid = true) (hobject : object.isValid = true) :
    ∃ descent descent', (planDescent rules cell level object).value = .ok descent ∧
      (planDescent rules (cell.rescale ⟨k, dx, hk⟩ ⟨k, dy, hk⟩) level
        (object.rescale ⟨k, dx, hk⟩ ⟨k, dy, hk⟩)).value = .ok descent' ∧
      descent'.levels = descent.levels ∧ descent'.path = descent.path ∧
      descent'.cells = descent.cells.map (Box.rescale ⟨k, dx, hk⟩ ⟨k, dy, hk⟩) := by
  refine ⟨_, _, planDescent_eq rules level hcell hobject, planDescent_eq rules level
    (by rwa [Box.isValid_rescale]) (by rwa [Box.isValid_rescale]), ?_⟩
  have hfactor : (⟨k, dx, hk⟩ : Rescaling).factor = (⟨k, dy, hk⟩ : Rescaling).factor := rfl
  rw [naturalLevel_rescale hfactor, Descent.ofLevels_rescale]
  exact ⟨rfl, rfl, rfl⟩

theorem planDescent_rescale_endlessCell :
    (⟨real 0, real 0, posInf, real 1⟩ : Box Exact).isValid = true ∧ unitSquare.isValid = true ∧
      ∃ descent descent',
        (planDescent ⟨{}, by decide, by decide⟩ ⟨real 0, real 0, posInf, real 1⟩ 0
          unitSquare).value = .ok descent ∧
        (planDescent ⟨{}, by decide, by decide⟩
          (Box.rescale ⟨2, 1, two_pos⟩ ⟨2, -1, two_pos⟩ ⟨real 0, real 0, posInf, real 1⟩) 0
          (unitSquare.rescale ⟨2, 1, two_pos⟩ ⟨2, -1, two_pos⟩)).value = .ok descent' ∧
        descent'.levels = descent.levels ∧ descent'.path = descent.path ∧
        descent'.cells = descent.cells.map (Box.rescale ⟨2, 1, two_pos⟩ ⟨2, -1, two_pos⟩) := by
  have hstrip : (⟨real 0, real 0, posInf, real 1⟩ : Box Exact).isValid = true := by
    simp [Box.isValid_iff]
  exact ⟨hstrip, isValid_unitSquare, planDescent_rescale _ _ unitSquare 0 2 1 (-1) two_pos hstrip
    isValid_unitSquare⟩

end QuadIndex
