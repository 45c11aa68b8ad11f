import QuadIndex.Proofs.Box
import QuadIndex.Proofs.Exact.Basic
import QuadIndex.Proofs.Query.Pruning
import QuadIndex.Tree.Descent

/-!
# Boxes in exact arithmetic

A box may have infinite sides. Its center is computed from its low sides, so it is a point of the
box as long as those are real numbers, also if the high sides are not. The cells on the way of an
object down keep that: an object with an infinite side belongs on level zero, and the center of
any other is finite, so that a cell with an infinite high side is left to the west or the south.

* `Box.hasPoint_center`: a valid box whose corner is finite holds its center.
* `isFinite_center_of_naturalLevel`: an object that goes down has a finite center.
* `holdsCenter_stepsDown`: the cells on the way of an object down are valid and hold their centers.
-/

namespace QuadIndex

open Exact

/-! ## Sides -/

/-- The middle of a side that starts at a real number lies on the side. -/
theorem Exact.middle_mem {low high : Exact} (hlow : Scalar.isFinite low = true)
    (h : low ≤ high) :
    low ≤ low + Scalar.half (high - low) ∧ low + Scalar.half (high - low) ≤ high := by
  obtain ⟨l, rfl, rfl | ⟨u, rfl, hle⟩⟩ := side_cases hlow h
  · simp
  · simp only [real_sub_real, half_real, real_add_real, real_le_real]
    constructor <;> linarith

/-- A side that starts at a real number has a length, and a real middle unless it is endless. -/
theorem Exact.length_spec {low high : Exact} (hlow : Scalar.isFinite low = true)
    (h : low ≤ high) : high - low ≠ nan ∧
      (high - low ≠ posInf → Scalar.isFinite (low + Scalar.half (high - low)) = true) := by
  obtain ⟨l, rfl, rfl | ⟨u, rfl, -⟩⟩ := side_cases hlow h
  · simp
  · simp [isFinite_iff]

/-! ## Boxes -/

namespace Box

/-- The south-west corner. -/
def corner {α : Type} (b : Box α) : Point α := ⟨b.minX, b.minY⟩

theorem isFinite_corner_iff {α : Type} [Scalar α] {b : Box α} : b.corner.isFinite = true ↔
    Scalar.isFinite b.minX = true ∧ Scalar.isFinite b.minY = true :=
  Bool.and_eq_true_iff

variable {b : Box Exact}

/-- **A valid box whose corner is finite holds its center.** -/
theorem hasPoint_center (hvalid : b.isValid = true) (hcorner : b.corner.isFinite = true) :
    b.hasPoint b.center = true := by
  obtain ⟨hx, hy⟩ := isValid_iff.1 hvalid
  obtain ⟨hcx, hcy⟩ := isFinite_corner_iff.1 hcorner
  obtain ⟨h1, h2⟩ := middle_mem hcx hx
  obtain ⟨h3, h4⟩ := middle_mem hcy hy
  exact hasPoint_iff.2 ⟨h1, h2, h3, h4⟩

/-- The quarter that an object with a finite center takes keeps a finite corner. -/
theorem isFinite_corner_quarter {object : Box Exact} (hvalid : b.isValid = true)
    (hcorner : b.corner.isFinite = true) (hcenter : object.center.isFinite = true) :
    (b.quarter (b.quadrantOf object)).corner.isFinite = true := by
  obtain ⟨hcx, hcy⟩ := isFinite_corner_iff.1 hcorner
  obtain ⟨hpx, hpy⟩ := Bool.and_eq_true_iff.1 hcenter
  obtain ⟨hx, -, hy, -⟩ := hasPoint_iff.1 (hasPoint_center hvalid hcorner)
  -- a low side either stays, or moves to the middle of the cell, which the center is not below
  refine isFinite_corner_iff.2 ⟨?_, ?_⟩
  · simp only [quarter, quadrantOf, Quadrant.isEast_around, decide_eq_true_eq]
    split
    · rename_i heast
      exact isFinite_of_mem hcx hpx hx heast
    · exact hcx
  · simp only [quarter, quadrantOf, Quadrant.isSouth_around, decide_eq_true_eq]
    split
    · exact hcy
    · rename_i hnorth
      obtain ⟨p, hp⟩ := isFinite_iff.1 hpy
      have hnum : object.center.y ≤ object.center.y := by rw [hp]; simp
      exact isFinite_of_mem hcy hpy hy
        (Scalar.le_of_not_lt hnum (LawfulScalar.le_right hy) hnorth)

end Box

/-- The unit square. -/
def unitSquare : Box Exact := ⟨real 0, real 0, real 1, real 1⟩

theorem isValid_unitSquare : unitSquare.isValid = true := by simp [unitSquare, Box.isValid_iff]

/-! ## The way down -/

/-- An object with an endless side belongs on level zero. -/
theorem naturalLevel_of_longSide {cell object : Box Exact} (h : object.longSide = posInf) :
    naturalLevel cell object = 0 := by
  unfold naturalLevel
  rw [h, half_posInf]
  -- the ratio of the sides is the NaN, or it is zero and has no logarithm
  cases cell.longSide with
  | real r =>
    have hlog : Scalar.log2 (real 0) = negInf := by simp [Scalar.log2, log2]
    rw [real_div_posInf]
    dsimp only
    rw [hlog]
    exact ite_self _
  | nan => exact if_pos (by rw [Bool.or_eq_true]; exact Or.inr (isNaN_iff.2 rfl))
  | negInf => exact if_pos (by rw [Bool.or_eq_true]; exact Or.inr (isNaN_iff.2 rfl))
  | posInf => exact if_pos (by rw [Bool.or_eq_true]; exact Or.inr (isNaN_iff.2 rfl))

/-- **An object that goes down has a finite center.** -/
theorem isFinite_center_of_naturalLevel {cell object : Box Exact} (hvalid : object.isValid = true)
    (hcorner : object.corner.isFinite = true) (h : naturalLevel cell object ≠ 0) :
    object.center.isFinite = true := by
  obtain ⟨hx, hy⟩ := Box.isValid_iff.1 hvalid
  obtain ⟨hcx, hcy⟩ := Box.isFinite_corner_iff.1 hcorner
  obtain ⟨hwidth, hmidX⟩ := length_spec hcx hx
  obtain ⟨hheight, hmidY⟩ := length_spec hcy hy
  have hlong : object.longSide ≠ posInf := fun hlong => h (naturalLevel_of_longSide hlong)
  refine Bool.and_eq_true_iff.2 ⟨hmidX fun hend => hlong ?_, hmidY fun hend => hlong ?_⟩
  · have hle : object.width ≤ object.longSide := Scalar.le_greater_left (le_self.2 hwidth)
    rw [Box.width, hend] at hle
    exact posInf_le.1 hle
  · have hle : object.height ≤ object.longSide :=
      Scalar.le_greater_right (le_self.2 hwidth) (le_self.2 hheight)
    rw [Box.height, hend] at hle
    exact posInf_le.1 hle

/-- **The cells on the way of an object down are valid and hold their centers**, if the corner of
the first one is finite, and the center of the object too where there is a second one. -/
theorem holdsCenter_stepsDown {object : Box Exact} {levels : Nat} {cell : Box Exact}
    (hvalid : cell.isValid = true) (hcorner : cell.corner.isFinite = true)
    (hcenter : levels ≠ 0 → object.center.isFinite = true) :
    ∀ s ∈ stepsDown object levels cell, s.1.isValid = true ∧ s.1.hasPoint s.1.center = true := by
  have hholds := Box.hasPoint_center hvalid hcorner
  induction levels generalizing cell with
  | zero =>
    rw [stepsDown, List.forall_mem_singleton]
    exact ⟨hvalid, hholds⟩
  | succ levels ih =>
    have hobject := hcenter (Nat.succ_ne_zero levels)
    have hquarter := Box.isValid_quarter hholds (cell.quadrantOf object)
    have hnext := Box.isFinite_corner_quarter hvalid hcorner hobject
    rw [stepsDown, List.forall_mem_cons]
    exact ⟨⟨hvalid, hholds⟩,
      ih hquarter hnext (fun _ => hobject) (Box.hasPoint_center hquarter hnext)⟩

end QuadIndex
