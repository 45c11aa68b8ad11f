import QuadIndex.Plane.Shape
import QuadIndex.Proofs.Box
import QuadIndex.Proofs.Exact.Basic

/-!
# Circles in exact arithmetic

Each coordinate of a point of a circle is no further from that of the center than the radius, so
that the bounding box of the circle has the point. A circle without end has a valid bounding box
only if its center is finite, and then that box has every point there is.

* `Box.hasPoint_nearest`: the point of a box that is nearest to another is a point of the box.
* `Shape.hasPoint_circleBox`: the bounding box of a circle has its points.
* `Shape.meets_circleBox`, `Shape.covers_circleBox`: what a circle meets or covers.
-/

namespace QuadIndex

open Exact LawfulScalar

/-! ## Points of a box -/

section

variable {α : Type} [Scalar α] [LawfulScalar α]

theorem Interval.nearest_mem {i : Interval α} {x : α} (hi : i.isValid = true) (hx : x ≤ x) :
    i.low ≤ i.nearest x ∧ i.nearest x ≤ i.high := by
  have hle : i.low ≤ i.high := of_decide_eq_true hi
  unfold nearest
  split
  · exact ⟨le_left hle, hle⟩
  split
  · exact ⟨hle, le_right hle⟩
  · rename_i hlow hhigh
    exact ⟨Scalar.le_of_not_lt hx (le_left hle) hlow, Scalar.le_of_not_lt (le_right hle) hx hhigh⟩

/-- **The point of a box that is nearest to another** is a point of the box. -/
theorem Box.hasPoint_nearest {b : Box α} {p : Point α} (hb : b.isValid = true) (hx : p.x ≤ p.x)
    (hy : p.y ≤ p.y) : b.hasPoint (b.nearest p) = true := by
  obtain ⟨hbx, hby⟩ := Bool.and_eq_true_iff.1 hb
  obtain ⟨h1, h2⟩ := Interval.nearest_mem (i := b.xRange) hbx hx
  obtain ⟨h3, h4⟩ := Interval.nearest_mem (i := b.yRange) hby hy
  exact Box.hasPoint_iff.2 ⟨h1, h2, h3, h4⟩

end

/-! ## Distances -/

theorem Exact.mul_self_cases (x : Exact) :
    (∃ a, x = real a) ∨ x * x = posInf ∨ x * x = nan := by
  cases x with
  | nan => exact Or.inr (Or.inr nan_mul_nan)
  | negInf => exact Or.inr (Or.inl negInf_mul_negInf)
  | real a => exact Or.inl ⟨a, rfl⟩
  | posInf => exact Or.inr (Or.inl posInf_mul_posInf)

/-- If the root of a sum of squares is at most a real number, then so are the sizes of both
sides, which are real. -/
theorem Exact.abs_le_of_sqrt_le {x y : Exact} {r : ℝ}
    (h : Scalar.sqrt (x * x + y * y) ≤ real r) :
    ∃ a b, x = real a ∧ y = real b ∧ |a| ≤ r ∧ |b| ≤ r := by
  rcases mul_self_cases x with ⟨a, rfl⟩ | hx | hx
  · rcases mul_self_cases y with ⟨b, rfl⟩ | hy | hy
    · rw [real_mul_real, real_mul_real, real_add_real,
        sqrt_real (add_nonneg (mul_self_nonneg a) (mul_self_nonneg b)), real_le_real] at h
      refine ⟨a, b, rfl, rfl, le_trans (Real.abs_le_sqrt ?_) h, le_trans (Real.abs_le_sqrt ?_) h⟩
      · nlinarith [mul_self_nonneg b]
      · nlinarith [mul_self_nonneg a]
    · simp [hy, sqrt_posInf] at h
    · simp [hy, sqrt_nan] at h
  · rcases mul_self_cases y with ⟨b, rfl⟩ | hy | hy
    · simp [hx, sqrt_posInf] at h
    · simp [hx, hy, sqrt_posInf] at h
    · simp [hy, sqrt_nan] at h
  · simp [hx, sqrt_nan] at h

/-- A real difference is one of real numbers. -/
theorem Exact.sub_eq_real {x y : Exact} {a : ℝ} (h : x - y = real a) :
    ∃ u v, x = real u ∧ y = real v ∧ u - v = a := by
  cases x <;> cases y <;> simp_all

/-- A radius is a real number that is not negative, unless it is endless. -/
theorem Exact.radius_cases {r : Exact} (h : 0 ≤ r) :
    r = posInf ∨ ∃ ρ : ℝ, r = real ρ ∧ 0 ≤ ρ := by
  obtain ⟨zero, hzero, hend | ⟨ρ, hρ, hle⟩⟩ := side_cases (isFinite_iff.2 ⟨0, rfl⟩) h
  · exact Or.inl hend
  · cases hzero
    exact Or.inr ⟨ρ, hρ, hle⟩

/-! ## The bounding box of a circle -/

/-- What is no further from a real number than `r` is in the range of radius `r` around it. -/
theorem Exact.mem_around {c p : Exact} {a r : ℝ} (h : c - p = real a) (ha : |a| ≤ r) :
    c - real r ≤ p ∧ p ≤ c + real r := by
  obtain ⟨u, v, rfl, rfl, rfl⟩ := sub_eq_real h
  obtain ⟨h1, h2⟩ := abs_le.1 ha
  simp only [real_sub_real, real_add_real, real_le_real]
  constructor <;> linarith

/-- A valid range of endless radius has every number. -/
theorem Exact.mem_endless {c p : Exact} (h : c - posInf ≤ c + posInf) (hp : p ≠ nan) :
    c - posInf ≤ p ∧ p ≤ c + posInf := by
  cases c <;> simp_all

namespace Shape

/-- The box around a circle. -/
def circleBox {α : Type} [Scalar α] (c : Point α) (r : α) : Box α :=
  ⟨c.x - r, c.y - r, c.x + r, c.y + r⟩

variable {c : Point Exact} {r : Exact}

/-- **The box around a circle has its points.** -/
theorem hasPoint_circleBox {p : Point Exact} (hvalid : (circleBox c r).isValid = true)
    (hr : 0 ≤ r) (hpx : p.x ≠ nan) (hpy : p.y ≠ nan) (hp : c.distance p ≤ r) :
    (circleBox c r).hasPoint p = true := by
  rcases radius_cases hr with rfl | ⟨ρ, rfl, -⟩
  · obtain ⟨hx, hy⟩ := Box.isValid_iff.1 hvalid
    obtain ⟨h1, h2⟩ := mem_endless hx hpx
    obtain ⟨h3, h4⟩ := mem_endless hy hpy
    exact Box.hasPoint_iff.2 ⟨h1, h2, h3, h4⟩
  · obtain ⟨a, b, ha, hb, hax, hby⟩ := abs_le_of_sqrt_le hp
    obtain ⟨h1, h2⟩ := mem_around ha hax
    obtain ⟨h3, h4⟩ := mem_around hb hby
    exact Box.hasPoint_iff.2 ⟨h1, h2, h3, h4⟩

/-- The center of a circle with a valid box around it is a pair of numbers. -/
theorem center_ne_nan (hvalid : (circleBox c r).isValid = true) : c.x ≠ nan ∧ c.y ≠ nan := by
  obtain ⟨hx, hy⟩ := Box.isValid_iff.1 hvalid
  constructor
  · intro hnan
    rw [circleBox, hnan, nan_sub] at hx
    exact not_nan_le hx
  · intro hnan
    rw [circleBox, hnan, nan_sub] at hy
    exact not_nan_le hy

/-- **A box that a circle meets** meets the box around the circle. -/
theorem meets_circleBox {b : Box Exact} (hvalid : (circleBox c r).isValid = true) (hr : 0 ≤ r)
    (hb : b.isValid = true) (h : (circle c r).meets b = true) :
    b.meets (circleBox c r) = true := by
  obtain ⟨hcx, hcy⟩ := center_ne_nan hvalid
  have hnear := Box.hasPoint_nearest hb (le_self.2 hcx) (le_self.2 hcy)
  obtain ⟨hx, -, hy, -⟩ := Box.hasPoint_iff.1 hnear
  have hdist : c.distance (b.nearest c) ≤ r := of_decide_eq_true h
  exact Box.meets_of_hasPoint hnear (hasPoint_circleBox hvalid hr hx.2.1 hy.2.1 hdist)

/-- **A box that a circle covers** is covered by the box around the circle. -/
theorem covers_circleBox {b : Box Exact} (hvalid : (circleBox c r).isValid = true) (hr : 0 ≤ r)
    (hb : b.isValid = true) (h : (circle c r).covers b = true) :
    (circleBox c r).covers b = true := by
  have hcorners := List.all_eq_true.1 h
  refine Box.covers_of_corners fun p hp => ?_
  obtain ⟨hx, -, hy, -⟩ := Box.hasPoint_iff.1 (Box.hasPoint_corners hb p hp)
  exact hasPoint_circleBox hvalid hr hx.2.1 hy.2.1 (of_decide_eq_true (hcorners p hp))

end Shape

end QuadIndex
