import Mathlib.Analysis.Convex.Function
import QuadIndex.Plane.Polygon
import QuadIndex.Proofs.Box
import QuadIndex.Proofs.Exact.Basic

/-!
# Segments in exact arithmetic

A box with both ends of a segment has all of its points. The place where the ray from a point to the
east crosses the segment is one of them.

* `Segment.mem_of_has`: a box with both ends has all points of the segment.
* `Segment.has_crossing`, `Segment.crossing_mem`: where a ray crosses the segment.
-/

namespace QuadIndex

open Exact LawfulScalar

theorem Point.isFinite_iff {p : Point Exact} :
    p.isFinite = true ↔ ∃ x y, p = ⟨real x, real y⟩ := by
  obtain ⟨x, y⟩ := p
  simp only [isFinite, Bool.and_eq_true, Exact.isFinite_iff, Point.mk.injEq, exists_and_left,
    exists_and_right]

/-- Both ends are finite. -/
structure Segment.IsFinite (s : Segment Exact) : Prop where
  a : s.a.isFinite = true
  b : s.b.isFinite = true

/-- A segment between finite points has four real coordinates. -/
theorem Segment.IsFinite.exists_real {s : Segment Exact} (h : s.IsFinite) :
    ∃ x₁ y₁ x₂ y₂, s = ⟨⟨real x₁, real y₁⟩, ⟨real x₂, real y₂⟩⟩ := by
  obtain ⟨a, b⟩ := s
  obtain ⟨ha, hb⟩ := h
  obtain ⟨x₁, y₁, rfl⟩ := Point.isFinite_iff.1 ha
  obtain ⟨x₂, y₂, rfl⟩ := Point.isFinite_iff.1 hb
  exact ⟨x₁, y₁, x₂, y₂, rfl⟩

/-! ## Arithmetic on one side -/

/-- What is between real numbers is real. -/
theorem Exact.exists_real_of_mem {a b : ℝ} {x : Exact} (h : real a ≤ x) (h' : x ≤ real b) :
    ∃ r, x = real r ∧ a ≤ r ∧ r ≤ b := by
  obtain ⟨r, rfl⟩ :=
    isFinite_iff.1 (isFinite_of_mem (isFinite_iff.2 ⟨a, rfl⟩) (isFinite_iff.2 ⟨b, rfl⟩) h h')
  exact ⟨r, rfl, real_le_real.1 h, real_le_real.1 h'⟩

/-- What is below a real number, and not below another, is real. -/
theorem Exact.isReal_of_mem {a b : ℝ} {x : Exact} (h : ¬ x < real a) (h' : x < real b) :
    ∃ r, x = real r ∧ a ≤ r ∧ r < b := by
  have ha : real a ≤ x := Scalar.le_of_not_lt (le_left (Scalar.le_of_lt h')) (by simp) h
  obtain ⟨l, hl, rfl | ⟨r, rfl, hle⟩⟩ := side_cases (isFinite_iff.2 ⟨a, rfl⟩) ha
  · exact absurd (Scalar.le_of_lt h') (by simp)
  · exact ⟨r, rfl, real_le_real.1 ha, real_lt_real.1 h'⟩

@[simp] theorem Exact.lesser_real {a b : ℝ} : Scalar.lesser (real a) (real b) =
    real (min a b) := by
  have hnum : Scalar.isNaN (real a) = false := Bool.eq_false_iff.2 (by simp)
  rw [Scalar.lesser, hnum, Bool.false_or]
  simp only [decide_eq_true_eq, real_le_real]
  split
  · rename_i h
    rw [min_eq_right h]
  · rename_i h
    rw [min_eq_left (not_le.1 h).le]

@[simp] theorem Exact.greater_real {a b : ℝ} : Scalar.greater (real a) (real b) =
    real (max a b) := by
  have hnum : Scalar.isNaN (real a) = false := Bool.eq_false_iff.2 (by simp)
  rw [Scalar.greater, hnum, Bool.false_or]
  simp only [decide_eq_true_eq, real_le_real]
  split
  · rename_i h
    rw [max_eq_right h]
  · rename_i h
    rw [max_eq_left (not_le.1 h).le]

namespace Segment

variable {α : Type} [Scalar α]

/-- A point of a segment lies in each box with both ends. -/
theorem mem_of_has [LawfulScalar α] {s : Segment α} {box : Box α} {p : Point α}
    (ha : box.hasPoint s.a = true) (hb : box.hasPoint s.b = true) (hp : s.has p = true) :
    box.hasPoint p = true := by
  obtain ⟨ha1, ha2, ha3, ha4⟩ := Box.hasPoint_iff.1 ha
  obtain ⟨hb1, hb2, hb3, hb4⟩ := Box.hasPoint_iff.1 hb
  simp only [has, Bool.and_eq_true, decide_eq_true_eq] at hp
  obtain ⟨⟨⟨⟨-, h1⟩, h2⟩, h3⟩, h4⟩ := hp
  refine Box.hasPoint_iff.2 ⟨?_, ?_, ?_, ?_⟩
  · exact le_trans (Scalar.le_lesser ha1 hb1) h1
  · exact le_trans h2 (Scalar.greater_le ha2 hb2)
  · exact le_trans (Scalar.le_lesser ha3 hb3) h3
  · exact le_trans h4 (Scalar.greater_le ha4 hb4)

/-! ## Crossings -/

/-- Exactly one end of the segment is above the point. -/
def straddles (s : Segment α) (p : Point α) : Bool :=
  decide (p.y < s.b.y) != decide (p.y < s.a.y)

/-- Where the line through the segment has the height of the point. -/
def crossing (s : Segment α) (p : Point α) : α :=
  (s.a.x - s.b.x) * (p.y - s.b.y) / (s.a.y - s.b.y) + s.b.x

theorem straddles_iff {s : Segment α} {p : Point α} : s.straddles p = true ↔
    (¬ p.y < s.a.y ∧ p.y < s.b.y) ∨ (¬ p.y < s.b.y ∧ p.y < s.a.y) := by
  by_cases ha : p.y < s.a.y <;> by_cases hb : p.y < s.b.y <;> simp [straddles, ha, hb]

theorem crossesRay_eq (s : Segment α) (p : Point α) :
    s.crossesRay p = (s.straddles p && decide (p.x < s.crossing p)) := rfl

/-- A line has each height between those of two of its points between the points. -/
theorem crossing_real (x₁ x₂ : ℝ) {y₁ y₂ y : ℝ} (h : (y₁ ≤ y ∧ y < y₂) ∨ (y₂ ≤ y ∧ y < y₁)) :
    min x₁ x₂ ≤ (x₁ - x₂) * (y - y₂) / (y₁ - y₂) + x₂ ∧
      (x₁ - x₂) * (y - y₂) / (y₁ - y₂) + x₂ ≤ max x₁ x₂ := by
  obtain ⟨t, ht, ht0, ht1⟩ : ∃ t, (y - y₂) / (y₁ - y₂) = t ∧ 0 ≤ t ∧ t ≤ 1 := by
    refine ⟨_, rfl, ?_, ?_⟩
    · rcases h with ⟨h1, h2⟩ | ⟨h1, h2⟩
      · exact div_nonneg_of_nonpos (by linarith) (by linarith)
      · exact div_nonneg (by linarith) (by linarith)
    · rcases h with ⟨h1, h2⟩ | ⟨h1, h2⟩
      · exact (div_le_one_of_neg (by linarith)).2 (by linarith)
      · exact (div_le_one (by linarith)).2 (by linarith)
  have hcombo : (x₁ - x₂) * (y - y₂) / (y₁ - y₂) + x₂ = t • x₁ + (1 - t) • x₂ := by
    rw [mul_div_assoc, ht, smul_eq_mul, smul_eq_mul]
    ring
  rw [hcombo]
  exact ⟨Convex.min_le_combo x₁ x₂ ht0 (by linarith) (by ring),
    Convex.combo_le_max x₁ x₂ ht0 (by linarith) (by ring)⟩

/-- A point is at a real height if that is between the heights of two real points. -/
theorem straddles_real {x₁ y₁ x₂ y₂ : ℝ} {p : Point Exact}
    (h : (mk ⟨real x₁, real y₁⟩ ⟨real x₂, real y₂⟩).straddles p = true) :
    ∃ y : ℝ, p.y = real y ∧ ((y₁ ≤ y ∧ y < y₂) ∨ (y₂ ≤ y ∧ y < y₁)) := by
  rcases straddles_iff.1 h with ⟨h1, h2⟩ | ⟨h1, h2⟩
  · obtain ⟨y, hy, hy1, hy2⟩ := isReal_of_mem h1 h2
    exact ⟨y, hy, Or.inl ⟨hy1, hy2⟩⟩
  · obtain ⟨y, hy, hy1, hy2⟩ := isReal_of_mem h1 h2
    exact ⟨y, hy, Or.inr ⟨hy1, hy2⟩⟩

/-- A ray crosses a segment if one end is above it and the other is not, and the line through them
is further east at its height. -/
theorem crossesRay_real_iff {x₁ y₁ x₂ y₂ x y : ℝ} :
    (mk ⟨real x₁, real y₁⟩ ⟨real x₂, real y₂⟩).crossesRay ⟨real x, real y⟩ = true ↔
      ¬ (y < y₁ ↔ y < y₂) ∧ x < (x₁ - x₂) * (y - y₂) / (y₁ - y₂) + x₂ := by
  have hstraddles : (mk ⟨real x₁, real y₁⟩ ⟨real x₂, real y₂⟩).straddles ⟨real x, real y⟩ = true ↔
      ¬ (y < y₁ ↔ y < y₂) := by
    simp only [straddles, real_lt_real, bne_iff_ne, ne_eq, decide_eq_decide]
    exact not_congr iff_comm
  rw [crossesRay_eq, Bool.and_eq_true, hstraddles, decide_eq_true_eq]
  refine and_congr_right fun hne => ?_
  have hslope : y₁ - y₂ ≠ 0 := fun h => hne (by rw [sub_eq_zero.1 h])
  simp only [crossing, real_sub_real, real_mul_real, real_div_real hslope, real_add_real,
    real_lt_real]

/-- A line that is at a height between those of two of its points has a slope. -/
theorem slope_ne_zero {y₁ y₂ y : ℝ} (h : (y₁ ≤ y ∧ y < y₂) ∨ (y₂ ≤ y ∧ y < y₁)) :
    y₁ - y₂ ≠ 0 := by
  intro heq
  rcases h with ⟨h1, h2⟩ | ⟨h1, h2⟩ <;> linarith

theorem crossing_eq (x₁ x₂ : ℝ) {y₁ y₂ y : ℝ} {p : Point Exact} (hy : p.y = real y)
    (hslope : y₁ - y₂ ≠ 0) : (mk ⟨real x₁, real y₁⟩ ⟨real x₂, real y₂⟩).crossing p =
      real ((x₁ - x₂) * (y - y₂) / (y₁ - y₂) + x₂) := by
  simp only [crossing, hy, real_sub_real, real_mul_real, real_div_real hslope, real_add_real]

/-- **Where a ray is at a segment**, that has a point. -/
theorem has_crossing {s : Segment Exact} {p : Point Exact} (hs : s.IsFinite)
    (h : s.straddles p = true) : s.has ⟨s.crossing p, p.y⟩ = true := by
  obtain ⟨x₁, y₁, x₂, y₂, rfl⟩ := hs.exists_real
  obtain ⟨y, hy, hmem⟩ := straddles_real h
  have hslope := slope_ne_zero hmem
  have hline : (x₂ - x₁) * (y - y₁) -
      (y₂ - y₁) * ((x₁ - x₂) * (y - y₂) / (y₁ - y₂) + x₂ - x₁) = 0 := by
    field_simp
    ring
  have hheight : min y₁ y₂ ≤ y ∧ y ≤ max y₁ y₂ := by
    rcases hmem with ⟨h1, h2⟩ | ⟨h1, h2⟩
    · exact ⟨min_le_of_left_le h1, le_max_of_le_right h2.le⟩
    · exact ⟨min_le_of_right_le h1, le_max_of_le_left h2.le⟩
  obtain ⟨hmin, hmax⟩ := crossing_real x₁ x₂ hmem
  rw [crossing_eq x₁ x₂ hy hslope, hy]
  simp only [has, lesser_real, greater_real, real_sub_real, real_mul_real, real_le_real,
    Bool.and_eq_true, decide_eq_true_eq, Exact.beq_iff, zero_eq, real.injEq]
  exact ⟨⟨⟨⟨⟨Exact.noConfusion, hline⟩, hmin⟩, hmax⟩, hheight.1⟩, hheight.2⟩

/-- Where a ray crosses a segment, and where it starts, is in the range of each box with both
ends. -/
theorem crossing_mem {s : Segment Exact} {p : Point Exact} {box : Box Exact}
    (hs : s.IsFinite) (h : s.straddles p = true) (hboxA : box.hasPoint s.a = true)
    (hboxB : box.hasPoint s.b = true) :
    box.minX ≤ s.crossing p ∧ s.crossing p ≤ box.maxX ∧ box.minY ≤ p.y ∧ p.y ≤ box.maxY :=
  Box.hasPoint_iff.1 (mem_of_has hboxA hboxB (has_crossing hs h))

end Segment

end QuadIndex
