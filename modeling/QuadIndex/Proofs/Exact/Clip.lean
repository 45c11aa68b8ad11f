import Mathlib.Analysis.Convex.Segment
import QuadIndex.Proofs.Exact.Segment

/-!
# Clipping in exact arithmetic

A box cuts the parameters of a segment down by its four sides, and no rounding is in the way of what
is left: a parameter passes the cuts exactly if its point is in the box. So the box that a segment
meets is one that has a point of it. If the part that is left has a point inside the box, then its
middle is one, since a side of the box that the middle lies on has both ends of the part, and with
them all of it.

* `Segment.has_iff`: the points of a segment, by their parameters.
* `Segment.clip?_leaves`: the parameters that a box leaves.
* `Segment.meets_iff`: a segment and a box share a point.
* `Segment.entersInside_iff`: a segment has a point inside a box.
-/

namespace QuadIndex

open Exact LawfulScalar

/-! ## Arithmetic on one side -/

namespace Exact

variable {a b t : ℝ} {q low high : Exact}

theorem real_sub_ne_nan {a : ℝ} {x : Exact} (h : x ≠ nan) : real a - x ≠ nan := by
  cases x <;> simp_all

theorem sub_real_ne_nan {a : ℝ} {x : Exact} (h : x ≠ nan) : x - real a ≠ nan := by
  cases x <;> simp_all

theorem div_ne_nan {p : ℝ} {q : Exact} (hp : p ≠ 0) (hq : q ≠ nan) :
    q / real p ≠ nan := by
  cases q with
  | nan => exact absurd rfl hq
  | negInf => rw [negInf_div_real hp]; exact infinite_ne_nan (by simpa using hp)
  | posInf => rw [posInf_div_real hp]; exact infinite_ne_nan (by simpa using hp)
  | real r => rw [real_div_real hp]; exact Exact.noConfusion

/-- A parameter is past the quotient of a cut with a negative slope. -/
theorem div_le_real_iff (ha : a < 0) (hq : q ≠ nan) : q / real a ≤ real t ↔ real (a * t) ≤ q := by
  cases q with
  | nan => exact absurd rfl hq
  | negInf =>
    rw [negInf_div_real ha.ne, infinite_of_pos (by linarith)]
    simp
  | posInf =>
    rw [posInf_div_real ha.ne, infinite_of_neg (by linarith)]
    simp
  | real r =>
    rw [real_div_real ha.ne, real_le_real, real_le_real, div_le_iff_of_neg ha, mul_comm]

/-- A parameter is not past the quotient of a cut with a positive slope. -/
theorem real_le_div_iff (ha : 0 < a) (hq : q ≠ nan) : real t ≤ q / real a ↔ real (a * t) ≤ q := by
  cases q with
  | nan => exact absurd rfl hq
  | negInf =>
    rw [negInf_div_real ha.ne', infinite_of_neg (by linarith)]
    simp
  | posInf =>
    rw [posInf_div_real ha.ne', infinite_of_pos (by linarith)]
    simp
  | real r =>
    rw [real_div_real ha.ne', real_le_real, real_le_real, le_div_iff₀ ha, mul_comm]

/-- The cut at a low side keeps what is not below it. -/
theorem le_real_sub_iff (h : low ≠ nan) :
    real (-b * t) ≤ real a - low ↔ low ≤ real (a + b * t) := by
  cases low with
  | nan => exact absurd rfl h
  | negInf => simp
  | posInf => simp
  | real r =>
    rw [real_sub_real, real_le_real, real_le_real]
    constructor <;> intro h <;> linarith

/-- The cut at a high side keeps what is not above it. -/
theorem le_sub_real_iff (h : high ≠ nan) :
    real (b * t) ≤ high - real a ↔ real (a + b * t) ≤ high := by
  cases high with
  | nan => exact absurd rfl h
  | negInf => simp
  | posInf => simp
  | real r =>
    rw [real_sub_real, real_le_real, real_le_real]
    constructor <;> intro h <;> linarith

/-- What moves along a line is above a low side in the middle of a way, if it is nowhere on the way
below the side, and somewhere above it. -/
theorem lt_middle {u v : ℝ} (hu : low ≤ real (a + b * u)) (hv : low ≤ real (a + b * v))
    (hut : u ≤ t) (htv : t ≤ v) (ht : low < real (a + b * t)) :
    low < real (a + b * ((u + v) / 2)) := by
  cases low with
  | nan => exact absurd ht (fun h => h.1 rfl)
  | posInf => simp at hu
  | negInf => simp [lt_iff, rank, Prod.Lex.toLex_lt_toLex]
  | real r =>
    rw [real_le_real] at hu hv
    rw [real_lt_real] at ht ⊢
    rcases le_total 0 b with hb | hb
    · have hrise : b * t ≤ b * v := mul_le_mul_of_nonneg_left htv hb
      linarith
    · have hfall : b * t ≤ b * u := mul_le_mul_of_nonpos_left hut hb
      linarith

/-- The same of a high side. -/
theorem middle_lt {u v : ℝ} (hu : real (a + b * u) ≤ high) (hv : real (a + b * v) ≤ high)
    (hut : u ≤ t) (htv : t ≤ v) (ht : real (a + b * t) < high) :
    real (a + b * ((u + v) / 2)) < high := by
  cases high with
  | nan => exact absurd ht (fun h => h.2.1 rfl)
  | negInf => simp at hu
  | posInf => simp [lt_iff, rank, Prod.Lex.toLex_lt_toLex]
  | real r =>
    rw [real_le_real] at hu hv
    rw [real_lt_real] at ht ⊢
    rcases le_total 0 b with hb | hb
    · have hrise : b * u ≤ b * t := mul_le_mul_of_nonneg_left hut hb
      linarith
    · have hfall : b * v ≤ b * t := mul_le_mul_of_nonpos_left htv hb
      linarith

end Exact

namespace Box

variable {α : Type} [Scalar α] {b : Box α} {p : Point α}

theorem surrounds_iff : b.surrounds p = true ↔
    (b.minX < p.x ∧ p.x < b.maxX) ∧ b.minY < p.y ∧ p.y < b.maxY := by
  simp only [surrounds, Bool.and_eq_true, decide_eq_true_eq, and_assoc]

theorem hasPoint_of_surrounds [LawfulScalar α] (h : b.surrounds p = true) :
    b.hasPoint p = true := by
  obtain ⟨⟨h1, h2⟩, h3, h4⟩ := surrounds_iff.1 h
  exact hasPoint_iff.2
    ⟨Scalar.le_of_lt h1, Scalar.le_of_lt h2, Scalar.le_of_lt h3, Scalar.le_of_lt h4⟩

/-- A point of a box with real sides is finite. -/
theorem isFinite_of_hasPoint {x₁ y₁ x₂ y₂ : ℝ} {p : Point Exact}
    (h : (mk (real x₁) (real y₁) (real x₂) (real y₂)).hasPoint p = true) : p.isFinite = true := by
  obtain ⟨h1, h2, h3, h4⟩ := hasPoint_iff.1 h
  obtain ⟨x, hx, -⟩ := exists_real_of_mem h1 h2
  obtain ⟨y, hy, -⟩ := exists_real_of_mem h3 h4
  exact Point.isFinite_iff.2 ⟨x, y, by rw [← hx, ← hy]⟩

end Box

/-- A number is between two others exactly if it is on the way from one to the other. -/
theorem mem_between_iff {a b x : ℝ} :
    (min a b ≤ x ∧ x ≤ max a b) ↔ ∃ t, 0 ≤ t ∧ t ≤ 1 ∧ x = a + (b - a) * t := by
  rw [← Set.mem_Icc, ← Set.uIcc, ← segment_eq_uIcc, segment_eq_image', Set.mem_image]
  simp only [Set.mem_Icc, smul_eq_mul, mul_comm, and_assoc, eq_comm]

namespace Segment

variable {s : Segment Exact} {box : Box Exact} {p : Point Exact}

/-! ## The points of a segment -/

theorem pointAt_real (x₁ y₁ x₂ y₂ t : ℝ) :
    (mk ⟨real x₁, real y₁⟩ ⟨real x₂, real y₂⟩).pointAt (real t) =
      ⟨real (x₁ + (x₂ - x₁) * t), real (y₁ + (y₂ - y₁) * t)⟩ := by
  simp [pointAt]

theorem hasPoint_pointAt_iff {x₁ y₁ x₂ y₂ t : ℝ} :
    box.hasPoint ((mk ⟨real x₁, real y₁⟩ ⟨real x₂, real y₂⟩).pointAt (real t)) = true ↔
      (box.minX ≤ real (x₁ + (x₂ - x₁) * t) ∧ real (x₁ + (x₂ - x₁) * t) ≤ box.maxX) ∧
        box.minY ≤ real (y₁ + (y₂ - y₁) * t) ∧ real (y₁ + (y₂ - y₁) * t) ≤ box.maxY := by
  rw [pointAt_real, Box.hasPoint_iff, and_assoc]

/-- A point on the line through the ends, and between them, has one parameter for both of its
coordinates. -/
theorem collinear_iff {x₁ y₁ x₂ y₂ x y : ℝ} :
    ((x₂ - x₁) * (y - y₁) - (y₂ - y₁) * (x - x₁) = 0 ∧ (min x₁ x₂ ≤ x ∧ x ≤ max x₁ x₂) ∧
      min y₁ y₂ ≤ y ∧ y ≤ max y₁ y₂) ↔
    ∃ t, 0 ≤ t ∧ t ≤ 1 ∧ x = x₁ + (x₂ - x₁) * t ∧ y = y₁ + (y₂ - y₁) * t := by
  constructor
  · rintro ⟨hline, hx, hy⟩
    obtain ⟨t, ht0, ht1, htx⟩ := mem_between_iff.1 hx
    by_cases hvertical : x₂ - x₁ = 0
    · -- the height alone tells the points of a vertical segment apart
      obtain ⟨u, hu0, hu1, huy⟩ := mem_between_iff.1 hy
      refine ⟨u, hu0, hu1, ?_, huy⟩
      rw [htx, hvertical, zero_mul, zero_mul]
    · refine ⟨t, ht0, ht1, htx, ?_⟩
      have hy' : (x₂ - x₁) * (y - y₁) = (x₂ - x₁) * ((y₂ - y₁) * t) := by
        rw [htx] at hline
        linarith
      linarith [mul_left_cancel₀ hvertical hy']
  · rintro ⟨t, ht0, ht1, rfl, rfl⟩
    refine ⟨by ring, mem_between_iff.2 ⟨t, ht0, ht1, rfl⟩, mem_between_iff.2 ⟨t, ht0, ht1, rfl⟩⟩

theorem has_real_iff {x₁ y₁ x₂ y₂ x y : ℝ} :
    (mk ⟨real x₁, real y₁⟩ ⟨real x₂, real y₂⟩).has ⟨real x, real y⟩ = true ↔
      (x₂ - x₁) * (y - y₁) - (y₂ - y₁) * (x - x₁) = 0 ∧ (min x₁ x₂ ≤ x ∧ x ≤ max x₁ x₂) ∧
        min y₁ y₂ ≤ y ∧ y ≤ max y₁ y₂ := by
  simp only [has, lesser_real, greater_real, real_sub_real, real_mul_real, real_le_real,
    Bool.and_eq_true, decide_eq_true_eq, Exact.beq_iff, zero_eq, real.injEq, ne_eq, reduceCtorEq,
    not_false_eq_true, true_and, and_assoc]

/-- **The points of a segment** between finite ends, by their parameters. -/
theorem has_iff (hs : s.IsFinite) :
    s.has p = true ↔ ∃ t : ℝ, 0 ≤ t ∧ t ≤ 1 ∧ p = s.pointAt (real t) := by
  obtain ⟨x₁, y₁, x₂, y₂, rfl⟩ := hs.exists_real
  obtain ⟨x, y⟩ := p
  simp only [pointAt_real, Point.mk.injEq]
  constructor
  · intro h
    have hhas := h
    simp only [has, lesser_real, greater_real, Bool.and_eq_true, decide_eq_true_eq] at h
    obtain ⟨⟨⟨⟨-, hx₁⟩, hx₂⟩, hy₁⟩, hy₂⟩ := h
    -- between real numbers, the coordinates are real
    obtain ⟨u, rfl, -⟩ := exists_real_of_mem hx₁ hx₂
    obtain ⟨v, rfl, -⟩ := exists_real_of_mem hy₁ hy₂
    obtain ⟨t, ht0, ht1, rfl, rfl⟩ := collinear_iff.1 (has_real_iff.1 hhas)
    exact ⟨t, ht0, ht1, rfl, rfl⟩
  · rintro ⟨t, ht0, ht1, rfl, rfl⟩
    exact has_real_iff.2 (collinear_iff.2 ⟨t, ht0, ht1, rfl, rfl⟩)

/-- A segment has its ends. -/
theorem has_ends (hs : s.IsFinite) :
    s.has s.a = true ∧ s.has s.b = true := by
  rw [has_iff hs, has_iff hs]
  obtain ⟨x₁, y₁, x₂, y₂, rfl⟩ := hs.exists_real
  simp only [pointAt_real]
  refine ⟨⟨0, le_rfl, zero_le_one, ?_⟩, 1, zero_le_one, le_rfl, ?_⟩
  · simp
  · simp

/-- A point of a segment is finite. -/
theorem isFinite_of_has (hs : s.IsFinite) (h : s.has p = true) : p.isFinite = true := by
  obtain ⟨t, -, -, rfl⟩ := (has_iff hs).1 h
  obtain ⟨x₁, y₁, x₂, y₂, rfl⟩ := hs.exists_real
  rw [pointAt_real]
  exact Point.isFinite_iff.2 ⟨_, _, rfl⟩

/-! ## What cuts leave -/

/-- Parameters of points between the ends, from the first of them to the last. -/
structure IsPart (range : Exact × Exact) : Prop where
  zero_le : 0 ≤ range.1
  ordered : range.1 ≤ range.2
  le_one : range.2 ≤ 1

/-- The whole segment. -/
theorem isPart_whole : IsPart (0, 1) := by
  constructor <;> simp [zero_eq, one_eq]

/-- What a cut keeps of a part is a part. -/
theorem IsPart.cut {slope : ℝ} {q : Exact} {range kept : Exact × Exact} (hrange : IsPart range)
    (hq : q ≠ nan) (h : Segment.cut (real slope) q range = some kept) : IsPart kept := by
  obtain ⟨hzero, hordered, hone⟩ := hrange
  have hfirst : range.1 ≤ range.1 := le_left hordered
  have hlast : range.2 ≤ range.2 := le_right hordered
  unfold Segment.cut at h
  split at h
  · split at h
    · cases h
    · cases h
      exact ⟨hzero, hordered, hone⟩
  · rename_i hslope
    have hne : slope ≠ 0 := fun hs => hslope (by rw [hs]; exact Exact.beq_iff.2 ⟨by simp, rfl⟩)
    have hnum : q / real slope ≤ q / real slope := le_self.2 (div_ne_nan hne hq)
    simp only [zero_eq, real_lt_real] at h
    split at h
    · split at h
      · cases h
      · rename_i hsome
        cases h
        have hfrom := Scalar.le_greater_left (y := q / real slope) hfirst
        have hquot := Scalar.le_greater_right hfirst hnum
        exact ⟨le_trans hzero hfrom, Scalar.le_of_not_lt hlast (le_right hquot) hsome, hone⟩
    · split at h
      · cases h
      · rename_i hsome
        cases h
        have hto := Scalar.lesser_le_left (y := q / real slope) hlast
        have hquot := Scalar.lesser_le_right hlast hnum
        exact ⟨hzero, Scalar.le_of_not_lt (le_left hquot) hfirst hsome, le_trans hto hone⟩

/-- The parameter is in the range. -/
def Keeps (range : Exact × Exact) (t : ℝ) : Prop := range.1 ≤ real t ∧ real t ≤ range.2

/-- **What cuts leave of the parameters**: those with a property, as a range that ends at two of
them, or as nothing if no parameter has it. -/
structure Leaves (left : Option (Exact × Exact)) (P : ℝ → Prop) : Prop where
  isPart : ∀ range ∈ left, IsPart range
  iff : ∀ t, (∃ range ∈ left, Keeps range t) ↔ P t

/-- A part of the segment has real ends. -/
theorem IsPart.exists_real {range : Exact × Exact} (h : IsPart range) :
    ∃ t u : ℝ, range = (real t, real u) ∧ 0 ≤ t ∧ t ≤ u ∧ u ≤ 1 := by
  obtain ⟨first, last⟩ := range
  obtain ⟨hzero, hordered, hone⟩ := h
  obtain ⟨t, rfl, ht, -⟩ := exists_real_of_mem hzero (le_trans hordered hone)
  obtain ⟨u, rfl, -, hu⟩ := exists_real_of_mem (le_trans hzero hordered) hone
  exact ⟨t, u, rfl, ht, real_le_real.1 hordered, hu⟩

theorem leaves_whole : Leaves (some (0, 1)) fun t => 0 ≤ t ∧ t ≤ 1 := by
  constructor
  case isPart =>
    rintro range ⟨⟩
    exact isPart_whole
  case iff =>
    intro t
    simp only [Option.mem_def, Option.some.injEq, exists_eq_left', Keeps, zero_eq, one_eq,
      real_le_real]

/-- A range that is given up if it ends before it starts keeps no parameter then. -/
theorem keeps_ordered_iff {range : Exact × Exact} {t : ℝ} :
    (∃ kept ∈ if range.2 < range.1 then none else some range, Keeps kept t) ↔ Keeps range t := by
  split
  · rename_i hnone
    simp only [Option.mem_def, reduceCtorEq, false_and, exists_false, false_iff]
    exact fun h => (LawfulScalar.lt_iff.1 hnone).2 (le_trans h.1 h.2)
  · simp only [Option.mem_def, Option.some.injEq, exists_eq_left']

/-- **A cut keeps the parameters that it is meant to keep.** -/
theorem keeps_cut_iff {slope t : ℝ} {q : Exact} {range : Exact × Exact} (hq : q ≠ nan)
    (hrange : IsPart range) :
    (∃ kept ∈ cut (real slope) q range, Keeps kept t) ↔
      Keeps range t ∧ real (slope * t) ≤ q := by
  have hfirst : range.1 ≤ range.1 := le_left hrange.ordered
  have hlast : range.2 ≤ range.2 := le_right hrange.ordered
  unfold cut
  split
  · rename_i hzero
    obtain rfl : slope = 0 := real.inj (Exact.beq_iff.1 hzero).2
    rw [zero_mul]
    split
    · rename_i hneg
      have hle : ¬ real 0 ≤ q := (LawfulScalar.lt_iff.1 hneg).2
      simp [hle]
    · rename_i hnonneg
      have hle : real 0 ≤ q := Scalar.le_of_not_lt (le_self.2 hq) (by simp) hnonneg
      simp [hle]
  · rename_i hslope
    have hne : slope ≠ 0 := fun h => hslope (by rw [h]; exact Exact.beq_iff.2 ⟨by simp, rfl⟩)
    have hnum : q / real slope ≤ q / real slope := le_self.2 (div_ne_nan hne hq)
    simp only [zero_eq, real_lt_real]
    rw [keeps_ordered_iff]
    rcases lt_or_gt_of_ne hne with hneg | hpos
    · rw [if_pos hneg, Keeps, Scalar.greater_le_iff hfirst hnum, div_le_real_iff hneg hq, Keeps]
      exact and_right_comm
    · rw [if_neg (not_lt.2 hpos.le), Keeps, Scalar.le_lesser_iff hlast hnum,
        real_le_div_iff hpos hq, Keeps, and_assoc]

/-- A further cut leaves the parameters that it keeps. -/
theorem Leaves.cut {left : Option (Exact × Exact)} {P : ℝ → Prop} {slope : ℝ} {q : Exact}
    (h : Leaves left P) (hq : q ≠ nan) :
    Leaves (left >>= Segment.cut (real slope) q) fun t => P t ∧ real (slope * t) ≤ q := by
  constructor
  case isPart =>
    intro kept hkept
    obtain ⟨range, hrange, hcut⟩ := Option.bind_eq_some_iff.1 hkept
    exact (h.isPart range hrange).cut hq hcut
  case iff =>
    intro t
    rw [← h.iff t]
    constructor
    · rintro ⟨kept, hkept, hkeeps⟩
      obtain ⟨range, hrange, hcut⟩ := Option.bind_eq_some_iff.1 hkept
      obtain ⟨hin, hle⟩ := (keeps_cut_iff hq (h.isPart range hrange)).1 ⟨kept, hcut, hkeeps⟩
      exact ⟨⟨range, hrange, hin⟩, hle⟩
    · rintro ⟨⟨range, hrange, hin⟩, hle⟩
      obtain ⟨kept, hcut, hkeeps⟩ := (keeps_cut_iff hq (h.isPart range hrange)).2 ⟨hin, hle⟩
      exact ⟨kept, Option.bind_eq_some_iff.2 ⟨range, hrange, hcut⟩, hkeeps⟩

theorem Leaves.congr {left : Option (Exact × Exact)} {P Q : ℝ → Prop} (h : Leaves left P)
    (hiff : ∀ t, P t ↔ Q t) : Leaves left Q :=
  ⟨h.isPart, fun t => (h.iff t).trans (hiff t)⟩

/-- The cut at a low side of a box. -/
theorem Leaves.cutLow {left : Option (Exact × Exact)} {P : ℝ → Prop} {a b : ℝ} {low : Exact}
    (h : Leaves left P) (hlow : low ≠ nan) :
    Leaves (left >>= Segment.cut (real (-b)) (real a - low))
      fun t => P t ∧ low ≤ real (a + b * t) :=
  (h.cut (real_sub_ne_nan hlow)).congr fun _ => and_congr_right' (le_real_sub_iff hlow)

/-- The cut at a high side of a box. -/
theorem Leaves.cutHigh {left : Option (Exact × Exact)} {P : ℝ → Prop} {a b : ℝ} {high : Exact}
    (h : Leaves left P) (hhigh : high ≠ nan) :
    Leaves (left >>= Segment.cut (real b) (high - real a))
      fun t => P t ∧ real (a + b * t) ≤ high :=
  (h.cut (sub_real_ne_nan hhigh)).congr fun _ => and_congr_right' (le_sub_real_iff hhigh)

/-- **A box leaves the parameters of the points in it.** -/
theorem clip?_leaves (hs : s.IsFinite) (hbox : box.isValid = true) :
    Leaves (s.clip? box) fun t => (0 ≤ t ∧ t ≤ 1) ∧ box.hasPoint (s.pointAt (real t)) = true := by
  obtain ⟨x₁, y₁, x₂, y₂, rfl⟩ := hs.exists_real
  obtain ⟨hx, hy⟩ := Box.isValid_iff.1 hbox
  have hclip : clip? ⟨⟨real x₁, real y₁⟩, ⟨real x₂, real y₂⟩⟩ box =
      ((((some (0, 1) >>= Segment.cut (real (-(x₂ - x₁))) (real x₁ - box.minX)) >>=
        Segment.cut (real (x₂ - x₁)) (box.maxX - real x₁)) >>=
          Segment.cut (real (-(y₂ - y₁))) (real y₁ - box.minY)) >>=
            Segment.cut (real (y₂ - y₁)) (box.maxY - real y₁)) := by
    simp only [clip?, real_sub_real, neg_real]
    rfl
  rw [hclip]
  refine ((((leaves_whole.cutLow hx.1).cutHigh hx.2.1).cutLow hy.1).cutHigh hy.2.1).congr ?_
  intro t
  rw [hasPoint_pointAt_iff]
  simp only [and_assoc]

/-- **A segment meets a box** if and only if they share a point. -/
theorem meets_iff (hs : s.IsFinite) (hbox : box.isValid = true) :
    s.meets box = true ↔ ∃ p, box.hasPoint p = true ∧ s.has p = true := by
  have hleaves := clip?_leaves hs hbox
  rw [meets, Option.isSome_iff_exists]
  constructor
  · rintro ⟨range, hclip⟩
    obtain ⟨t, u, rfl, -, htu, -⟩ := (hleaves.isPart range hclip).exists_real
    have hkeeps : Keeps (real t, real u) t := ⟨real_le_real.2 le_rfl, real_le_real.2 htu⟩
    obtain ⟨⟨h0, h1⟩, hin⟩ := (hleaves.iff t).1 ⟨_, hclip, hkeeps⟩
    exact ⟨_, hin, (has_iff hs).2 ⟨t, h0, h1, rfl⟩⟩
  · rintro ⟨p, hin, hhas⟩
    obtain ⟨t, h0, h1, rfl⟩ := (has_iff hs).1 hhas
    obtain ⟨range, hclip, -⟩ := (hleaves.iff t).2 ⟨⟨h0, h1⟩, hin⟩
    exact ⟨range, hclip⟩

/-- **A segment enters the inside of a box** if and only if it has a point there. -/
theorem entersInside_iff (hs : s.IsFinite) (hbox : box.isValid = true) :
    s.entersInside box = true ↔ ∃ p, box.surrounds p = true ∧ s.has p = true := by
  have hleaves := clip?_leaves hs hbox
  unfold entersInside
  constructor
  · intro h
    split at h
    · cases h
    · rename_i first last hclip
      obtain ⟨t, u, hrange, h0, htu, h1⟩ := (hleaves.isPart _ hclip).exists_real
      obtain ⟨rfl, rfl⟩ := Prod.mk.inj hrange
      rw [real_add_real, half_real] at h
      exact ⟨_, h, (has_iff hs).2 ⟨(t + u) / 2, by linarith, by linarith, rfl⟩⟩
  · rintro ⟨p, hinside, hhas⟩
    obtain ⟨t, h0, h1, rfl⟩ := (has_iff hs).1 hhas
    obtain ⟨range, hclip, hkeeps⟩ := (hleaves.iff t).2 ⟨⟨h0, h1⟩, Box.hasPoint_of_surrounds hinside⟩
    obtain ⟨u, v, rfl, -, huv, -⟩ := (hleaves.isPart _ hclip).exists_real
    have hends : ∀ w, Keeps (real u, real v) w → box.hasPoint (s.pointAt (real w)) = true :=
      fun w hw => ((hleaves.iff w).1 ⟨_, hclip, hw⟩).2
    obtain ⟨hut, htv⟩ := hkeeps
    rw [real_le_real] at hut htv
    have hu := hends u ⟨real_le_real.2 le_rfl, real_le_real.2 huv⟩
    have hv := hends v ⟨real_le_real.2 huv, real_le_real.2 le_rfl⟩
    obtain ⟨x₁, y₁, x₂, y₂, rfl⟩ := hs.exists_real
    obtain ⟨⟨hux₁, hux₂⟩, huy₁, huy₂⟩ := hasPoint_pointAt_iff.1 hu
    obtain ⟨⟨hvx₁, hvx₂⟩, hvy₁, hvy₂⟩ := hasPoint_pointAt_iff.1 hv
    rw [pointAt_real, Box.surrounds_iff] at hinside
    obtain ⟨⟨h1, h2⟩, h3, h4⟩ := hinside
    rw [hclip]
    dsimp only
    rw [real_add_real, half_real, pointAt_real, Box.surrounds_iff]
    exact ⟨⟨lt_middle hux₁ hvx₁ hut htv h1, middle_lt hux₂ hvx₂ hut htv h2⟩,
      lt_middle huy₁ hvy₁ hut htv h3, middle_lt huy₂ hvy₂ hut htv h4⟩

end Segment

end QuadIndex
