import Mathlib.Topology.Order.IntermediateValue
import QuadIndex.Proofs.Exact.Polygon

/-!
# Parity along a way

The ray from a point to the east crosses an odd number of edges of a polygon or an even one. As the
point moves along a segment, its way, that changes only where the way meets the polygon. If it meets
no edge, and goes up, then all of an edge that is at a height of the way is on one side of it. Only
an edge on the east side is crossed, at the start of the way if it passes the height of that and at
the end likewise, so what changes in between is counted by its ends that are at a height of the way.
Along a ring, these are taken up and given back an even number of times.

* `Segment.exists_isBeside`: an edge apart from an upward way is on one side of it.
* `Segment.crossesRay_ne_eq`: whether the crossing of an edge changes along the way, by its ends.
* `Polygon.oddCrossings_eq`: the parity of the crossings is the same all along a way that meets no
  edge.
-/

namespace QuadIndex

open Exact LawfulScalar

namespace Segment

section

variable {α : Type} [Scalar α]

/-- On which side of the line through the ends a point is. It is below zero to the east of a
segment that goes up. -/
def turn (s : Segment α) (p : Point α) : α :=
  (s.b.x - s.a.x) * (p.y - s.a.y) - (s.b.y - s.a.y) * (p.x - s.a.x)

/-- The point is at a height of the segment above its start, and to the east of it. -/
def hasEast (s : Segment α) (p : Point α) : Bool :=
  (decide (s.a.y < p.y) && !decide (s.b.y < p.y)) && decide (s.turn p < 0)

/-- The segment with its ends exchanged. -/
def reverse (s : Segment α) : Segment α := ⟨s.b, s.a⟩

/-- The two segments have no point in common. -/
def Apart (s t : Segment α) : Prop := ∀ p, s.has p = true → ¬ t.has p = true

end

/-- The heights of a segment that goes up. -/
def strip (s : Segment Exact) : Box Exact := ⟨negInf, s.a.y, posInf, s.b.y⟩

/-- As far as the segment is at a height of the way, it is all to the east of the way, or none of it
is. -/
def IsBeside (s way : Segment Exact) (east : Bool) : Prop :=
  ∀ v, s.has v = true → way.strip.hasPoint v = true → decide (way.turn v < 0) = east

variable {s way : Segment Exact} {p u v w : Point Exact}

theorem hasPoint_strip_iff (hp : p.isFinite = true) :
    s.strip.hasPoint p = true ↔ s.a.y ≤ p.y ∧ p.y ≤ s.b.y := by
  obtain ⟨x, y, rfl⟩ := Point.isFinite_iff.1 hp
  simp [Box.hasPoint_iff, strip]

theorem turn_real (x₁ y₁ x₂ y₂ x y : ℝ) :
    (mk ⟨real x₁, real y₁⟩ ⟨real x₂, real y₂⟩).turn ⟨real x, real y⟩ =
      real ((x₂ - x₁) * (y - y₁) - (y₂ - y₁) * (x - x₁)) := by
  simp only [turn, real_sub_real, real_mul_real]

/-! ## Points of a segment -/

theorem IsFinite.reverse (hs : s.IsFinite) : s.reverse.IsFinite := ⟨hs.b, hs.a⟩

theorem has_reverse_iff (hs : s.IsFinite) : s.reverse.has p = true ↔ s.has p = true := by
  rw [has_iff hs, has_iff hs.reverse]
  obtain ⟨x₁, y₁, x₂, y₂, rfl⟩ := hs.exists_real
  simp only [Segment.reverse, pointAt_real]
  constructor <;>
  · rintro ⟨t, h0, h1, rfl⟩
    refine ⟨1 - t, by linarith, by linarith, ?_⟩
    congr 2 <;> ring

/-- A segment has what is between two of its points. -/
theorem has_of_between (hs : s.IsFinite) (hu : s.has u = true) (hv : s.has v = true)
    (hw : (mk u v).has w = true) : s.has w = true := by
  have huv : (mk u v).IsFinite := ⟨isFinite_of_has hs hu, isFinite_of_has hs hv⟩
  obtain ⟨t, ht0, ht1, rfl⟩ := (has_iff hs).1 hu
  obtain ⟨t', ht0', ht1', rfl⟩ := (has_iff hs).1 hv
  obtain ⟨r, hr0, hr1, rfl⟩ := (has_iff huv).1 hw
  -- its parameter is between those of the two points
  obtain ⟨hmin, hmax⟩ := mem_between_iff.2 ⟨r, hr0, hr1, rfl⟩
  refine (has_iff hs).2 ⟨t + (t' - t) * r, (le_min ht0 ht0').trans hmin,
    hmax.trans (max_le ht1 ht1'), ?_⟩
  obtain ⟨x₁, y₁, x₂, y₂, rfl⟩ := hs.exists_real
  simp only [pointAt_real]
  congr 2 <;> ring

/-- A point on the line through the ends of an upward segment, at a height between them, is a point
of the segment. -/
theorem has_of_turn_eq_zero (hs : s.IsFinite) (hup : s.a.y < s.b.y) (hp : p.isFinite = true)
    (hin : s.strip.hasPoint p = true) (h : s.turn p = 0) : s.has p = true := by
  rw [has_iff hs]
  obtain ⟨x₁, y₁, x₂, y₂, rfl⟩ := hs.exists_real
  obtain ⟨x, y, rfl⟩ := Point.isFinite_iff.1 hp
  obtain ⟨hy₁, hy₂⟩ := (hasPoint_strip_iff hp).1 hin
  rw [real_le_real] at hy₁ hy₂
  rw [turn_real, zero_eq] at h
  have hturn := real.inj h
  have hrise : 0 < y₂ - y₁ := sub_pos.2 (real_lt_real.1 hup)
  refine ⟨(y - y₁) / (y₂ - y₁), div_nonneg (by linarith) hrise.le,
    (div_le_one hrise).2 (by linarith), ?_⟩
  rw [pointAt_real]
  congr 2
  · field_simp
    linarith
  · field_simp
    ring

/-- What is between two points on different sides of a line meets the line. -/
theorem exists_turn_eq_zero (hs : s.IsFinite) (huv : (mk u v).IsFinite) (hu : s.turn u < 0)
    (hv : ¬ s.turn v < 0) : ∃ w, (mk u v).has w = true ∧ s.turn w = 0 := by
  obtain ⟨x₁, y₁, x₂, y₂, rfl⟩ := hs.exists_real
  obtain ⟨x, y, rfl⟩ := Point.isFinite_iff.1 huv.a
  obtain ⟨x', y', rfl⟩ := Point.isFinite_iff.1 huv.b
  rw [turn_real, zero_eq, real_lt_real] at hu hv
  -- the turn along the segment is continuous
  let f : ℝ → ℝ := fun t =>
    (x₂ - x₁) * (y + (y' - y) * t - y₁) - (y₂ - y₁) * (x + (x' - x) * t - x₁)
  have hf : Continuous f := by fun_prop
  have hzero : (0 : ℝ) ∈ Set.Icc (f 0) (f 1) := by
    constructor
    · simpa [f] using hu.le
    · simpa [f] using hv
  obtain ⟨t, ⟨ht0, ht1⟩, ht⟩ := intermediate_value_Icc zero_le_one hf.continuousOn hzero
  refine ⟨_, (has_iff huv).2 ⟨t, ht0, ht1, rfl⟩, ?_⟩
  rw [pointAt_real, turn_real, zero_eq]
  exact congrArg real ht

/-! ## Sides of a way -/

/-- **A segment apart from an upward way is beside it**, on one side or the other. -/
theorem exists_isBeside (hs : s.IsFinite) (hway : way.IsFinite) (hup : way.a.y < way.b.y)
    (hapart : s.Apart way) : ∃ east, s.IsBeside way east := by
  by_cases hsome : ∃ u, s.has u = true ∧ way.strip.hasPoint u = true ∧ way.turn u < 0
  · refine ⟨true, fun v hv hin => ?_⟩
    obtain ⟨u, hu, hinU, hturn⟩ := hsome
    by_contra hother
    -- between two points on different sides, the segment would meet the way
    have huv : (mk u v).IsFinite := ⟨isFinite_of_has hs hu, isFinite_of_has hs hv⟩
    obtain ⟨w, hw, hzero⟩ := exists_turn_eq_zero hway huv hturn (by simpa using hother)
    have hhas := has_of_between hs hu hv hw
    have hinW := mem_of_has hinU hin hw
    exact hapart w hhas (has_of_turn_eq_zero hway hup (isFinite_of_has hs hhas) hinW hzero)
  · refine ⟨false, fun v hv hin => decide_eq_false fun hturn => ?_⟩
    exact hsome ⟨v, hv, hin, hturn⟩

/-- At the height of an end of an upward segment, the points to the east of that end are those on
the east side. -/
theorem turn_lt_zero_iff (hs : s.IsFinite) (hup : s.a.y < s.b.y) (hp : p = s.a ∨ p = s.b) {x : ℝ} :
    s.turn ⟨real x, p.y⟩ < 0 ↔ p.x < real x := by
  obtain ⟨x₁, y₁, x₂, y₂, rfl⟩ := hs.exists_real
  have hrise : 0 < y₂ - y₁ := sub_pos.2 (real_lt_real.1 hup)
  rcases hp with rfl | rfl
  · have hturn : (x₂ - x₁) * (y₁ - y₁) - (y₂ - y₁) * (x - x₁) = -((y₂ - y₁) * (x - x₁)) := by ring
    rw [turn_real, hturn, zero_eq, real_lt_real, real_lt_real, neg_lt_zero,
      mul_pos_iff_of_pos_left hrise, sub_pos]
  · have hturn : (x₂ - x₁) * (y₂ - y₁) - (y₂ - y₁) * (x - x₁) = -((y₂ - y₁) * (x - x₂)) := by ring
    rw [turn_real, hturn, zero_eq, real_lt_real, real_lt_real, neg_lt_zero,
      mul_pos_iff_of_pos_left hrise, sub_pos]

/-- From an end of an upward way, a ray crosses a segment beside it if the segment passes the height
of the end, on the east side. -/
theorem IsBeside.crossesRay_eq {east : Bool} (h : s.IsBeside way east) (hs : s.IsFinite)
    (hway : way.IsFinite) (hup : way.a.y < way.b.y) (hp : p = way.a ∨ p = way.b) :
    s.crossesRay p = (s.straddles p && east) := by
  rw [Segment.crossesRay_eq]
  by_cases hstraddles : s.straddles p = true
  · have hhas := has_crossing hs hstraddles
    have hfinite := isFinite_of_has hs hhas
    obtain ⟨x, y, hxy⟩ := Point.isFinite_iff.1 hfinite
    have hin : way.strip.hasPoint ⟨s.crossing p, p.y⟩ = true := by
      rw [hasPoint_strip_iff hfinite]
      rcases hp with rfl | rfl
      · exact ⟨le_left (Scalar.le_of_lt hup), Scalar.le_of_lt hup⟩
      · exact ⟨Scalar.le_of_lt hup, le_right (Scalar.le_of_lt hup)⟩
    have hside := h _ hhas hin
    rw [(Point.mk.inj hxy).1] at hside ⊢
    rw [← hside, decide_eq_decide.2 (turn_lt_zero_iff hway hup hp)]
  · rw [Bool.not_eq_true] at hstraddles
    rw [hstraddles, Bool.false_and, Bool.false_and]

/-- A point of a segment beside an upward way is to the east of the way if it is at a height of it,
on the east side. -/
theorem IsBeside.hasEast_eq {east : Bool} (h : s.IsBeside way east) (hs : s.IsFinite)
    (hway : way.IsFinite) (hv : s.has v = true) :
    way.hasEast v = ((decide (way.a.y < v.y) && !decide (way.b.y < v.y)) && east) := by
  rw [hasEast]
  by_cases hheight : (decide (way.a.y < v.y) && !decide (way.b.y < v.y)) = true
  · have hin : way.strip.hasPoint v = true := by
      have hfinite := isFinite_of_has hs hv
      rw [hasPoint_strip_iff hfinite]
      obtain ⟨x, y, rfl⟩ := Point.isFinite_iff.1 hfinite
      obtain ⟨x₂, y₂, hb⟩ := Point.isFinite_iff.1 hway.b
      simp only [Bool.and_eq_true, Bool.not_eq_true', decide_eq_true_eq, decide_eq_false_iff_not,
        hb, real_lt_real, not_lt] at hheight
      rw [hb, real_le_real]
      exact ⟨Scalar.le_of_lt hheight.1, hheight.2⟩
    rw [h v hv hin]
  · rw [Bool.not_eq_true] at hheight
    rw [hheight, Bool.false_and, Bool.false_and]

/-! ## Crossings along a way -/

/-- **The crossing of an edge changes along an upward way** if its ends are not both, or neither, to
the east of the way at a height of it. -/
theorem crossesRay_ne_eq (hs : s.IsFinite) (hway : way.IsFinite) (hup : way.a.y < way.b.y)
    (hapart : s.Apart way) :
    (s.crossesRay way.a != s.crossesRay way.b) = (way.hasEast s.b != way.hasEast s.a) := by
  obtain ⟨east, hbeside⟩ := exists_isBeside hs hway hup hapart
  obtain ⟨hstart, hend⟩ := has_ends hs
  rw [hbeside.crossesRay_eq hs hway hup (Or.inl rfl),
    hbeside.crossesRay_eq hs hway hup (Or.inr rfl), hbeside.hasEast_eq hs hway hstart,
    hbeside.hasEast_eq hs hway hend, straddles, straddles]
  -- what is above the end of the way is above its start
  have habove : ∀ v : Point Exact, way.b.y < v.y → way.a.y < v.y :=
    fun v h => Scalar.lt_of_lt_of_le hup (Scalar.le_of_lt h)
  have hbool : ∀ a a' b b' e : Bool, (a' = true → a = true) → (b' = true → b = true) →
      ((b != a && e) != (b' != a' && e)) = ((b && !b' && e) != (a && !a' && e)) := by decide
  exact hbool _ _ _ _ _ (by simpa using habove s.a) (by simpa using habove s.b)

/-- Along a way of one height, no crossing of an edge apart from it changes. -/
theorem crossesRay_eq_of_level (hs : s.IsFinite) (hway : way.IsFinite)
    (hlevel : way.a.y = way.b.y) (hapart : s.Apart way) :
    s.crossesRay way.a = s.crossesRay way.b := by
  have hstraddles : s.straddles way.a = s.straddles way.b := by
    rw [straddles, straddles, hlevel]
  have hcrossing : s.crossing way.a = s.crossing way.b := by
    rw [crossing, crossing, hlevel]
  rw [crossesRay_eq, crossesRay_eq, ← hstraddles, ← hcrossing]
  by_cases h : s.straddles way.a = true
  · have hhas := has_crossing hs h
    have hoff := hapart _ hhas
    obtain ⟨x, y, hxy⟩ := Point.isFinite_iff.1 (isFinite_of_has hs hhas)
    rw [hxy] at hoff
    obtain ⟨hx, hy⟩ := Point.mk.inj hxy
    obtain ⟨x₁, y₁, x₂, y₂, rfl⟩ := hway.exists_real
    obtain rfl := real.inj hlevel
    obtain rfl := real.inj hy
    rw [hx]
    congr 1
    rw [decide_eq_decide, real_lt_real, real_lt_real]
    -- a crossing between the ends of the way would be a point of it
    by_contra hbetween
    refine hoff (has_real_iff.2 ⟨by ring, ⟨?_, ?_⟩, by simp⟩)
    · by_contra hlt
      rw [min_le_iff, not_or, not_le, not_le] at hlt
      exact hbetween (iff_of_false hlt.1.not_gt hlt.2.not_gt)
    · by_contra hgt
      rw [le_max_iff, not_or, not_le, not_le] at hgt
      exact hbetween (iff_of_true hgt.1 hgt.2)
  · rw [Bool.not_eq_true] at h
    rw [h, Bool.false_and, Bool.false_and]

end Segment

namespace Polygon

variable {g : Polygon Exact} {way : Segment Exact}

/-- Of two properties that differ an even number of times, both hold an even number of times, or
both an odd number. -/
theorem countP_mod_two_eq {β : Type} {f h : β → Bool} {l : List β}
    (hdiffer : l.countP (fun x => f x != h x) % 2 = 0) : l.countP f % 2 = l.countP h % 2 := by
  have hsum : (l.countP f + l.countP h) % 2 = l.countP (fun x => f x != h x) % 2 := by
    clear hdiffer
    induction l with
    | nil => rfl
    | cons x l ih =>
      simp only [List.countP_cons]
      cases f x <;> cases h x <;> simp <;> omega
  omega

/-- Along an upward way that meets no edge, the parity of the crossings stays the same. -/
theorem oddCrossings_eq_of_up (hg : ∀ v ∈ g.vertices, v.isFinite = true) (hway : way.IsFinite)
    (hup : way.a.y < way.b.y) (hapart : ∀ s ∈ g.edges, s.Apart way) :
    g.oddCrossings way.a = g.oddCrossings way.b := by
  have hchange : ∀ s ∈ g.edges, (s.crossesRay way.a != s.crossesRay way.b) = true ↔
      (way.hasEast s.b != way.hasEast s.a) = true := by
    intro s hs
    rw [Segment.crossesRay_ne_eq (isFinite_of_mem_edges hg hs) hway hup (hapart s hs)]
  have heven : g.edges.countP (fun s => s.crossesRay way.a != s.crossesRay way.b) % 2 = 0 := by
    rw [List.countP_congr hchange]
    exact g.even_changes way.hasEast
  rw [oddCrossings, oddCrossings, countP_mod_two_eq heven]

/-- **Along a way that meets no edge, the parity of the crossings stays the same.** -/
theorem oddCrossings_eq (hg : ∀ v ∈ g.vertices, v.isFinite = true) (hway : way.IsFinite)
    (hapart : ∀ s ∈ g.edges, s.Apart way) : g.oddCrossings way.a = g.oddCrossings way.b := by
  obtain ⟨x₁, y₁, ha⟩ := Point.isFinite_iff.1 hway.a
  obtain ⟨x₂, y₂, hb⟩ := Point.isFinite_iff.1 hway.b
  rcases lt_trichotomy y₁ y₂ with hlt | heq | hgt
  · exact oddCrossings_eq_of_up hg hway (by rwa [ha, hb, real_lt_real]) hapart
  · have hcrosses : ∀ s ∈ g.edges, s.crossesRay way.a = true ↔ s.crossesRay way.b = true := by
      intro s hs
      rw [Segment.crossesRay_eq_of_level (isFinite_of_mem_edges hg hs) hway (by rw [ha, hb, heq])
        (hapart s hs)]
    rw [oddCrossings, oddCrossings, List.countP_congr hcrosses]
  · -- a way down is a way up from its end
    have hback : ∀ s ∈ g.edges, s.Apart way.reverse :=
      fun s hs p hp h => hapart s hs p hp ((Segment.has_reverse_iff hway).1 h)
    have hup : way.b.y < way.a.y := by rwa [ha, hb, real_lt_real]
    exact (oddCrossings_eq_of_up hg hway.reverse hup hback).symm

end Polygon

end QuadIndex
