import QuadIndex.Proofs.Exact.Box
import QuadIndex.Proofs.Exact.Parity

/-!
# Points that a polygon and a box share

A polygon meets a box by a vertex in the box, by an edge that runs through it, or by its south-west
corner. One corner is enough: if no edge runs through the box, then the parity of the crossings is
the same all over it. Nor does it matter that the corner of an endless box may be no point of the
plane, since an endless box that no edge runs through lies outside the polygon.

* `Polygon.exists_square`: a square with all vertices, and with them all of the polygon.
* `Polygon.oddCrossings_eq_of_not_meets`: the parity is the same all over a box that no edge meets.
* `Polygon.meets_iff_exists_point`: a polygon meets a box if and only if they share a point.
-/

namespace QuadIndex

open Exact LawfulScalar

namespace Polygon

variable {g : Polygon Exact} {b : Box Exact} {p q : Point Exact}

/-! ## A square around a polygon -/

/-- The square around the origin that goes `r` to each side. -/
def square (r : ℝ) : Box Exact := ⟨real (-r), real (-r), real r, real r⟩

theorem hasPoint_square_iff {r x y : ℝ} :
    (square r).hasPoint ⟨real x, real y⟩ = true ↔ |x| ≤ r ∧ |y| ≤ r := by
  simp only [Box.hasPoint_iff, square, real_le_real, abs_le, and_assoc]

/-- **Some square has all vertices** of a polygon, if these are finite. -/
theorem exists_square (hg : ∀ v ∈ g.vertices, v.isFinite = true) :
    ∃ r : ℝ, g.HullIn (square r) := by
  obtain ⟨vertices⟩ := g
  simp only [HullIn]
  induction vertices with
  | nil => exact ⟨0, by simp⟩
  | cons v vs ih =>
    obtain ⟨hv, hvs⟩ := List.forall_mem_cons.1 hg
    obtain ⟨r, hr⟩ := ih hvs
    obtain ⟨x, y, rfl⟩ := Point.isFinite_iff.1 hv
    refine ⟨max r (max |x| |y|), List.forall_mem_cons.2 ⟨⟨hv, ?_⟩, fun w hw => ?_⟩⟩
    · rw [hasPoint_square_iff]
      exact ⟨le_max_of_le_right (le_max_left _ _), le_max_of_le_right (le_max_right _ _)⟩
    · obtain ⟨hfinite, hin⟩ := hr w hw
      obtain ⟨x', y', rfl⟩ := Point.isFinite_iff.1 hfinite
      rw [hasPoint_square_iff] at hin ⊢
      exact ⟨hfinite, le_max_of_le_left hin.1, le_max_of_le_left hin.2⟩

/-- A point of a polygon is finite. -/
theorem isFinite_of_hasPoint (hg : ∀ v ∈ g.vertices, v.isFinite = true)
    (hp : g.hasPoint p = true) : p.isFinite = true := by
  obtain ⟨r, hsquare⟩ := exists_square hg
  exact Box.isFinite_of_hasPoint (hsquare.hasPoint hp)

theorem isFinite_of_onBoundary (hg : ∀ v ∈ g.vertices, v.isFinite = true)
    (hp : g.onBoundary p = true) : p.isFinite = true := by
  obtain ⟨r, hsquare⟩ := exists_square hg
  exact Box.isFinite_of_hasPoint (hsquare.of_onBoundary hp)

/-! ## Boxes that no edge meets -/

/-- A test of the edges for points of some kind finds out if such a point is on an edge. -/
theorem any_edges_iff {test : Segment Exact → Bool} {P : Point Exact → Prop}
    (h : ∀ s ∈ g.edges, test s = true ↔ ∃ p, P p ∧ s.has p = true) :
    g.edges.any test = true ↔ ∃ p, P p ∧ g.onBoundary p = true := by
  simp only [onBoundary, List.any_eq_true]
  constructor
  · rintro ⟨s, hs, htest⟩
    obtain ⟨p, hp, hhas⟩ := (h s hs).1 htest
    exact ⟨p, hp, s, hs, hhas⟩
  · rintro ⟨p, hp, s, hs, hhas⟩
    exact ⟨s, hs, (h s hs).2 ⟨p, hp, hhas⟩⟩

/-- Some edge meets a box if and only if the box has a point on an edge. -/
theorem any_meets_iff (hg : ∀ v ∈ g.vertices, v.isFinite = true) (hb : b.isValid = true) :
    g.edges.any (·.meets b) = true ↔ ∃ p, b.hasPoint p = true ∧ g.onBoundary p = true := by
  exact any_edges_iff fun s hs => Segment.meets_iff (isFinite_of_mem_edges hg hs) hb

/-- **The parity of the crossings is the same all over a box** without a point of an edge. -/
theorem oddCrossings_eq_of_not_meets (hg : ∀ v ∈ g.vertices, v.isFinite = true)
    (hoff : ∀ p, b.hasPoint p = true → ¬ g.onBoundary p = true)
    (hp : b.hasPoint p = true) (hq : b.hasPoint q = true) (hpf : p.isFinite = true)
    (hqf : q.isFinite = true) : g.oddCrossings p = g.oddCrossings q := by
  let way : Segment Exact := ⟨p, q⟩
  have hway : way.IsFinite := ⟨hpf, hqf⟩
  have hapart : ∀ s ∈ g.edges, s.Apart way := by
    intro s hs v hv hin
    exact hoff v (Segment.mem_of_has hp hq hin) (List.any_eq_true.2 ⟨s, hs, hv⟩)
  have hparity : g.oddCrossings way.a = g.oddCrossings way.b := oddCrossings_eq hg hway hapart
  exact hparity

/-- A box with a point has one that is as far to the low end of a side as that goes, or else beyond
a bound. -/
theorem exists_low {low : Exact} {x r : ℝ} (h : low ≤ real x) :
    ∃ y : ℝ, low ≤ real y ∧ y ≤ x ∧ (-r ≤ y → low = real y) := by
  cases low with
  | nan => exact absurd h not_nan_le
  | posInf => simp at h
  | real l => exact ⟨l, by simp, real_le_real.1 h, fun _ => rfl⟩
  | negInf =>
    refine ⟨min x (-r - 1), by simp, min_le_left _ _, fun hr => ?_⟩
    have hbeyond := min_le_right x (-r - 1)
    linarith

/-- **If no edge meets a box that has a point inside a ring, the south-west corner of the box is
inside.** -/
theorem oddCrossings_corner (hg : ∀ v ∈ g.vertices, v.isFinite = true)
    (hoff : ∀ p, b.hasPoint p = true → ¬ g.onBoundary p = true) (hp : b.hasPoint p = true)
    (hodd : g.oddCrossings p = true) : g.oddCrossings ⟨b.minX, b.minY⟩ = true := by
  obtain ⟨r, hsquare⟩ := exists_square hg
  have hpf := Box.isFinite_of_hasPoint (hsquare.of_oddCrossings hodd)
  obtain ⟨x, y, rfl⟩ := Point.isFinite_iff.1 hpf
  obtain ⟨hx₁, hx₂, hy₁, hy₂⟩ := Box.hasPoint_iff.1 hp
  obtain ⟨u, hu, hux, hlowX⟩ := exists_low hx₁
  obtain ⟨v, hv, hvy, hlowY⟩ := exists_low hy₁
  have hin : b.hasPoint ⟨real u, real v⟩ = true := Box.hasPoint_iff.2
    ⟨hu, le_trans (real_le_real.2 hux) hx₂, hv, le_trans (real_le_real.2 hvy) hy₂⟩
  have hqf : (⟨real u, real v⟩ : Point Exact).isFinite = true := Point.isFinite_iff.2 ⟨u, v, rfl⟩
  have hoddQ : g.oddCrossings ⟨real u, real v⟩ = true := by
    rw [← oddCrossings_eq_of_not_meets hg hoff hp hin hpf hqf, hodd]
  -- so that point is not beyond the square, and is the corner
  have hclose := hasPoint_square_iff.1 (hsquare.of_oddCrossings hoddQ)
  rw [hlowX (neg_le_of_abs_le hclose.1), hlowY (neg_le_of_abs_le hclose.2)]
  exact hoddQ

/-! ## Meeting a box -/

/-- Each vertex is the start of an edge. -/
theorem map_a_edges {α : Type} (g : Polygon α) : g.edges.map (·.a) = g.vertices := by
  have hlen : g.vertices.length ≤ (g.vertices.drop 1 ++ g.vertices.take 1).length := by
    simp only [List.length_append, List.length_drop, List.length_take]
    omega
  rw [edges, ← List.map_uncurry_zip_eq_zipWith, List.map_map]
  exact List.map_fst_zip hlen

theorem onBoundary_of_mem (hg : ∀ v ∈ g.vertices, v.isFinite = true) (hp : p ∈ g.vertices) :
    g.onBoundary p = true := by
  rw [← map_a_edges, List.mem_map] at hp
  obtain ⟨s, hs, rfl⟩ := hp
  exact List.any_eq_true.2 ⟨s, hs, (Segment.has_ends (isFinite_of_mem_edges hg hs)).1⟩

/-- **A polygon meets a box if and only if they share a point**: one on an edge, or one in the
polygon. -/
theorem meets_iff_exists_point (g : Polygon Exact) (b : Box Exact)
    (hg : ∀ v ∈ g.vertices, v.isFinite = true) (hb : b.isValid = true) :
    (Shape.polygon g).meets b = true ↔
      ∃ p, b.hasPoint p = true ∧ (g.onBoundary p = true ∨ g.hasPoint p = true) := by
  change g.meets b = true ↔ _
  rw [meets, Bool.or_eq_true, Bool.or_eq_true, any_meets_iff hg hb, List.any_eq_true]
  constructor
  · rintro ((⟨v, hv, hin⟩ | hcorner) | ⟨p, hin, hon⟩)
    · exact ⟨v, hin, Or.inl (onBoundary_of_mem hg hv)⟩
    · exact ⟨_, Box.hasPoint_corners hb _ List.mem_cons_self, Or.inr hcorner⟩
    · exact ⟨p, hin, Or.inl hon⟩
  · rintro ⟨p, hin, hp⟩
    by_cases hoff : ∀ p, b.hasPoint p = true → ¬ g.onBoundary p = true
    · -- no edge meets the box, so its points are all in the polygon or none is
      refine Or.inl (Or.inr ?_)
      have hpoint := hp.resolve_left (hoff p hin)
      rw [hasPoint, Bool.and_eq_true, Bool.or_eq_true] at hpoint ⊢
      exact ⟨hpoint.1, Or.inr
        (oddCrossings_corner hg hoff hin (hpoint.2.resolve_left (hoff p hin)))⟩
    · simp only [not_forall, not_not, exists_prop] at hoff
      exact Or.inr hoff

/-- The lower left half of a square. -/
def triangle : Polygon Exact :=
  ⟨[⟨real (-1), real (-1)⟩, ⟨real 1, real (-1)⟩, ⟨real (-1), real 1⟩]⟩

theorem isFinite_triangle : ∀ v ∈ triangle.vertices, v.isFinite = true := by
  simp [triangle, Point.isFinite_iff]

theorem meets_iff_exists_point_triangle :
    (∀ v ∈ triangle.vertices, v.isFinite = true) ∧ unitSquare.isValid = true ∧
    ((Shape.polygon triangle).meets unitSquare = true ↔ ∃ p, unitSquare.hasPoint p = true ∧
      (triangle.onBoundary p = true ∨ triangle.hasPoint p = true)) :=
  ⟨isFinite_triangle, isValid_unitSquare,
    meets_iff_exists_point triangle unitSquare isFinite_triangle isValid_unitSquare⟩

end Polygon

end QuadIndex
