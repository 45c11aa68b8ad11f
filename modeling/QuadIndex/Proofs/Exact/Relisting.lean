import Mathlib.Data.List.Rotate
import QuadIndex.Proofs.Exact.Parity

/-!
# Other listings of a ring

The vertices of a ring can be listed from any one of them, and in either direction. The edges are
then the same, in another order, and all of them turned around or none. No test of a polygon looks
at more than that: a turned segment has the same points, and a ray crosses it at the same place,
though that is computed from the other end.

* `Segment.crossesRay_reverse` and its like: the tests of a segment that is turned around.
* `Polygon.edges_rotate`, `Polygon.edges_reverse`: the edges of a ring that is listed differently.
* `Polygon.SameRing.alike`: polygons with the same vertices and edges pass the same tests.
* `Polygon.relisted_alike`: the listings of a ring pass the same tests.
-/

namespace QuadIndex

open Exact LawfulScalar

/-! ## Turned segments -/

namespace Segment

variable {s : Segment Exact} {b : Box Exact}

theorem has_reverse (hs : s.IsFinite) (p : Point Exact) : s.reverse.has p = s.has p := by
  rw [Bool.eq_iff_iff]
  exact has_reverse_iff hs

theorem meets_reverse (hs : s.IsFinite) (hb : b.isValid = true) : s.reverse.meets b = s.meets b := by
  rw [Bool.eq_iff_iff, meets_iff hs hb, meets_iff hs.reverse hb]
  simp only [has_reverse_iff hs]

theorem entersInside_reverse (hs : s.IsFinite) (hb : b.isValid = true) :
    s.reverse.entersInside b = s.entersInside b := by
  rw [Bool.eq_iff_iff, entersInside_iff hs hb, entersInside_iff hs.reverse hb]
  simp only [has_reverse_iff hs]

theorem straddles_reverse (s : Segment Exact) (p : Point Exact) :
    s.reverse.straddles p = s.straddles p := Bool.xor_comm _ _

/-- A line is at the same place if it is followed from the other end. -/
theorem crossing_reverse (hs : s.IsFinite) {p : Point Exact} (h : s.straddles p = true) :
    s.reverse.crossing p = s.crossing p := by
  obtain ⟨x₁, y₁, x₂, y₂, rfl⟩ := hs.exists_real
  obtain ⟨y, hy, hmem⟩ := straddles_real h
  have hne := slope_ne_zero hmem
  have hne' := slope_ne_zero hmem.symm
  rw [Segment.reverse, crossing_eq x₂ x₁ hy hne', crossing_eq x₁ x₂ hy hne]
  congr 1
  rw [show y₂ - y₁ = -(y₁ - y₂) by ring]
  field_simp
  ring

/-- **A ray crosses a segment in either direction.** -/
theorem crossesRay_reverse (hs : s.IsFinite) (p : Point Exact) :
    s.reverse.crossesRay p = s.crossesRay p := by
  rw [crossesRay_eq, crossesRay_eq, straddles_reverse]
  by_cases h : s.straddles p = true
  · rw [crossing_reverse hs h]
  · rw [Bool.not_eq_true] at h
    rw [h, Bool.false_and, Bool.false_and]

end Segment

/-- Boxes that cover each other are equal, since there is one zero. -/
theorem Box.eq_of_covers {b c : Box Exact} (hbc : b.covers c = true) (hcb : c.covers b = true) :
    b = c := by
  have hside : ∀ {x y : Exact}, x ≤ y → y ≤ x → x = y := fun hxy hyx =>
    (Exact.beq_iff.1 (beq_iff.2 ⟨hxy, hyx⟩)).2
  obtain ⟨minX, minY, maxX, maxY⟩ := b
  obtain ⟨minX', minY', maxX', maxY'⟩ := c
  obtain ⟨h1, h2, h3, h4⟩ := Box.covers_iff.1 hbc
  obtain ⟨k1, k2, k3, k4⟩ := Box.covers_iff.1 hcb
  rw [Box.mk.injEq]
  exact ⟨hside h1 k1, hside h3 k3, hside k2 h2, hside k4 h4⟩

namespace Polygon

/-! ## Listings of a ring -/

section

variable {α : Type}

/-- The ring listed from the vertex that is `k` places on. -/
def rotate (g : Polygon α) (k : Nat) : Polygon α := ⟨g.vertices.rotate k⟩

/-- The ring listed in the other direction. -/
def reverse (g : Polygon α) : Polygon α := ⟨g.vertices.reverse⟩

theorem edges_eq_zipWith_rotate (g : Polygon α) :
    g.edges = g.vertices.zipWith Segment.mk (g.vertices.rotate 1) := by
  obtain ⟨vertices⟩ := g
  cases vertices with
  | nil => rfl
  | cons v vs => rw [edges_cons, List.rotate_cons_succ, List.rotate_zero]

/-- **From another vertex, a ring has the same edges**, from the one that starts there. -/
theorem edges_rotate (g : Polygon α) (k : Nat) : (g.rotate k).edges = g.edges.rotate k := by
  have hlen : g.vertices.length = (g.vertices.rotate 1).length := (List.length_rotate _ _).symm
  have hsecond : (g.vertices.rotate k).rotate 1 = (g.vertices.rotate 1).rotate k := by
    rw [List.rotate_rotate, List.rotate_rotate, Nat.add_comm]
  rw [edges_eq_zipWith_rotate, edges_eq_zipWith_rotate, List.zipWith_rotate_distrib _ _ _ _ hlen]
  exact congrArg _ hsecond

/-- **In the other direction, the edges of a ring are turned around**, from the last but one to the
first, and then the last one. -/
theorem edges_reverse (g : Polygon α) :
    g.reverse.edges = (g.edges.map Segment.reverse).reverse.rotate 1 := by
  have hlen : (g.vertices.rotate 1).length = g.vertices.length := List.length_rotate _ _
  have hback : (g.vertices.rotate 1).reverse.rotate 1 = g.vertices.reverse := by
    cases g.vertices with
    | nil => rfl
    | cons v vs => simp
  have hturned : g.edges.map Segment.reverse =
      (g.vertices.rotate 1).zipWith Segment.mk g.vertices := by
    rw [edges_eq_zipWith_rotate, List.map_zipWith, List.zipWith_comm]
    rfl
  rw [hturned, List.reverse_zipWith hlen, List.zipWith_rotate_distrib _ _ _ _ (by simp), hback,
    edges_eq_zipWith_rotate]
  rfl

/-- The two rings have the same vertices, and the same edges or those turned around. -/
structure SameRing (g h : Polygon α) : Prop where
  vertices : g.vertices.Perm h.vertices
  edges : g.edges.Perm h.edges ∨ g.edges.Perm (h.edges.map Segment.reverse)

theorem sameRing_rotate (g : Polygon α) (k : Nat) : (g.rotate k).SameRing g where
  vertices := List.rotate_perm _ _
  edges := Or.inl (by rw [edges_rotate]; exact List.rotate_perm _ _)

theorem sameRing_reverse (g : Polygon α) : g.reverse.SameRing g where
  vertices := List.reverse_perm _
  edges := Or.inr (by rw [edges_reverse]; exact (List.rotate_perm _ _).trans (List.reverse_perm _))

variable {g h : Polygon α}

/-- As many edges of both rings pass a test that does not depend on the direction of an edge. -/
theorem SameRing.countP_edges (hring : g.SameRing h) {test : Segment α → Bool}
    (htest : ∀ s ∈ h.edges, test s.reverse = test s) :
    g.edges.countP test = h.edges.countP test := by
  rcases hring.edges with hedges | hedges
  · exact hedges.countP_eq _
  · rw [hedges.countP_eq, List.countP_map]
    refine List.countP_congr fun s hs => ?_
    rw [Function.comp_apply, htest s hs]

/-- Some edge of both rings passes such a test, or no edge of either. -/
theorem SameRing.any_edges (hring : g.SameRing h) {test : Segment α → Bool}
    (htest : ∀ s ∈ h.edges, test s.reverse = test s) : g.edges.any test = h.edges.any test := by
  have hcount := hring.countP_edges htest
  rw [Bool.eq_iff_iff, List.any_eq_true, List.any_eq_true, ← List.countP_pos_iff,
    ← List.countP_pos_iff, hcount]

end

/-! ## Tests of rings -/

variable {g h : Polygon Exact}

/-- **No test tells the polygons apart**: they have the same points and the same bounding box, and
they meet, lie in and cover the same valid boxes. -/
structure Alike (g h : Polygon Exact) : Prop where
  hasPoint : ∀ p, g.hasPoint p = h.hasPoint p
  boundingBox : (Shape.polygon g).boundingBox = (Shape.polygon h).boundingBox
  meets : ∀ b : Box Exact, b.isValid = true →
    (Shape.polygon g).meets b = (Shape.polygon h).meets b
  liesIn : ∀ b : Box Exact, b.isValid = true →
    (Shape.polygon g).liesIn b = (Shape.polygon h).liesIn b
  covers : ∀ b : Box Exact, b.isValid = true →
    (Shape.polygon g).covers b = (Shape.polygon h).covers b

theorem SameRing.hasPoint_eq (hring : g.SameRing h) (hh : ∀ v ∈ h.vertices, v.isFinite = true)
    (p : Point Exact) : g.hasPoint p = h.hasPoint p := by
  have hboundary : g.onBoundary p = h.onBoundary p :=
    hring.any_edges fun s hs => Segment.has_reverse (isFinite_of_mem_edges hh hs) p
  have hcount : g.edges.countP (·.crossesRay p) = h.edges.countP (·.crossesRay p) :=
    hring.countP_edges fun s hs => Segment.crossesRay_reverse (isFinite_of_mem_edges hh hs) p
  rw [hasPoint, hasPoint, oddCrossings, oddCrossings, hboundary, hcount, hring.vertices.length_eq]

/-- **The bounding box depends on the set of the vertices only.** -/
theorem SameRing.boundingBox_eq (hring : g.SameRing h)
    (hh : ∀ v ∈ h.vertices, v.isFinite = true) : g.boundingBox = h.boundingBox := by
  have hg : ∀ v ∈ g.vertices, v.isFinite = true :=
    fun v hv => hh v (hring.vertices.mem_iff.1 hv)
  by_cases hne : h.vertices = []
  · have hnil : g.vertices = [] := by
      have hperm := hring.vertices
      rw [hne] at hperm
      exact hperm.eq_nil
    obtain ⟨vertices⟩ := g
    obtain ⟨vertices'⟩ := h
    rw [show vertices = vertices' from hnil.trans hne.symm]
  · have hne' : g.vertices ≠ [] := fun hnil => hne (by
      have hperm := hring.vertices
      rw [hnil] at hperm
      exact hperm.nil_eq.symm)
    obtain ⟨b, hb, -⟩ := boundingBox_ok hne' hg
    obtain ⟨c, hc, -⟩ := boundingBox_ok hne hh
    -- both are the least box with the vertices
    have hleast := (leastCover_boundingBox hb).2.perm (hring.vertices.map Box.ofPoint)
    obtain ⟨hbc, hcb⟩ := hleast.covers_each_other (leastCover_boundingBox hc).2
    rw [hb, hc, Box.eq_of_covers hbc hcb]

/-- **Polygons with the same vertices and edges pass the same tests.** -/
theorem SameRing.alike (hring : g.SameRing h) (hh : ∀ v ∈ h.vertices, v.isFinite = true) :
    g.Alike h := by
  have hpoint := hring.hasPoint_eq hh
  have hbox := hring.boundingBox_eq hh
  constructor
  case hasPoint => exact hpoint
  case boundingBox => exact hbox
  case meets =>
    intro b hb
    change g.meets b = h.meets b
    have hvertices : g.vertices.any b.hasPoint = h.vertices.any b.hasPoint :=
      hring.vertices.any_eq
    have hedges : g.edges.any (·.meets b) = h.edges.any (·.meets b) :=
      hring.any_edges fun s hs => Segment.meets_reverse (isFinite_of_mem_edges hh hs) hb
    rw [Polygon.meets, Polygon.meets, hvertices, hpoint, hedges]
  case liesIn =>
    intro b _
    have hown : (Shape.polygon g).boundingBox = (Shape.polygon h).boundingBox := hbox
    rw [Shape.liesIn, Shape.liesIn, hown]
  case covers =>
    intro b hb
    change g.covers b = h.covers b
    have hedges : g.edges.any (·.entersInside b) = h.edges.any (·.entersInside b) :=
      hring.any_edges fun s hs => Segment.entersInside_reverse (isFinite_of_mem_edges hh hs) hb
    rw [Polygon.covers, Polygon.covers, funext hpoint, hedges]

/-- **A polygon is the same from whichever of its vertices, and in whichever direction, it is
listed.** -/
theorem relisted_alike (g : Polygon Exact) (hg : ∀ v ∈ g.vertices, v.isFinite = true) :
    (∀ k, (g.rotate k).Alike g) ∧ g.reverse.Alike g :=
  ⟨fun k => (g.sameRing_rotate k).alike hg, g.sameRing_reverse.alike hg⟩

/-- A ring that crosses itself. -/
def bow : Polygon Exact :=
  ⟨[⟨real 0, real 0⟩, ⟨real 1, real 1⟩, ⟨real 1, real 0⟩, ⟨real 0, real 1⟩]⟩

theorem relisted_alike_bow : (∀ v ∈ bow.vertices, v.isFinite = true) ∧
    (bow.rotate 3).Alike bow ∧ bow.reverse.Alike bow := by
  have hfinite : ∀ v ∈ bow.vertices, v.isFinite = true := by simp [bow, Point.isFinite_iff]
  obtain ⟨hrotate, hreverse⟩ := relisted_alike bow hfinite
  exact ⟨hfinite, hrotate 3, hreverse⟩

end Polygon

end QuadIndex
