import QuadIndex.Plane.Shape
import QuadIndex.Proofs.Exact.Clip
import QuadIndex.Proofs.Page.Hull

/-!
# Polygons in exact arithmetic

The hull of the vertices of a polygon has every point of the polygon, by either of the two tests. A
point on an edge lies between the ends of the edge. For a point by its crossings it takes parity:
an edge that the ray crosses bounds the point from the north, the south and the east, and if the
point were west of all vertices, then the ray would cross each edge that has one end above it; of
those a closed ring has an even number.

* `Polygon.even_changes`: a property of points changes an even number of times along a ring.
* `Polygon.even_straddles`: a ring passes a height an even number of times.
* `Polygon.hullIn_boundingBox`: the bounding box has all vertices.
* `Polygon.HullIn.hasPoint`: a box with all vertices has all points of the polygon.
* `Polygon.HullIn.meets`, `Polygon.HullIn.covers`: it meets what the polygon meets, and covers what
  the polygon covers.
-/

namespace QuadIndex

namespace Polygon

section

variable {α : Type}

theorem edges_cons (v : Point α) (vs : List (Point α)) :
    edges ⟨v :: vs⟩ = (v :: vs).zipWith Segment.mk (vs ++ [v]) := rfl

/-- The ends of an edge are vertices. -/
theorem mem_vertices_of_mem_edges {g : Polygon α} {s : Segment α} (h : s ∈ g.edges) :
    s.a ∈ g.vertices ∧ s.b ∈ g.vertices := by
  rw [edges, ← List.map_uncurry_zip_eq_zipWith, List.mem_map] at h
  obtain ⟨⟨a, b⟩, hmem, rfl⟩ := h
  obtain ⟨ha, hb⟩ := List.of_mem_zip hmem
  refine ⟨ha, ?_⟩
  rcases List.mem_append.1 hb with hb | hb
  · exact List.mem_of_mem_drop hb
  · exact List.mem_of_mem_take hb

/-! ## Parity -/

/-- Along a chain of segments, a property of points changes an odd number of times exactly if its
ends differ in it. -/
theorem countP_changes_chain (f : Point α → Bool) (v w : Point α) (vs : List (Point α)) :
    ((v :: vs).zipWith Segment.mk (vs ++ [w])).countP (fun s => f s.b != f s.a) % 2 =
      (f w != f v).toNat := by
  induction vs generalizing v with
  | nil =>
    simp only [List.nil_append, List.zipWith_cons_cons, List.zipWith_nil_left, List.countP_cons,
      List.countP_nil]
    cases f v <;> cases f w <;> rfl
  | cons u vs ih =>
    rw [List.cons_append, List.zipWith_cons_cons, List.countP_cons, Nat.add_mod, ih]
    cases f u <;> cases f v <;> cases f w <;> rfl

/-- **Along a ring, a property of points changes an even number of times.** -/
theorem even_changes (g : Polygon α) (f : Point α → Bool) :
    g.edges.countP (fun s => f s.b != f s.a) % 2 = 0 := by
  obtain ⟨vertices⟩ := g
  cases vertices with
  | nil => rfl
  | cons v vs =>
    rw [edges_cons, countP_changes_chain, bne_self_eq_false]
    rfl

/-- **A ring passes a height an even number of times.** -/
theorem even_straddles [Scalar α] (g : Polygon α) (p : Point α) :
    g.edges.countP (·.straddles p) % 2 = 0 :=
  g.even_changes fun v => decide (p.y < v.y)

end

open Exact LawfulScalar

variable {g : Polygon Exact} {box : Box Exact}

/-- The edges of a polygon of finite vertices have finite ends. -/
theorem isFinite_of_mem_edges (hg : ∀ v ∈ g.vertices, v.isFinite = true) {s : Segment Exact}
    (hs : s ∈ g.edges) : s.IsFinite := by
  obtain ⟨ha, hb⟩ := mem_vertices_of_mem_edges hs
  exact ⟨hg s.a ha, hg s.b hb⟩

/-! ## Hulls -/

/-- The vertices are finite, and the box has all of them. -/
def HullIn (g : Polygon Exact) (box : Box Exact) : Prop :=
  ∀ v ∈ g.vertices, v.isFinite = true ∧ box.hasPoint v = true

/-- Boxes that hold one finite point each are valid. -/
theorem isValid_ofPoint {vs : List (Point Exact)} (h : ∀ v ∈ vs, v.isFinite = true) :
    ∀ b ∈ vs.map Box.ofPoint, b.isValid = true := by
  rw [List.forall_mem_map]
  intro v hv
  obtain ⟨x, y, rfl⟩ := Point.isFinite_iff.1 (h v hv)
  simp [Box.isValid_iff, Box.ofPoint]

/-- **The bounding box of a polygon is the least cover of its vertices**, which are finite. -/
theorem leastCover_boundingBox (h : g.boundingBox = .ok box) :
    (∀ v ∈ g.vertices, v.isFinite = true) ∧
      LeastCover Box.isValid Box.covers (g.vertices.map Box.ofPoint) (some box) := by
  unfold boundingBox at h
  split at h
  · cases h
  · cases h
  · rename_i hull hhull hfinite
    cases h
    rw [List.find?_eq_none] at hfinite
    have hvertex : ∀ v ∈ g.vertices, v.isFinite = true := fun v hv => by simpa using hfinite v hv
    have hleast := Box.hull?_leastCover (isValid_ofPoint hvertex)
    rw [← hull?, hhull] at hleast
    exact ⟨hvertex, hleast⟩

/-- **The bounding box of a polygon has its vertices**, and these are finite. -/
theorem hullIn_boundingBox (h : g.boundingBox = .ok box) : g.HullIn box := by
  obtain ⟨hfinite, hleast⟩ := leastCover_boundingBox h
  intro v hv
  have hcovers := hleast.coversAll rfl _ (List.mem_map_of_mem hv)
  obtain ⟨h1, h2, h3, h4⟩ := Box.covers_iff.1 hcovers
  exact ⟨hfinite v hv, Box.hasPoint_iff.2 ⟨h1, h2, h3, h4⟩⟩

/-- A polygon of finite vertices, if it has any, has a valid bounding box. -/
theorem boundingBox_ok (hne : g.vertices ≠ []) (hfinite : ∀ v ∈ g.vertices, v.isFinite = true) :
    ∃ box, g.boundingBox = .ok box ∧ box.isValid = true := by
  have hleast := Box.hull?_leastCover (isValid_ofPoint hfinite)
  unfold boundingBox
  have hfind : (g.vertices.find? fun v => !v.isFinite) = none :=
    List.find?_eq_none.2 fun v hv => by simpa using hfinite v hv
  rw [hfind]
  cases hhull : g.hull? with
  | none => exact absurd (hleast.none_iff.1 hhull) (by simpa using hne)
  | some box => exact ⟨box, rfl, hleast.isValid hhull⟩

/-- The box has both ends of an edge, and these are finite. -/
theorem HullIn.ends (h : g.HullIn box) {s : Segment Exact} (hs : s ∈ g.edges) :
    (s.a.isFinite = true ∧ box.hasPoint s.a = true) ∧
      (s.b.isFinite = true ∧ box.hasPoint s.b = true) := by
  obtain ⟨ha, hb⟩ := mem_vertices_of_mem_edges hs
  exact ⟨h s.a ha, h s.b hb⟩

/-- A point on an edge lies in each box with all vertices. -/
theorem HullIn.of_onBoundary (h : g.HullIn box) {p : Point Exact} (hp : g.onBoundary p = true) :
    box.hasPoint p = true := by
  obtain ⟨s, hs, hhas⟩ := List.any_eq_true.1 hp
  obtain ⟨⟨-, ha⟩, -, hb⟩ := h.ends hs
  exact Segment.mem_of_has ha hb hhas

/-- **A point with an odd number of crossings lies in each box with all vertices.** -/
theorem HullIn.of_oddCrossings (h : g.HullIn box) {p : Point Exact}
    (hp : g.oddCrossings p = true) : box.hasPoint p = true := by
  have hodd : g.edges.countP (·.crossesRay p) % 2 = 1 := by simpa [oddCrossings] using hp
  have hmem : ∀ s ∈ g.edges, s.straddles p = true → box.minX ≤ s.crossing p ∧
      s.crossing p ≤ box.maxX ∧ box.minY ≤ p.y ∧ p.y ≤ box.maxY := by
    intro s hs hstraddles
    obtain ⟨⟨hfa, ha⟩, hfb, hb⟩ := h.ends hs
    exact Segment.crossing_mem ⟨hfa, hfb⟩ hstraddles ha hb
  -- an edge that is crossed bounds the point from three sides
  obtain ⟨s, hs, hcrosses⟩ : ∃ s ∈ g.edges, s.crossesRay p = true := by
    refine List.countP_pos_iff.1 (Nat.pos_of_ne_zero fun hzero => ?_)
    rw [hzero] at hodd
    cases hodd
  rw [Segment.crossesRay_eq, Bool.and_eq_true, decide_eq_true_eq] at hcrosses
  obtain ⟨hstraddles, hlt⟩ := hcrosses
  obtain ⟨hwest, heast, hsouth, hnorth⟩ := hmem s hs hstraddles
  refine Box.hasPoint_iff.2 ⟨?_, le_trans (Scalar.le_of_lt hlt) heast, hsouth, hnorth⟩
  -- from further west, the ray would cross every edge that straddles it
  by_contra hoff
  have hoff' : p.x < box.minX :=
    Scalar.lt_of_not_le (le_left hwest) (le_left (Scalar.le_of_lt hlt)) hoff
  have hall : ∀ s ∈ g.edges, s.crossesRay p = true ↔ s.straddles p = true := by
    intro s hs
    rw [Segment.crossesRay_eq, Bool.and_eq_true, decide_eq_true_eq, and_iff_left_iff_imp]
    exact fun hstraddles => Scalar.lt_of_lt_of_le hoff' (hmem s hs hstraddles).1
  rw [List.countP_congr hall, even_straddles] at hodd
  cases hodd

/-- **A point of a polygon lies in each box with all vertices.** -/
theorem HullIn.hasPoint (h : g.HullIn box) {p : Point Exact} (hp : g.hasPoint p = true) :
    box.hasPoint p = true := by
  rw [Polygon.hasPoint, Bool.and_eq_true, Bool.or_eq_true] at hp
  exact hp.2.elim h.of_onBoundary h.of_oddCrossings

/-- **A box that a polygon meets** meets each box with all vertices. -/
theorem HullIn.meets (h : g.HullIn box) {other : Box Exact} (hother : other.isValid = true)
    (hmeets : g.meets other = true) : other.meets box = true := by
  rw [Polygon.meets, Bool.or_eq_true, Bool.or_eq_true, List.any_eq_true, List.any_eq_true] at hmeets
  rcases hmeets with (⟨v, hv, hin⟩ | hcorner) | ⟨s, hs, hin⟩
  · exact Box.meets_of_hasPoint hin (h v hv).2
  · have hsouthWest := Box.hasPoint_corners hother _ List.mem_cons_self
    exact Box.meets_of_hasPoint hsouthWest (h.hasPoint hcorner)
  · obtain ⟨⟨hfa, ha⟩, hfb, hb⟩ := h.ends hs
    obtain ⟨p, hp, hhas⟩ := (Segment.meets_iff ⟨hfa, hfb⟩ hother).1 hin
    exact Box.meets_of_hasPoint hp (Segment.mem_of_has ha hb hhas)

/-- **A box that a polygon covers** is covered by each box with all vertices. -/
theorem HullIn.covers (h : g.HullIn box) {other : Box Exact} (hcovers : g.covers other = true) :
    box.covers other = true := by
  rw [Polygon.covers, Bool.and_eq_true, List.all_eq_true] at hcovers
  exact Box.covers_of_corners fun p hp => h.hasPoint (hcovers.1 p hp)

end Polygon

end QuadIndex
