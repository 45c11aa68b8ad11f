import QuadIndex.Proofs.Exact.Relisting
import QuadIndex.Proofs.Exact.Sharing
import QuadIndex.Proofs.Exact.Sides

/-!
# Convex rings

A ring is strictly convex if the line through each of its edges has all other vertices on its inner
side. A point is then in the polygon exactly if it is strictly on the outer side of no edge.

From a point on the outer side of an edge, a way along the edge meets none, and it leads to where no
ray crosses the ring an odd number of times. A point that is on the line through an edge, and on the
outer side of none, is on the edge, between the edges next to it. From a point on the inner side of
all edges, the ray crosses those that go up past its height, and none that goes down. Some edge goes
up past it, since otherwise the ring would turn around the point for ever in one half of the plane;
and of two such edges the one would start on the other.

* `Polygon.exists_rising`: a ring on which some key is not constant goes up in it somewhere.
* `Polygon.IsConvex.not_hasPoint_of_turn_neg`: what is on the outer side of an edge.
* `Polygon.IsConvex.has_of_turn_eq_zero`: what is on the line through an edge.
* `Polygon.IsConvex.countP_goesUpPast`: one edge goes up past a point on all inner sides.
* `Polygon.hasPoint_iff_innerSides`: the points of a convex polygon.
-/

namespace QuadIndex

open Exact LawfulScalar

namespace Polygon

/-! ## Along a ring -/

section

variable {α : Type} {g : Polygon α}

/-- The edges in the other direction are the edges turned around. -/
theorem mem_edges_reverse {s : Segment α} : s ∈ g.reverse.edges ↔ s.reverse ∈ g.edges := by
  rw [edges_reverse, List.mem_rotate, List.mem_reverse, List.mem_map]
  constructor
  · rintro ⟨t, ht, rfl⟩
    exact ht
  · exact fun hs => ⟨s.reverse, hs, rfl⟩

/-- Each vertex is the start of an edge, and the end of one. -/
theorem exists_edges_at {v : Point α} (hv : v ∈ g.vertices) :
    (∃ s ∈ g.edges, s.a = v) ∧ ∃ s ∈ g.edges, s.b = v := by
  constructor
  · rw [← map_a_edges] at hv
    exact List.mem_map.1 hv
  · have hback : v ∈ g.reverse.vertices := List.mem_reverse.2 hv
    rw [← map_a_edges] at hback
    obtain ⟨s, hs, hsv⟩ := List.mem_map.1 hback
    exact ⟨s.reverse, mem_edges_reverse.1 hs, hsv⟩

/-- What does not begin to hold along a chain of segments holds nowhere on it. -/
theorem eq_false_of_chain {f : Point α → Bool} {v w : Point α} {vs : List (Point α)}
    (h : ∀ s ∈ (v :: vs).zipWith Segment.mk (vs ++ [w]), f s.a = false → f s.b = false)
    (hv : f v = false) : ∀ u ∈ vs, f u = false := by
  induction vs generalizing v with
  | nil => exact fun u hu => absurd hu List.not_mem_nil
  | cons u vs ih =>
    rw [List.cons_append, List.zipWith_cons_cons, List.forall_mem_cons] at h
    have hu : f u = false := h.1 hv
    exact List.forall_mem_cons.2 ⟨hu, ih h.2 hu⟩

/-- **Where a property begins to hold along a ring**: on some edge, if one vertex has it and another
has not. -/
theorem exists_edge_into {f : Point α → Bool} {u v : Point α} (hu : u ∈ g.vertices)
    (hv : v ∈ g.vertices) (hfu : f u = false) (hfv : f v = true) :
    ∃ s ∈ g.edges, f s.a = false ∧ f s.b = true := by
  obtain ⟨before, after, hsplit⟩ := List.append_of_mem hu
  by_contra hnone
  -- listed from the vertex without the property, the ring is a chain
  have hlisted : g.rotate before.length = ⟨u :: (after ++ before)⟩ := by
    rw [rotate, hsplit, List.rotate_append_length_eq, List.cons_append]
  have hkeeps : ∀ s ∈ (u :: (after ++ before)).zipWith Segment.mk (after ++ before ++ [u]),
      f s.a = false → f s.b = false := by
    intro s hs ha
    rw [← edges_cons, ← hlisted, edges_rotate, List.mem_rotate] at hs
    by_contra hb
    exact hnone ⟨s, hs, ha, by simpa using hb⟩
  have hmem : v ∈ u :: (after ++ before) := by
    have hv' : v ∈ (g.rotate before.length).vertices := List.mem_rotate.2 hv
    rwa [hlisted] at hv'
  have hfalse : f v = false := by
    rcases List.mem_cons.1 hmem with rfl | hrest
    · exact hfu
    · exact eq_false_of_chain hkeeps hfu v hrest
  rw [hfv] at hfalse
  cases hfalse

/-- **A ring on which a key is not constant goes up in it somewhere.** -/
theorem exists_rising [Scalar α] [LawfulScalar α] {key : Point α → α}
    (hnum : ∀ v ∈ g.vertices, key v ≤ key v) {u v : Point α} (hu : u ∈ g.vertices)
    (hv : v ∈ g.vertices) (h : key u < key v) : ∃ s ∈ g.edges, key s.a < key s.b := by
  have hfu : decide (key u < key u) = false := decide_eq_false (Scalar.lt_irrefl _)
  obtain ⟨s, hs, ha, hb⟩ := exists_edge_into (f := fun w => decide (key u < key w)) hu hv hfu
    (decide_eq_true h)
  have hle : key s.a ≤ key u := Scalar.le_of_not_lt (hnum u hu)
    (hnum s.a (mem_vertices_of_mem_edges hs).1) (of_decide_eq_false ha)
  exact ⟨s, hs, Scalar.lt_of_le_of_lt hle (of_decide_eq_true hb)⟩

/-- It goes down in it somewhere else. -/
theorem exists_falling [Scalar α] [LawfulScalar α] {key : Point α → α}
    (hnum : ∀ v ∈ g.vertices, key v ≤ key v) {u v : Point α} (hu : u ∈ g.vertices)
    (hv : v ∈ g.vertices) (h : key u < key v) : ∃ s ∈ g.edges, key s.b < key s.a := by
  have hback : ∀ v ∈ g.reverse.vertices, key v ≤ key v :=
    fun v hv => hnum v (List.mem_reverse.1 hv)
  obtain ⟨s, hs, hlt⟩ := exists_rising hback (List.mem_reverse.2 hu) (List.mem_reverse.2 hv) h
  exact ⟨s.reverse, mem_edges_reverse.1 hs, hlt⟩

end

/-! ## Along a line -/

/-- A way along a line leads out of each square. -/
theorem exists_beyond {s : Segment Exact} {p : Point Exact} (hs : s.IsFinite) (hne : s.a ≠ s.b)
    (hp : p.isFinite = true) (r : ℝ) : ∃ q : Point Exact, q.isFinite = true ∧
      s.turn q = s.turn p ∧ ¬ (square r).hasPoint q = true := by
  obtain ⟨x₁, y₁, x₂, y₂, rfl⟩ := hs.exists_real
  obtain ⟨x, y, rfl⟩ := Point.isFinite_iff.1 hp
  -- after any number of steps along the line
  have hlevel : ∀ m : ℝ, (Segment.mk ⟨real x₁, real y₁⟩ ⟨real x₂, real y₂⟩).turn
      ⟨real (x + m * (x₂ - x₁)), real (y + m * (y₂ - y₁))⟩ =
        (Segment.mk ⟨real x₁, real y₁⟩ ⟨real x₂, real y₂⟩).turn ⟨real x, real y⟩ := by
    intro m
    rw [Segment.turn_real, Segment.turn_real]
    exact congrArg real (by ring)
  have hfar : ∀ {c d : ℝ}, d ≠ 0 → r < |c + (r + 1 - c) / d * d| := by
    intro c d hd
    rw [div_mul_cancel₀ _ hd, add_sub_cancel]
    exact (lt_add_one r).trans_le (le_abs_self _)
  by_cases hx : x₂ - x₁ = 0
  · have hy : y₂ - y₁ ≠ 0 := fun heq => hne (by rw [sub_eq_zero.1 hx, sub_eq_zero.1 heq])
    refine ⟨_, Point.isFinite_iff.2 ⟨_, _, rfl⟩, hlevel ((r + 1 - y) / (y₂ - y₁)), fun hin => ?_⟩
    exact (hfar hy).not_ge (hasPoint_square_iff.1 hin).2
  · refine ⟨_, Point.isFinite_iff.2 ⟨_, _, rfl⟩, hlevel ((r + 1 - x) / (x₂ - x₁)), fun hin => ?_⟩
    exact (hfar hx).not_ge (hasPoint_square_iff.1 hin).1

/-! ## Convex rings -/

/-- **The vertices of a strictly convex polygon in the order of its boundary**, one way around or
the other: they are distinct, and each edge has all vertices but its ends strictly on the inner
side. -/
structure IsConvex (clockwise : Bool) (g : Polygon Exact) : Prop where
  three_le : 3 ≤ g.vertices.length
  isFinite : ∀ v ∈ g.vertices, v.isFinite = true
  nodup : g.vertices.Nodup
  inner : ∀ s ∈ g.edges, ∀ v ∈ g.vertices, v ≠ s.a → v ≠ s.b →
    0 < (s.insideLeft clockwise).turn v

variable {g : Polygon Exact} {s t : Segment Exact} {p u v : Point Exact}

/-- The point is strictly on the outer side of no edge. -/
def HasOnInnerSides (clockwise : Bool) (g : Polygon Exact) (p : Point Exact) : Prop :=
  ∀ s ∈ g.edges, 0 ≤ (s.insideLeft clockwise).turn p

namespace IsConvex

/-- A clockwise ring is convex against the clock if it is listed in the other direction. -/
theorem reverse (h : g.IsConvex true) : g.reverse.IsConvex false where
  three_le := by
    rw [Polygon.reverse, List.length_reverse]
    exact h.three_le
  isFinite v hv := h.isFinite v (List.mem_reverse.1 hv)
  nodup := List.nodup_reverse.2 h.nodup
  inner s hs v hv ha hb :=
    h.inner s.reverse (mem_edges_reverse.1 hs) v (List.mem_reverse.1 hv) hb ha

variable (h : g.IsConvex false)

include h

theorem isFinite_edge (hs : s ∈ g.edges) : s.IsFinite := isFinite_of_mem_edges h.isFinite hs

/-- There is a third vertex. -/
theorem exists_third (u v : Point Exact) : ∃ w ∈ g.vertices, w ≠ u ∧ w ≠ v := by
  by_contra hnone
  have hsub : g.vertices ⊆ [u, v] := by
    intro w hw
    by_contra hnot
    rw [List.mem_cons, List.mem_singleton, not_or] at hnot
    exact hnone ⟨w, hw, hnot⟩
  have hlen := (List.subperm_of_subset h.nodup hsub).length_le
  have hthree := h.three_le
  simp only [List.length_cons, List.length_nil] at hlen
  omega

/-- A third vertex is to the left of an edge. -/
theorem turn_pos (hs : s ∈ g.edges) (hv : v ∈ g.vertices) (ha : v ≠ s.a) (hb : v ≠ s.b) :
    0 < s.turn v := h.inner s hs v hv ha hb

/-- No vertex is to the right of an edge. -/
theorem turn_nonneg (hs : s ∈ g.edges) (hv : v ∈ g.vertices) : 0 ≤ s.turn v := by
  obtain ⟨hta, htb⟩ := Segment.turn_ends (h.isFinite_edge hs)
  by_cases ha : v = s.a
  · rw [ha, hta, zero_eq, real_le_real]
  · by_cases hb : v = s.b
    · rw [hb, htb, zero_eq, real_le_real]
    · exact Scalar.le_of_lt (h.turn_pos hs hv ha hb)

/-- A vertex on the line through an edge is an end of it. -/
theorem eq_end_of_turn_eq_zero (hs : s ∈ g.edges) (hv : v ∈ g.vertices) (hzero : s.turn v = 0) :
    v = s.a ∨ v = s.b := by
  by_contra hnot
  rw [not_or] at hnot
  have hlt := h.turn_pos hs hv hnot.1 hnot.2
  rw [hzero] at hlt
  exact Scalar.lt_irrefl _ hlt

/-- The ends of an edge are distinct. -/
theorem ends_ne (hs : s ∈ g.edges) : s.a ≠ s.b := by
  intro heq
  obtain ⟨w, hw, hwa, hwb⟩ := h.exists_third s.a s.b
  have hlt := h.turn_pos hs hw hwa hwb
  obtain ⟨x₁, y₁, x₂, y₂, rfl⟩ := (h.isFinite_edge hs).exists_real
  obtain ⟨x, y, rfl⟩ := Point.isFinite_iff.1 (h.isFinite w hw)
  obtain ⟨hx, hy⟩ := Point.mk.inj heq
  obtain rfl := real.inj hx
  obtain rfl := real.inj hy
  rw [Segment.turn_real, zero_eq, real_lt_real] at hlt
  linarith

/-! ### The outer side of an edge -/

/-- **What is on the outer side of an edge** is not in the polygon. -/
theorem not_hasPoint_of_turn_neg (hs : s ∈ g.edges) (hp : p.isFinite = true)
    (hout : s.turn p < 0) : ¬ g.hasPoint p = true := by
  have hfinite := h.isFinite_edge hs
  -- no edge has a point out there
  have hoff : ∀ w, s.turn w < 0 → ∀ t ∈ g.edges, ¬ t.has w = true := by
    intro w hw t ht hhas
    obtain ⟨ha, hb⟩ := mem_vertices_of_mem_edges ht
    have hinner : 0 ≤ s.turn w := Segment.turn_nonneg_of_has hfinite (h.isFinite_edge ht)
      (h.turn_nonneg hs ha) (h.turn_nonneg hs hb) hhas
    exact (LawfulScalar.lt_iff.1 hw).2 hinner
  intro hpoint
  rw [Polygon.hasPoint, Bool.and_eq_true, Bool.or_eq_true] at hpoint
  rcases hpoint.2 with hon | hodd
  · obtain ⟨t, ht, hhas⟩ := List.any_eq_true.1 hon
    exact hoff p hout t ht hhas
  · -- a way along the edge, to beyond all vertices
    obtain ⟨r, hsquare⟩ := exists_square h.isFinite
    obtain ⟨q, hq, hlevel, hbeyond⟩ := exists_beyond hfinite (h.ends_ne hs) hp r
    have hway : (Segment.mk p q).IsFinite := ⟨hp, hq⟩
    have hapart : ∀ t ∈ g.edges, t.Apart ⟨p, q⟩ := fun t ht w hw hon =>
      hoff w (Segment.turn_neg_of_has hfinite hway hout hlevel hon) t ht hw
    have hend : g.oddCrossings q = true := (oddCrossings_eq h.isFinite hway hapart).symm.trans hodd
    exact hbeyond (hsquare.of_oddCrossings hend)

/-! ### The line through an edge -/

/-- No edge leads back along another: a third vertex would be on the inner side of both. -/
theorem reverse_not_mem (hs : s ∈ g.edges) : s.reverse ∉ g.edges := by
  intro hback
  obtain ⟨w, hw, hwa, hwb⟩ := h.exists_third s.a s.b
  have hleft := h.turn_pos hs hw hwa hwb
  have hleft' := h.turn_pos hback hw hwb hwa
  obtain ⟨r, hr⟩ := Segment.exists_turn_real (h.isFinite_edge hs) (h.isFinite w hw)
  rw [Segment.turn_reverse (h.isFinite_edge hs) (h.isFinite w hw), hr, neg_real, zero_eq,
    real_lt_real] at hleft'
  rw [hr, zero_eq, real_lt_real] at hleft
  linarith

/-- The edge after an edge has its start on the inner side. -/
theorem exists_next (hs : s ∈ g.edges) : ∃ t ∈ g.edges, t.a = s.b ∧ 0 < t.turn s.a := by
  obtain ⟨t, ht, hta⟩ := (exists_edges_at (mem_vertices_of_mem_edges hs).2).1
  have ha : s.a ≠ t.a := hta ▸ h.ends_ne hs
  have hb : s.a ≠ t.b := by
    intro hback
    have hrev : t = s.reverse := congrArg₂ Segment.mk hta hback.symm
    exact h.reverse_not_mem hs (hrev ▸ ht)
  exact ⟨t, ht, hta, h.turn_pos ht (mem_vertices_of_mem_edges hs).1 ha hb⟩

/-- The edge before an edge has its end on the inner side. -/
theorem exists_previous (hs : s ∈ g.edges) : ∃ t ∈ g.edges, t.b = s.a ∧ 0 < t.turn s.b := by
  obtain ⟨t, ht, htb⟩ := (exists_edges_at (mem_vertices_of_mem_edges hs).1).2
  have hb : s.b ≠ t.b := htb ▸ (h.ends_ne hs).symm
  have ha : s.b ≠ t.a := by
    intro hback
    have hrev : t = s.reverse := congrArg₂ Segment.mk hback.symm htb
    exact h.reverse_not_mem hs (hrev ▸ ht)
  exact ⟨t, ht, htb, h.turn_pos ht (mem_vertices_of_mem_edges hs).2 ha hb⟩

/-- **What is on the line through an edge**, and on the outer side of none, is on the edge. -/
theorem has_of_turn_eq_zero (hs : s ∈ g.edges) (hp : p.isFinite = true)
    (hin : ∀ t ∈ g.edges, 0 ≤ t.turn p) (hzero : s.turn p = 0) : s.has p = true := by
  have hfinite := h.isFinite_edge hs
  obtain ⟨r, rfl⟩ := Segment.exists_pointAt hfinite (h.ends_ne hs) hp hzero
  have hlow : 0 ≤ r := by
    obtain ⟨t, ht, htb, hpos⟩ := h.exists_previous hs
    obtain ⟨a, b, ha, hb, hr⟩ := Segment.exists_turn_pointAt (h.isFinite_edge ht) hfinite r
    have hstart := (Segment.turn_ends (h.isFinite_edge ht)).2
    rw [htb, ha] at hstart
    obtain rfl := real.inj hstart
    have hnonneg := hin t ht
    rw [hr, zero_eq, real_le_real, mul_zero, zero_add] at hnonneg
    rw [hb, zero_eq, real_lt_real] at hpos
    exact nonneg_of_mul_nonneg_left hnonneg hpos
  have hhigh : r ≤ 1 := by
    obtain ⟨t, ht, hta, hpos⟩ := h.exists_next hs
    obtain ⟨a, b, ha, hb, hr⟩ := Segment.exists_turn_pointAt (h.isFinite_edge ht) hfinite r
    have hend := (Segment.turn_ends (h.isFinite_edge ht)).1
    rw [hta, hb] at hend
    obtain rfl := real.inj hend
    have hnonneg := hin t ht
    rw [hr, zero_eq, real_le_real, mul_zero, add_zero] at hnonneg
    rw [ha, zero_eq, real_lt_real] at hpos
    exact sub_nonneg.1 (nonneg_of_mul_nonneg_left hnonneg hpos)
  exact (Segment.has_iff hfinite).2 ⟨r, hlow, hhigh, rfl⟩

/-! ### The inner side of all edges -/

theorem exists_edge : ∃ s, s ∈ g.edges := by
  have hthree := h.three_le
  obtain ⟨v, hv⟩ := List.exists_mem_of_length_pos (l := g.vertices) (by omega)
  obtain ⟨s, hs, -⟩ := (exists_edges_at hv).1
  exact ⟨s, hs⟩

/-- If no vertex is above a point that is to the left of all edges, all are below it. -/
theorem below_of_not_above (hp : p.isFinite = true) (hleft : ∀ s ∈ g.edges, 0 < s.turn p)
    (hnone : ∀ v ∈ g.vertices, ¬ p.y < v.y) (hv : v ∈ g.vertices) : v.y < p.y := by
  obtain ⟨⟨s, hs, hsv⟩, t, ht, htv⟩ := exists_edges_at hv
  have hs' := hleft s hs
  have ht' := hleft t ht
  have hb := hnone s.b (mem_vertices_of_mem_edges hs).2
  have ha := hnone t.a (mem_vertices_of_mem_edges ht).1
  have hv' := hnone v hv
  subst hsv
  obtain ⟨x₁, y₁, x₂, y₂, rfl⟩ := (h.isFinite_edge hs).exists_real
  obtain ⟨x₀, y₀, x₃, y₃, rfl⟩ := (h.isFinite_edge ht).exists_real
  obtain ⟨x, y, rfl⟩ := Point.isFinite_iff.1 hp
  obtain ⟨hx, hy⟩ := Point.mk.inj htv
  obtain rfl := real.inj hx
  obtain rfl := real.inj hy
  simp only [Segment.turn_real, zero_eq, real_lt_real, not_lt] at hs' ht' hb ha hv' ⊢
  by_contra hlevel
  -- at the height of the point, the vertex would be west of it and east of it
  obtain rfl : y = y₃ := le_antisymm (not_lt.1 hlevel) hv'
  have hwest : x₃ < x := by nlinarith only [hs', hb]
  have heast : x < x₃ := by nlinarith only [ht', ha]
  exact lt_asymm hwest heast

/-- If no edge goes up past the point, all vertices are above it, or all are below it. -/
theorem above_or_below (hp : p.isFinite = true) (hleft : ∀ s ∈ g.edges, 0 < s.turn p)
    (hnone : ∀ s ∈ g.edges, ¬ s.goesUpPast p = true) :
    (∀ v ∈ g.vertices, p.y < v.y) ∨ ∀ v ∈ g.vertices, v.y < p.y := by
  by_cases habove : ∃ v ∈ g.vertices, p.y < v.y
  · obtain ⟨v, hv, hlt⟩ := habove
    refine Or.inl fun u hu => ?_
    by_contra hnot
    obtain ⟨s, hs, ha, hb⟩ := exists_edge_into (f := fun w => decide (p.y < w.y)) hu hv
      (decide_eq_false hnot) (decide_eq_true hlt)
    exact hnone s hs (Segment.goesUpPast_iff.2 ⟨of_decide_eq_false ha, of_decide_eq_true hb⟩)
  · exact Or.inr fun w hw =>
      h.below_of_not_above hp hleft (fun v hv hlt => habove ⟨v, hv, hlt⟩) hw

/-- **Some edge goes up past a point to the left of all edges.** -/
theorem exists_goesUpPast (hp : p.isFinite = true) (hleft : ∀ s ∈ g.edges, 0 < s.turn p) :
    ∃ s ∈ g.edges, s.goesUpPast p = true := by
  by_contra hnone
  have hside := h.above_or_below hp hleft fun s hs hup => hnone ⟨s, hs, hup⟩
  have hfalls : ∀ s ∈ g.edges, Segment.slopeFrom p s.b < Segment.slopeFrom p s.a := by
    intro s hs
    obtain ⟨ha, hb⟩ := mem_vertices_of_mem_edges hs
    refine Segment.slopeFrom_lt (h.isFinite_edge hs) hp (hleft s hs) ?_
    exact hside.imp (fun hup => ⟨hup _ ha, hup _ hb⟩) (fun hdown => ⟨hdown _ ha, hdown _ hb⟩)
  -- around the ring, the slope from the point cannot fall for ever
  have hnum : ∀ v ∈ g.vertices, Segment.slopeFrom p v ≤ Segment.slopeFrom p v := by
    intro v hv
    obtain ⟨s, hs, rfl⟩ := (exists_edges_at hv).1
    exact le_right (Scalar.le_of_lt (hfalls s hs))
  obtain ⟨s, hs⟩ := h.exists_edge
  obtain ⟨ha, hb⟩ := mem_vertices_of_mem_edges hs
  obtain ⟨t, ht, hrise⟩ := exists_rising hnum hb ha (hfalls s hs)
  exact (LawfulScalar.lt_iff.1 hrise).2 (Scalar.le_of_lt (hfalls t ht))

/-- Only one edge goes up past a point: a second one would start at the same vertex. -/
theorem eq_of_goesUpPast (hs : s ∈ g.edges) (ht : t ∈ g.edges) (hp : p.isFinite = true)
    (hsUp : s.goesUpPast p = true) (htUp : t.goesUpPast p = true) : s = t := by
  obtain ⟨hsa, hsb⟩ := mem_vertices_of_mem_edges hs
  obtain ⟨hta, htb⟩ := mem_vertices_of_mem_edges ht
  have hzero : s.turn t.a = 0 := Segment.turn_start_eq_zero (h.isFinite_edge hs)
    (h.isFinite_edge ht) hp hsUp htUp (h.turn_nonneg hs hta) (h.turn_nonneg hs htb)
    (h.turn_nonneg ht hsa) (h.turn_nonneg ht hsb)
  have hstart : t.a = s.a := by
    refine (h.eq_end_of_turn_eq_zero hs hta hzero).resolve_right fun hend => ?_
    rw [Segment.goesUpPast_iff] at hsUp htUp
    exact htUp.1 (hend ▸ hsUp.2)
  have hnodup : (g.edges.map (·.a)).Nodup := by
    rw [map_a_edges]
    exact h.nodup
  exact List.inj_on_of_nodup_map hnodup hs ht hstart.symm

/-- **One edge goes up past a point to the left of all edges.** -/
theorem countP_goesUpPast (hp : p.isFinite = true) (hleft : ∀ s ∈ g.edges, 0 < s.turn p) :
    g.edges.countP (·.goesUpPast p) = 1 := by
  obtain ⟨s, hs, hsUp⟩ := h.exists_goesUpPast hp hleft
  have hpos : 0 < g.edges.countP (·.goesUpPast p) := List.countP_pos_iff.2 ⟨s, hs, hsUp⟩
  have hnodup : g.edges.Nodup := List.Nodup.of_map (·.a) (by rw [map_a_edges]; exact h.nodup)
  have hsub : g.edges.filter (·.goesUpPast p) ⊆ [s] := by
    intro t ht
    rw [List.mem_filter] at ht
    exact List.mem_singleton.2 (h.eq_of_goesUpPast ht.1 hs hp ht.2 hsUp)
  have hle := (List.subperm_of_subset (hnodup.filter _) hsub).length_le
  rw [← List.countP_eq_length_filter, List.length_singleton] at hle
  omega

/-- **A point to the left of all edges is inside.** -/
theorem oddCrossings_of_left (hp : p.isFinite = true) (hleft : ∀ s ∈ g.edges, 0 < s.turn p) :
    g.oddCrossings p = true := by
  have hcount : g.edges.countP (·.crossesRay p) = 1 := by
    rw [← h.countP_goesUpPast hp hleft]
    exact List.countP_congr fun s hs => by
      rw [Segment.crossesRay_of_turn_pos (h.isFinite_edge hs) hp (hleft s hs)]
  rw [oddCrossings, hcount]
  rfl

/-! ### Points that are not finite -/

theorem exists_real_key {key : Point Exact → Exact} (hkey : key = Point.x ∨ key = Point.y)
    (hv : v ∈ g.vertices) : ∃ r : ℝ, key v = real r := by
  obtain ⟨x, y, rfl⟩ := Point.isFinite_iff.1 (h.isFinite v hv)
  rcases hkey with rfl | rfl
  · exact ⟨x, rfl⟩
  · exact ⟨y, rfl⟩

/-- The vertices are not all on one line along an axis. -/
theorem exists_key_lt {key : Point Exact → Exact} (hkey : key = Point.x ∨ key = Point.y) :
    ∃ u ∈ g.vertices, ∃ v ∈ g.vertices, key u < key v := by
  by_contra hnone
  have hlevel : ∀ u ∈ g.vertices, ∀ v ∈ g.vertices, key v = key u := by
    intro u hu v hv
    have huv : ¬ key u < key v := fun hlt => hnone ⟨u, hu, v, hv, hlt⟩
    have hvu : ¬ key v < key u := fun hlt => hnone ⟨v, hv, u, hu, hlt⟩
    obtain ⟨r, hr⟩ := h.exists_real_key hkey hu
    obtain ⟨q, hq⟩ := h.exists_real_key hkey hv
    rw [hr, hq, real_lt_real, not_lt] at huv hvu
    rw [hr, hq, le_antisymm huv hvu]
  -- on one line, no vertex would be to the left of an edge
  obtain ⟨s, hs⟩ := h.exists_edge
  obtain ⟨ha, hb⟩ := mem_vertices_of_mem_edges hs
  obtain ⟨w, hw, hwa, hwb⟩ := h.exists_third s.a s.b
  have hleft := h.turn_pos hs hw hwa hwb
  have hkb := hlevel _ ha _ hb
  have hkw := hlevel _ ha _ hw
  obtain ⟨x₁, y₁, x₂, y₂, rfl⟩ := (h.isFinite_edge hs).exists_real
  obtain ⟨x, y, rfl⟩ := Point.isFinite_iff.1 (h.isFinite w hw)
  rw [Segment.turn_real, zero_eq, real_lt_real] at hleft
  rcases hkey with rfl | rfl
  · obtain rfl : x₂ = x₁ := real.inj hkb
    obtain rfl : x = x₂ := real.inj hkw
    linarith
  · obtain rfl : y₂ = y₁ := real.inj hkb
    obtain rfl : y = y₂ := real.inj hkw
    linarith

/-- **A ring goes both ways along each axis.** -/
theorem exists_both_ways {key : Point Exact → Exact} (hkey : key = Point.x ∨ key = Point.y) :
    (∃ s ∈ g.edges, key s.a < key s.b) ∧ ∃ s ∈ g.edges, key s.b < key s.a := by
  have hnum : ∀ v ∈ g.vertices, key v ≤ key v := by
    intro v hv
    obtain ⟨r, hr⟩ := h.exists_real_key hkey hv
    rw [hr, real_le_real]
  obtain ⟨u, hu, v, hv, huv⟩ := h.exists_key_lt hkey
  exact ⟨exists_rising hnum hu hv huv, exists_falling hnum hu hv huv⟩

/-- **Infinitely far away**, or at no place, a point is not on the inner side of all edges. -/
theorem isFinite_of_innerSides (hin : ∀ s ∈ g.edges, 0 ≤ s.turn p) : p.isFinite = true := by
  obtain ⟨⟨s, hs, heast⟩, t, ht, hwest⟩ := h.exists_both_ways (Or.inl rfl)
  obtain ⟨⟨u, hu, hnorth⟩, v, hv, hsouth⟩ := h.exists_both_ways (Or.inr rfl)
  rcases Segment.isFinite_or_not_turn p with hp | hp | hp | hp | hp
  · exact hp
  · exact absurd (hin s hs) (hp s (h.isFinite_edge hs) heast)
  · exact absurd (hin t ht) (hp t (h.isFinite_edge ht) hwest)
  · exact absurd (hin u hu) (hp u (h.isFinite_edge hu) hnorth)
  · exact absurd (hin v hv) (hp v (h.isFinite_edge hv) hsouth)

/-- **The points of a convex polygon** whose inside is to the left of its edges. -/
theorem hasPoint_iff : g.hasPoint p = true ↔ ∀ s ∈ g.edges, 0 ≤ s.turn p := by
  constructor
  · intro hpoint s hs
    have hp := isFinite_of_hasPoint h.isFinite hpoint
    obtain ⟨r, hr⟩ := Segment.exists_turn_real (h.isFinite_edge hs) hp
    by_contra hout
    refine h.not_hasPoint_of_turn_neg hs hp ?_ hpoint
    rw [hr, zero_eq, real_le_real, not_le] at hout
    rwa [hr, zero_eq, real_lt_real]
  · intro hin
    have hp := h.isFinite_of_innerSides hin
    have hthree := h.three_le
    rw [Polygon.hasPoint, decide_eq_true hthree, Bool.true_and, Bool.or_eq_true]
    by_cases hon : ∃ s ∈ g.edges, s.turn p = 0
    · obtain ⟨s, hs, hzero⟩ := hon
      exact Or.inl (List.any_eq_true.2 ⟨s, hs, h.has_of_turn_eq_zero hs hp hin hzero⟩)
    · refine Or.inr (h.oddCrossings_of_left hp fun s hs => ?_)
      obtain ⟨r, hr⟩ := Segment.exists_turn_real (h.isFinite_edge hs) hp
      have hnonneg := hin s hs
      have hne : r ≠ 0 := fun heq => hon ⟨s, hs, by rw [hr, heq, zero_eq]⟩
      rw [hr, zero_eq, real_le_real] at hnonneg
      rw [hr, zero_eq, real_lt_real]
      exact lt_of_le_of_ne hnonneg hne.symm

end IsConvex

/-- **The points of a convex polygon** are those on the outer side of none of its edges. -/
theorem hasPoint_iff_innerSides (clockwise : Bool) (h : g.IsConvex clockwise) (p : Point Exact) :
    g.hasPoint p = true ↔ g.HasOnInnerSides clockwise p := by
  cases clockwise with
  | false => exact h.hasPoint_iff
  | true =>
    have hback : g.reverse.hasPoint p = g.hasPoint p :=
      g.sameRing_reverse.hasPoint_eq h.isFinite p
    rw [← hback, h.reverse.hasPoint_iff]
    constructor
    · exact fun hin s hs => hin s.reverse (mem_edges_reverse.2 hs)
    · exact fun hin s hs => hin s.reverse (mem_edges_reverse.1 hs)

/-- A ring with two level edges, listed clockwise. -/
def trapezoid : Polygon Exact :=
  ⟨[⟨real (-1), real 0⟩, ⟨real 0, real 1⟩, ⟨real 1, real 1⟩, ⟨real 1, real 0⟩]⟩

theorem edges_trapezoid : trapezoid.edges = [⟨⟨real (-1), real 0⟩, ⟨real 0, real 1⟩⟩,
    ⟨⟨real 0, real 1⟩, ⟨real 1, real 1⟩⟩, ⟨⟨real 1, real 1⟩, ⟨real 1, real 0⟩⟩,
    ⟨⟨real 1, real 0⟩, ⟨real (-1), real 0⟩⟩] := rfl

theorem isConvex_trapezoid : trapezoid.IsConvex true where
  three_le := by simp [trapezoid]
  isFinite := by simp [trapezoid, Point.isFinite_iff]
  nodup := by norm_num [trapezoid]
  inner := by
    rw [edges_trapezoid]
    simp only [trapezoid, List.forall_mem_cons, ne_eq, Point.mk.injEq, real.injEq,
      Segment.insideLeft, Segment.reverse, if_true, Segment.turn_real, zero_eq, real_lt_real]
    norm_num

theorem hasPoint_iff_innerSides_trapezoid : trapezoid.IsConvex true ∧
    trapezoid.hasPoint ⟨real 0, real 0⟩ = true ∧
    ¬ trapezoid.hasPoint ⟨real (-1), real 1⟩ = true := by
  have hiff := hasPoint_iff_innerSides true isConvex_trapezoid
  refine ⟨isConvex_trapezoid, (hiff _).2 ?_, fun hpoint => ?_⟩
  · rw [HasOnInnerSides, edges_trapezoid]
    simp only [List.forall_mem_cons, Segment.insideLeft, Segment.reverse, if_true,
      Segment.turn_real, zero_eq, real_le_real]
    norm_num
  · have hin := (hiff _).1 hpoint
    rw [HasOnInnerSides, edges_trapezoid] at hin
    have hfirst := hin _ List.mem_cons_self
    simp only [Segment.insideLeft, Segment.reverse, if_true, Segment.turn_real, zero_eq,
      real_le_real] at hfirst
    norm_num at hfirst

end Polygon

end QuadIndex
