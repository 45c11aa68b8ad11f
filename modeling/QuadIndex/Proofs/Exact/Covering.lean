import QuadIndex.Proofs.Exact.Sharing
import QuadIndex.Proofs.Tree.Search

/-!
# Boxes that a polygon covers

A polygon is taken to cover a box if it has the four corners and no edge enters the inside of the
box. Then the inside has no point on an edge, and the parity of the crossings is the same at all
points of the box that are on no edge. That is not enough to have all of the box in the polygon:
corners on edges say nothing about the inside, and a box without an inside is not looked at between
its corners. A box with an inside is all in the polygon if one of its points that are on no edge is.

* `Polygon.covers_iff_inside`: what the test looks at.
* `Polygon.oddCrossings_eq_of_surrounds`: the parity is the same at all points that are on no edge.
* `Polygon.covers_filledIf`: which boxes that pass, and that a search finds, are all in the polygon.
* `Polygon.not_filled_notch`: some are not.
-/

namespace QuadIndex

open Exact LawfulScalar

/-! ## The inside of a box -/

/-- A box of some width and height has a point inside. -/
theorem Box.exists_surrounds {x₁ y₁ x₂ y₂ : ℝ} (hx : real x₁ < real x₂) (hy : real y₁ < real y₂) :
    ∃ p, (Box.mk (real x₁) (real y₁) (real x₂) (real y₂)).surrounds p = true := by
  rw [real_lt_real] at hx hy
  refine ⟨⟨real ((x₁ + x₂) / 2), real ((y₁ + y₂) / 2)⟩, ?_⟩
  simp only [surrounds_iff, real_lt_real]
  constructor <;> constructor <;> linarith

/-- On the way from one number to another that is above a low side, all numbers but the first are
above it if the first is not below it. -/
theorem Exact.lt_on_way {low : Exact} {a b t : ℝ} (ha : low ≤ real a) (hb : low < real b)
    (ht : 0 < t) (ht1 : t ≤ 1) : low < real (a + (b - a) * t) := by
  cases low with
  | nan => exact absurd ha not_nan_le
  | posInf => simp at ha
  | negInf => simp [Exact.lt_iff, rank, Prod.Lex.toLex_lt_toLex]
  | real l =>
    rw [real_le_real] at ha
    rw [real_lt_real] at hb ⊢
    have hfirst : 0 ≤ (a - l) * (1 - t) := mul_nonneg (by linarith) (by linarith)
    have hlast : 0 < (b - l) * t := mul_pos (by linarith) ht
    linarith

/-- The same of a high side. -/
theorem Exact.on_way_lt {high : Exact} {a b t : ℝ} (ha : real a ≤ high) (hb : real b < high)
    (ht : 0 < t) (ht1 : t ≤ 1) : real (a + (b - a) * t) < high := by
  cases high with
  | nan => exact absurd ha not_le_nan
  | negInf => simp at ha
  | posInf => simp [Exact.lt_iff, rank, Prod.Lex.toLex_lt_toLex]
  | real l =>
    rw [real_le_real] at ha
    rw [real_lt_real] at hb ⊢
    have hfirst : 0 ≤ (l - a) * (1 - t) := mul_nonneg (by linarith) (by linarith)
    have hlast : 0 < (l - b) * t := mul_pos (by linarith) ht
    linarith

/-- **A way from a point of a box to one inside** is inside but for its start. -/
theorem Segment.surrounds_of_has {s : Segment Exact} {b : Box Exact} {p : Point Exact}
    (hs : s.IsFinite) (hin : b.hasPoint s.a = true) (hinside : b.surrounds s.b = true)
    (hp : s.has p = true) : p = s.a ∨ b.surrounds p = true := by
  obtain ⟨t, ht0, ht1, rfl⟩ := (has_iff hs).1 hp
  obtain ⟨x₁, y₁, x₂, y₂, rfl⟩ := hs.exists_real
  rw [pointAt_real]
  rcases ht0.eq_or_lt with rfl | hpos
  · simp
  · obtain ⟨h1, h2, h3, h4⟩ := Box.hasPoint_iff.1 hin
    obtain ⟨⟨h5, h6⟩, h7, h8⟩ := Box.surrounds_iff.1 hinside
    exact Or.inr (Box.surrounds_iff.2 ⟨⟨lt_on_way h1 h5 hpos ht1, on_way_lt h2 h6 hpos ht1⟩,
      lt_on_way h3 h7 hpos ht1, on_way_lt h4 h8 hpos ht1⟩)

namespace Polygon

variable {g : Polygon Exact} {b : Box Exact} {p q : Point Exact}

/-! ## Parity in a box -/

/-- **What the test of a box looks at**: its corners, and the points inside. -/
theorem covers_iff_inside (hg : ∀ v ∈ g.vertices, v.isFinite = true) (hb : b.isValid = true) :
    g.covers b = true ↔ (∀ p ∈ b.corners, g.hasPoint p = true) ∧
      ∀ p, b.surrounds p = true → ¬ g.onBoundary p = true := by
  have hedges : g.edges.any (·.entersInside b) = true ↔
      ∃ p, b.surrounds p = true ∧ g.onBoundary p = true :=
    any_edges_iff fun s hs => Segment.entersInside_iff (isFinite_of_mem_edges hg hs) hb
  rw [covers, Bool.and_eq_true, List.all_eq_true, Bool.not_eq_true', ← Bool.not_eq_true, hedges]
  simp only [not_exists, not_and]

/-- The parity of the crossings is the same at a point that is on no edge and at one inside. -/
theorem oddCrossings_eq_of_surrounds (hg : ∀ v ∈ g.vertices, v.isFinite = true)
    (hinside : ∀ p, b.surrounds p = true → ¬ g.onBoundary p = true) (hp : b.hasPoint p = true)
    (hoff : ¬ g.onBoundary p = true) (hq : b.surrounds q = true) (hpf : p.isFinite = true)
    (hqf : q.isFinite = true) : g.oddCrossings p = g.oddCrossings q := by
  let way : Segment Exact := ⟨p, q⟩
  have hway : way.IsFinite := ⟨hpf, hqf⟩
  have hapart : ∀ s ∈ g.edges, s.Apart way := by
    intro s hs v hv hhas
    have hon : g.onBoundary v = true := List.any_eq_true.2 ⟨s, hs, hv⟩
    rcases Segment.surrounds_of_has hway hp hq hhas with rfl | hin
    · exact hoff hon
    · exact hinside v hin hon
  have hparity : g.oddCrossings way.a = g.oddCrossings way.b := oddCrossings_eq hg hway hapart
  exact hparity

/-! ## Boxes that pass -/

/-- **What the test of a box says of its points**: the corners are in the polygon, which is all that
there is of a box that is a single point, and if the box has points inside, then all of it is in the
polygon exactly if one of its points is that is on no edge. -/
structure FilledIf (g : Polygon Exact) (b : Box Exact) : Prop where
  corners : ∀ p ∈ b.corners, g.hasPoint p = true
  single : b.isSinglePoint = true → ∀ p, b.hasPoint p = true → g.hasPoint p = true
  wide : b.minX < b.maxX → b.minY < b.maxY → ((∀ p, b.hasPoint p = true → g.hasPoint p = true) ↔
    ∃ p, b.hasPoint p = true ∧ ¬ g.onBoundary p = true ∧ g.hasPoint p = true)

/-- A box whose corners are in a polygon has real sides. -/
theorem exists_real_of_corners (hg : ∀ v ∈ g.vertices, v.isFinite = true)
    (hcorners : ∀ p ∈ b.corners, g.hasPoint p = true) :
    ∃ x₁ y₁ x₂ y₂ : ℝ, b = ⟨real x₁, real y₁, real x₂, real y₂⟩ := by
  obtain ⟨minX, minY, maxX, maxY⟩ := b
  have hlow := isFinite_of_hasPoint hg (hcorners ⟨minX, minY⟩ (by simp [Box.corners]))
  have hhigh := isFinite_of_hasPoint hg (hcorners ⟨maxX, maxY⟩ (by simp [Box.corners]))
  obtain ⟨x₁, y₁, h₁⟩ := Point.isFinite_iff.1 hlow
  obtain ⟨x₂, y₂, h₂⟩ := Point.isFinite_iff.1 hhigh
  cases h₁
  cases h₂
  exact ⟨x₁, y₁, x₂, y₂, rfl⟩

/-- **Boxes that pass the test.** -/
theorem filledIf_of_covers (hg : ∀ v ∈ g.vertices, v.isFinite = true) (hb : b.isValid = true)
    (h : g.covers b = true) : g.FilledIf b := by
  obtain ⟨hcorners, hinside⟩ := (covers_iff_inside hg hb).1 h
  obtain ⟨x₁, y₁, x₂, y₂, rfl⟩ := exists_real_of_corners hg hcorners
  constructor
  case corners => exact hcorners
  case single =>
    intro hsingle p hp
    obtain ⟨x, y, rfl⟩ := Point.isFinite_iff.1 (Box.isFinite_of_hasPoint hp)
    simp only [Box.isSinglePoint, Bool.and_eq_true, Exact.beq_iff, real.injEq] at hsingle
    simp only [Box.hasPoint_iff, real_le_real] at hp
    have hx : x = x₁ := by linarith [hsingle.1.2, hp.1, hp.2.1]
    have hy : y = y₁ := by linarith [hsingle.2.2, hp.2.2.1, hp.2.2.2]
    rw [hx, hy]
    exact hcorners _ (by simp [Box.corners])
  case wide =>
    intro hx hy
    obtain ⟨center, hcenter⟩ := Box.exists_surrounds hx hy
    have hcenterIn := Box.hasPoint_of_surrounds hcenter
    have hparity : ∀ p, (Box.mk (real x₁) (real y₁) (real x₂) (real y₂)).hasPoint p = true →
        ¬ g.onBoundary p = true → g.oddCrossings p = g.oddCrossings center := fun p hp hoff =>
      oddCrossings_eq_of_surrounds hg hinside hp hoff hcenter (Box.isFinite_of_hasPoint hp)
        (Box.isFinite_of_hasPoint hcenterIn)
    constructor
    · intro hall
      exact ⟨center, hcenterIn, hinside center hcenter, hall center hcenterIn⟩
    · rintro ⟨p, hp, hoff, hpoint⟩ q hq
      rw [hasPoint, Bool.and_eq_true, Bool.or_eq_true] at hpoint ⊢
      refine ⟨hpoint.1, ?_⟩
      by_cases hon : g.onBoundary q = true
      · exact Or.inl hon
      · rw [hparity q hq hon, ← hparity p hp hoff]
        exact Or.inr (hpoint.2.resolve_left hoff)

/-- **What a polygon covers, and a search finds in it**: the boxes that pass the test, and with them
those that a search for what lies in the polygon finds, are all in the polygon if they are single
points, or have points inside and one in the polygon that is on no edge. -/
theorem covers_filledIf (g : Polygon Exact) (hg : ∀ v ∈ g.vertices, v.isFinite = true) :
    (∀ b : Box Exact, b.isValid = true → (Shape.polygon g).covers b = true → g.FilledIf b) ∧
    ∀ (ν : Type) (rules : TreeRules) (calls : List (Call Exact ν)) (query : List (Condition Exact))
      (found : List ν), ⟨.containedBy, .polygon g⟩ ∈ query →
      (History.run rules calls).tree.search query = .ok found →
      ∃ es : List (Entry Exact ν), found = es.map Entry.value ∧
        ∀ e ∈ es, e ∈ (History.run rules calls).accepted ∧ g.FilledIf e.box := by
  refine ⟨fun b hb hcovers => filledIf_of_covers hg hb hcovers, ?_⟩
  intro ν rules calls query found hquery hsearch
  obtain ⟨es, hes, hfound⟩ := map_eq_ok_iff.1 hsearch
  refine ⟨es, hfound.symm, fun e he => ?_⟩
  obtain ⟨hmem, hanswers⟩ := Node.answers_of_mem_search hes he
  have haccepted := (History.entries_perm rules calls).mem_iff.1 hmem
  have hmet := Entry.isMet_of_answers hanswers
    (List.any_eq_true.2 ⟨_, hquery, rfl⟩) _ hquery
  exact ⟨haccepted,
    filledIf_of_covers hg (History.accepted_valid rules calls e haccepted) hmet⟩

/-- A square in the corner of the triangle, up to its long side. -/
def cornerSquare : Box Exact := ⟨real (-1), real (-1), real 0, real 0⟩

theorem edges_triangle : triangle.edges = [⟨⟨real (-1), real (-1)⟩, ⟨real 1, real (-1)⟩⟩,
    ⟨⟨real 1, real (-1)⟩, ⟨real (-1), real 1⟩⟩,
    ⟨⟨real (-1), real 1⟩, ⟨real (-1), real (-1)⟩⟩] := rfl

theorem covers_filledIf_triangle : (∀ v ∈ triangle.vertices, v.isFinite = true) ∧
    cornerSquare.isValid = true ∧ (Shape.polygon triangle).covers cornerSquare = true ∧
    ∀ p, cornerSquare.hasPoint p = true → triangle.hasPoint p = true := by
  have hvalid : cornerSquare.isValid = true := by simp [cornerSquare, Box.isValid_iff]
  have hcorners : ∀ p ∈ cornerSquare.corners, triangle.hasPoint p = true := by
    simp only [cornerSquare, Box.corners, List.forall_mem_cons, hasPoint, onBoundary,
      edges_triangle, List.any_cons, List.any_nil, Bool.and_eq_true, Bool.or_eq_true,
      Segment.has_real_iff]
    norm_num [triangle]
  have hinside : ∀ p, cornerSquare.surrounds p = true → ¬ triangle.onBoundary p = true := by
    intro p hp hon
    obtain ⟨x, y, rfl⟩ := Point.isFinite_iff.1 (isFinite_of_onBoundary isFinite_triangle hon)
    simp only [cornerSquare, Box.surrounds_iff, real_lt_real] at hp
    obtain ⟨⟨h1, h2⟩, h3, h4⟩ := hp
    simp only [onBoundary, edges_triangle, List.any_cons, List.any_nil, Bool.or_false,
      Bool.or_eq_true, Segment.has_real_iff] at hon
    rcases hon with ⟨hline, -⟩ | ⟨hline, -⟩ | ⟨hline, -⟩ <;> linarith
  have hcovers : (Shape.polygon triangle).covers cornerSquare = true :=
    (covers_iff_inside isFinite_triangle hvalid).2 ⟨hcorners, hinside⟩
  have hodd : triangle.oddCrossings ⟨real (-1 / 2), real (-1 / 2)⟩ = true := by
    simp only [oddCrossings, edges_triangle, List.countP_cons, List.countP_nil,
      Segment.crossesRay_real_iff]
    norm_num
  have hsome : cornerSquare.hasPoint ⟨real (-1 / 2), real (-1 / 2)⟩ = true ∧
      ¬ triangle.onBoundary ⟨real (-1 / 2), real (-1 / 2)⟩ = true ∧
      triangle.hasPoint ⟨real (-1 / 2), real (-1 / 2)⟩ = true := by
    refine ⟨by norm_num [cornerSquare, Box.hasPoint_iff], hinside _ ?_, ?_⟩
    · norm_num [cornerSquare, Box.surrounds_iff]
    · rw [hasPoint, hodd, Bool.or_true]
      rfl
  have hfilled := (covers_filledIf triangle isFinite_triangle).1 cornerSquare hvalid hcovers
  exact ⟨isFinite_triangle, hvalid, hcovers,
    (hfilled.wide (by simp [cornerSquare]) (by simp [cornerSquare])).2 ⟨_, hsome⟩⟩

/-! ## Boxes that pass and are not in the polygon -/

/-- A polygon around three sides of the unit square. -/
def notch : Polygon Exact :=
  ⟨[⟨real 0, real 1⟩, ⟨real 0, real 0⟩, ⟨real 1, real 0⟩, ⟨real 1, real 1⟩,
    ⟨real (1 + 1), real (-1)⟩, ⟨real (-1), real (-1)⟩]⟩

theorem edges_notch : notch.edges = [⟨⟨real 0, real 1⟩, ⟨real 0, real 0⟩⟩,
    ⟨⟨real 0, real 0⟩, ⟨real 1, real 0⟩⟩, ⟨⟨real 1, real 0⟩, ⟨real 1, real 1⟩⟩,
    ⟨⟨real 1, real 1⟩, ⟨real (1 + 1), real (-1)⟩⟩,
    ⟨⟨real (1 + 1), real (-1)⟩, ⟨real (-1), real (-1)⟩⟩,
    ⟨⟨real (-1), real (-1)⟩, ⟨real 0, real 1⟩⟩] := rfl

/-- **A polygon can cover a box, by its test, that reaches outside of it.** The corners of the unit
square are vertices of the notch, and no edge enters the square, whose center is outside. -/
theorem not_filled_notch : ¬ ∀ (g : Polygon Exact) (b : Box Exact), 3 ≤ g.vertices.length →
    (∀ v ∈ g.vertices, v.isFinite = true) → b.isValid = true →
    (Shape.polygon g).covers b = true → ∀ p, b.hasPoint p = true → g.hasPoint p = true := by
  have hfinite : ∀ v ∈ notch.vertices, v.isFinite = true := by
    simp [notch, Point.isFinite_iff]
  have hcorners : ∀ p ∈ unitSquare.corners, notch.hasPoint p = true := by
    intro p hp
    have hvertex : p ∈ notch.vertices := by
      simp only [unitSquare, Box.corners, List.mem_cons, List.not_mem_nil, or_false] at hp
      rcases hp with rfl | rfl | rfl | rfl <;> simp [notch]
    rw [hasPoint, onBoundary_of_mem hfinite hvertex]
    rfl
  have hinside : ∀ p, unitSquare.surrounds p = true → ¬ notch.onBoundary p = true := by
    intro p hp hon
    obtain ⟨x, y, rfl⟩ := Point.isFinite_iff.1 (isFinite_of_onBoundary hfinite hon)
    simp only [unitSquare, Box.surrounds_iff, real_lt_real] at hp
    obtain ⟨⟨h1, h2⟩, h3, h4⟩ := hp
    -- each edge is on one side of the square
    simp only [onBoundary, edges_notch, List.any_cons, List.any_nil, Bool.or_false,
      Bool.or_eq_true, Segment.has_real_iff] at hon
    norm_num at hon
    rcases hon with ⟨h, -⟩ | ⟨h, -⟩ | ⟨h, -⟩ | ⟨-, ⟨h, -⟩, -⟩ | ⟨h, -⟩ | ⟨-, ⟨-, h⟩, -⟩ <;>
      linarith
  have hcovers : (Shape.polygon notch).covers unitSquare = true :=
    (covers_iff_inside hfinite isValid_unitSquare).2 ⟨hcorners, hinside⟩
  have heven : ¬ notch.oddCrossings ⟨real (1 / 2), real (1 / 2)⟩ = true := by
    simp only [oddCrossings, edges_notch, List.countP_cons, List.countP_nil,
      Segment.crossesRay_real_iff]
    norm_num
  intro hclaim
  have hcenter := hclaim notch unitSquare (by decide) hfinite isValid_unitSquare hcovers
    ⟨real (1 / 2), real (1 / 2)⟩ (by norm_num [unitSquare, Box.hasPoint_iff])
  rw [hasPoint, Bool.and_eq_true, Bool.or_eq_true] at hcenter
  rcases hcenter.2 with hon | hodd
  · exact hinside _ (by norm_num [unitSquare, Box.surrounds_iff]) hon
  · exact heven hodd

end Polygon

end QuadIndex
