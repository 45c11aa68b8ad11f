import QuadIndex.Proofs.Exact.Box
import QuadIndex.Proofs.Exact.Circle
import QuadIndex.Proofs.Exact.Polygon
import QuadIndex.Proofs.Tree.Search

/-!
# Bounding boxes first

A leaf tests a stored box against the bounding boxes of the arguments, and only a box that passes is
tested against the arguments themselves, and only if one of these is more than its bounding box.
That changes no answer: what a shape meets or covers, its bounding box meets or covers too, and for
a point or a box the converse holds as well.

* `Shape.meets_eq_of_isExact`, `Shape.covers_eq_of_isExact`: points and boxes are their bounding
  boxes, whatever the scalars.
* `Shape.meets_boundingBox`, `Shape.covers_boundingBox`: all shapes, in exact arithmetic.
* `Condition.holds_of_isMet`, `Condition.isMet_eq_holds`: the same for all strategies.
* `testBox_refines`: the tests of a leaf together.
-/

namespace QuadIndex

section

variable {α : Type} [Scalar α] [LawfulScalar α]

/-! ## Shapes that are their bounding boxes -/

namespace Box

omit [LawfulScalar α] in
theorem meets_comm (b c : Box α) : b.meets c = c.meets b := by
  rw [Bool.eq_iff_iff, meets_iff, meets_iff]
  tauto

/-- A valid box lies in a point if it is one point, which is that one. -/
theorem covers_ofPoint {b : Box α} {p : Point α} (hb : b.isValid = true) :
    (b.isSinglePoint && b.hasPoint p) = (ofPoint p).covers b := by
  obtain ⟨hx, hy⟩ := isValid_iff.1 hb
  rw [Bool.eq_iff_iff, Bool.and_eq_true, isSinglePoint, Bool.and_eq_true, LawfulScalar.beq_iff,
    LawfulScalar.beq_iff, hasPoint_iff, covers_iff]
  constructor
  · rintro ⟨⟨⟨-, hx'⟩, -, hy'⟩, h1, h2, h3, h4⟩
    exact ⟨LawfulScalar.le_trans h2 hx', LawfulScalar.le_trans hx' h1,
      LawfulScalar.le_trans h4 hy', LawfulScalar.le_trans hy' h3⟩
  · rintro ⟨h1, h2, h3, h4⟩
    exact ⟨⟨⟨hx, LawfulScalar.le_trans h2 h1⟩, hy, LawfulScalar.le_trans h4 h3⟩,
      LawfulScalar.le_trans hx h2, LawfulScalar.le_trans h1 hx, LawfulScalar.le_trans hy h4,
      LawfulScalar.le_trans h3 hy⟩

end Box

namespace Shape

variable {s : Shape α} {b own : Box α}

omit [LawfulScalar α] in
theorem liesIn_eq (hown : s.boundingBox = .ok own) : s.liesIn b = b.covers own := by
  rw [liesIn, hown]

omit [LawfulScalar α] in
theorem meets_eq_of_isExact (hexact : s.isExact = true) (hown : s.boundingBox = .ok own) :
    s.meets b = b.meets own := by
  cases s with
  | point p => cases hown; rfl
  | envelope e => cases hown; exact Box.meets_comm _ b
  | circle c r => cases hexact
  | polygon g => cases hexact

theorem covers_eq_of_isExact (hexact : s.isExact = true) (hown : s.boundingBox = .ok own)
    (hb : b.isValid = true) : s.covers b = own.covers b := by
  cases s with
  | point p => cases hown; exact Box.covers_ofPoint hb
  | envelope e => cases hown; rfl
  | circle c r => cases hexact
  | polygon g => cases hexact

end Shape

/-! ## Strategies -/

namespace Condition

variable {c : Condition α} {stored own : Box α}

/-- **A condition that is met holds of the bounding box** of its argument, if the bounding box meets
and covers what the argument does. -/
theorem holds_of_isMet (hown : c.argument.boundingBox = .ok own)
    (hmeets : c.argument.meets stored = true → stored.meets own = true)
    (hcovers : c.argument.covers stored = true → own.covers stored = true)
    (h : c.isMet stored = true) : c.strategy.holds stored own = true := by
  obtain ⟨strategy, argument⟩ := c
  -- the four strategies that look at the shape; the others look at its box alone
  cases strategy with
  | overlap => exact hmeets h
  | contains => exact (Shape.liesIn_eq hown).symm.trans h
  | containedBy => exact hcovers h
  | same =>
    obtain ⟨hin, hout⟩ := Bool.and_eq_true_iff.1 h
    exact Box.beq_iff_covers.2 ⟨(Shape.liesIn_eq hown).symm.trans hout, hcovers hin⟩
  | _ => simpa [isMet, hown] using h

/-- A condition is met exactly if it holds of the bounding box of its argument, if the bounding box
meets and covers exactly what the argument does. -/
theorem isMet_eq_holds (hown : c.argument.boundingBox = .ok own)
    (hmeets : c.argument.meets stored = stored.meets own)
    (hcovers : c.argument.covers stored = own.covers stored) :
    c.isMet stored = c.strategy.holds stored own := by
  obtain ⟨strategy, argument⟩ := c
  cases strategy with
  | overlap => exact hmeets
  | contains => exact Shape.liesIn_eq hown
  | containedBy => exact hcovers
  | same =>
    rw [isMet, hcovers, Shape.liesIn_eq hown, Bool.eq_iff_iff, Bool.and_eq_true, and_comm]
    exact Box.beq_iff_covers.symm
  | _ => simp only [isMet, hown]

end Condition

end

/-! ## All shapes in exact arithmetic -/

open Exact

namespace Shape

variable {s : Shape Exact} {b own : Box Exact}

/-- **A box that a shape meets** meets its bounding box. -/
theorem meets_boundingBox (hown : s.boundingBox = .ok own) (hvalid : own.isValid = true)
    (hb : b.isValid = true) (h : s.meets b = true) : b.meets own = true := by
  cases s with
  | point p => rw [← meets_eq_of_isExact rfl hown]; exact h
  | envelope e => rw [← meets_eq_of_isExact rfl hown]; exact h
  | circle c r =>
    rw [boundingBox] at hown
    split at hown
    · rename_i hr
      cases hown
      exact meets_circleBox hvalid hr hb h
    · cases hown
  | polygon g => exact (Polygon.hullIn_boundingBox hown).meets hb h

/-- **A box that a shape covers** is covered by its bounding box. -/
theorem covers_boundingBox (hown : s.boundingBox = .ok own) (hvalid : own.isValid = true)
    (hb : b.isValid = true) (h : s.covers b = true) : own.covers b = true := by
  cases s with
  | point p => rw [← covers_eq_of_isExact rfl hown hb]; exact h
  | envelope e => rw [← covers_eq_of_isExact rfl hown hb]; exact h
  | circle c r =>
    rw [boundingBox] at hown
    split at hown
    · rename_i hr
      cases hown
      exact covers_circleBox hvalid hr hb h
    · cases hown
  | polygon g => exact (Polygon.hullIn_boundingBox hown).covers h

end Shape

/-- **A condition on a valid box**, in exact arithmetic: if it is met, then it holds of the bounding
box of its argument, and that is the same if the argument is its bounding box. -/
theorem Condition.isMet_spec {c : Condition Exact} {stored own : Box Exact}
    (hstored : stored.isValid = true) (hown : c.argumentBox = .ok own) :
    (c.isMet stored = true → c.strategy.holds stored own = true) ∧
      (c.isLossy = false → c.isMet stored = c.strategy.holds stored own) := by
  obtain ⟨hbox, hvalid⟩ := argumentBox_eq_ok_iff.1 hown
  constructor
  · exact holds_of_isMet hbox (Shape.meets_boundingBox hbox hvalid hstored)
      (Shape.covers_boundingBox hbox hvalid hstored)
  · intro hlossy
    have hexact : c.argument.isExact = true := by simpa [isLossy] using hlossy
    exact isMet_eq_holds hbox (Shape.meets_eq_of_isExact hexact hbox)
      (Shape.covers_eq_of_isExact hexact hbox hstored)

/-- **Testing bounding boxes first changes no answer**, in exact arithmetic: a leaf takes a valid
box exactly if the box meets every condition of the query. Of each condition by itself, the test on
the bounding box is at least as wide as the test on the argument, and equal to it for points and
boxes. -/
theorem testBox_refines (stored : Box Exact) (query : List (Condition Exact))
    (hstored : stored.isValid = true) (hquery : WellFormed query) :
    (∃ verdict, testBox stored query = .ok verdict ∧
      ((verdict.isMatch = true ∧
          (verdict.needsRecheck = false ∨ ∀ c ∈ query, c.isMet? stored = some true)) ↔
        ∀ c ∈ query, c.isMet? stored = some true)) ∧
    ∀ c ∈ query, ∃ own, c.argumentBox = .ok own ∧
      (c.isMet? stored = some true → c.strategy.holds stored own = true) ∧
      (c.isLossy = false → c.isMet? stored = some (c.strategy.holds stored own)) := by
  simp only [Condition.isMet?_eq hstored, Option.some.injEq]
  have hspec : ∀ c ∈ query, ∃ own, c.argumentBox = .ok own ∧
      (c.isMet stored = true → c.strategy.holds stored own = true) ∧
      (c.isLossy = false → c.isMet stored = c.strategy.holds stored own) := by
    intro c hc
    obtain ⟨own, hown⟩ := hquery c hc
    exact ⟨own, hown, c.isMet_spec hstored hown⟩
  have hmatches : ∀ c ∈ query, (c.isMet stored = true → c.matchesBox stored = true) ∧
      (c.isLossy = false → c.isMet stored = c.matchesBox stored) := by
    intro c hc
    obtain ⟨own, hown, hc⟩ := hspec c hc
    rwa [Condition.matchesBox, hown]
  refine ⟨?_, hspec⟩
  obtain ⟨arguments, hok, hall⟩ := argumentBoxes_ok hquery
  refine ⟨⟨arguments.all fun a => a.1.holds stored a.2, query.any Condition.isLossy⟩, ?_, ?_⟩
  · rw [testBox, hok]
    rfl
  · dsimp only
    rw [hall, List.all_eq_true]
    constructor
    · rintro ⟨hmatch, hexact | hmet⟩
      · -- no second test, so every argument is its bounding box
        intro c hc
        have hlossy : c.isLossy = false := by
          rw [List.any_eq_false] at hexact
          simpa using hexact c hc
        rw [(hmatches c hc).2 hlossy]
        exact hmatch c hc
      · exact hmet
    · intro hmet
      exact ⟨fun c hc => (hmatches c hc).1 (hmet c hc), Or.inr hmet⟩

/-- A circle, a polygon, a point and a box, each with a strategy of its own. -/
def mixedQuery : List (Condition Exact) :=
  [⟨.overlap, .circle ⟨real 0, real 0⟩ (real 1)⟩,
    ⟨.containedBy, .polygon ⟨[⟨real 0, real 0⟩, ⟨real 4, real 0⟩, ⟨real 0, real 4⟩]⟩⟩,
    ⟨.contains, .point ⟨real 1, real 1⟩⟩, ⟨.same, .envelope unitSquare⟩]

theorem testBox_refines_mixedQuery : unitSquare.isValid = true ∧ WellFormed mixedQuery ∧
    ∃ verdict, testBox unitSquare mixedQuery = .ok verdict ∧
      ((verdict.isMatch = true ∧ (verdict.needsRecheck = false ∨
          ∀ c ∈ mixedQuery, c.isMet? unitSquare = some true)) ↔
        ∀ c ∈ mixedQuery, c.isMet? unitSquare = some true) := by
  have hquery : WellFormed mixedQuery := by
    simp only [WellFormed, mixedQuery, List.forall_mem_cons, Condition.argumentBox_eq_ok_iff]
    refine ⟨⟨_, if_pos (by simp [zero_eq]), ?_⟩, ?_, ⟨_, rfl, ?_⟩, ⟨_, rfl, isValid_unitSquare⟩,
      ?_⟩
    · simp [Box.isValid_iff]
    · refine Polygon.boundingBox_ok (by simp) ?_
      simp [Point.isFinite_iff]
    · simp [Box.isValid_iff, Box.ofPoint]
    · simp
  exact ⟨isValid_unitSquare, hquery,
    (testBox_refines unitSquare mixedQuery isValid_unitSquare hquery).1⟩

end QuadIndex
