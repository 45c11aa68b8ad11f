import QuadIndex.Proofs.Box
import QuadIndex.Query.Satisfaction

/-!
# Pruning

A search carries a range of boxes down the tree and drops a node if no box in the range may satisfy
a strategy. That loses nothing if the range has every box below the node, and if the test on the
range holds whenever the strategy holds of a box in it.

* `BoxRange.full_has`, `BoxRange.narrow_has`: the range on the way down has each box below.
* `Strategy.mayHold_of_holds`: the test on a range with a match holds.
-/

namespace QuadIndex

variable {α : Type} [Scalar α]

/-- The ends of an interval are in bounds. -/
structure Bounds.Has (b : Bounds α) (i : Interval α) : Prop where
  le_low : b.low.low ≤ i.low
  low_le : i.low ≤ b.low.high
  le_high : b.high.low ≤ i.high
  high_le : i.high ≤ b.high.high

theorem BoxRange.has_iff {r : BoxRange α} {b : Box α} :
    r.has b = true ↔ r.x.Has b.xRange ∧ r.y.Has b.yRange := by
  simp only [has, Interval.has, Bool.and_eq_true, decide_eq_true_eq]
  constructor
  · rintro ⟨⟨⟨hx1, hx2⟩, hy1⟩, hy2⟩
    exact ⟨⟨hx1.1, hx1.2, hx2.1, hx2.2⟩, ⟨hy1.1, hy1.2, hy2.1, hy2.2⟩⟩
  · rintro ⟨hx, hy⟩
    exact ⟨⟨⟨⟨hx.le_low, hx.low_le⟩, hx.le_high, hx.high_le⟩, hy.le_low, hy.low_le⟩, hy.le_high,
      hy.high_le⟩

/-! ## Ranges on the way down -/

namespace Bounds.Has

variable {b : Bounds α} {i : Interval α} {c : α}

theorem atOrAbove (h : b.Has i) (hc : c ≤ i.high) : (b.atOrAbove c).Has i :=
  ⟨h.le_low, h.low_le, Scalar.greater_le h.le_high hc, h.high_le⟩

theorem atOrBelow (h : b.Has i) (hc : i.low ≤ c) : (b.atOrBelow c).Has i :=
  ⟨h.le_low, Scalar.le_lesser h.low_le hc, h.le_high, h.high_le⟩

end Bounds.Has

variable [LawfulScalar α]

open LawfulScalar Scalar

/-- Bounds that have an interval are valid, the low ones and the high ones. -/
theorem Bounds.Has.isValid {b : Bounds α} {i : Interval α} (h : b.Has i) :
    b.low.isValid = true ∧ b.high.isValid = true := by
  simp only [Interval.isValid, decide_eq_true_eq]
  exact ⟨le_trans h.le_low h.low_le, le_trans h.le_high h.high_le⟩

namespace BoxRange

/-- A range that has a box passes its check. -/
theorem isValid_of_has {r : BoxRange α} {b : Box α} (h : r.has b = true) :
    ∀ s ∈ r.sides, s.2.isValid = true := by
  obtain ⟨hx, hy⟩ := has_iff.1 h
  simp only [sides, List.forall_mem_cons]
  exact ⟨hx.isValid.1, hx.isValid.2, hy.isValid.1, hy.isValid.2, fun _ hs => by cases hs⟩

/-- **The range at the root has every valid box.** -/
theorem full_has {b : Box α} (h : b.isValid = true) : full.has b = true := by
  obtain ⟨hx, hy⟩ := Box.isValid_iff.1 h
  have hfull : ∀ {lo hi : α}, lo ≤ hi → Bounds.full.Has (⟨lo, hi⟩ : Interval α) := by
    intro lo hi hle
    exact ⟨neg_infinity_le (le_left hle), le_infinity (le_left hle), neg_infinity_le (le_right hle),
      le_infinity (le_right hle)⟩
  exact has_iff.2 ⟨hfull hx, hfull hy⟩

/-- **A step into the quadrant of a box keeps the box in range**, if the box and the cell hold
their centers. -/
theorem narrow_has {r : BoxRange α} {cell b : Box α} (h : r.has b = true)
    (hcell : cell.hasPoint cell.center = true) (hb : b.hasPoint b.center = true) :
    (r.narrow cell.center (cell.quadrantOf b)).has b = true := by
  obtain ⟨hx, hy⟩ := has_iff.1 h
  obtain ⟨hxlow, hxhigh, hylow, hyhigh⟩ := Box.hasPoint_iff.1 hb
  obtain ⟨hcx, -, hcy, -⟩ := Box.hasPoint_iff.1 hcell
  have hxnum := le_right hxlow
  have hynum := le_right hylow
  -- a side of the box is past its own center, which is past that of the cell
  refine has_iff.2 ⟨?_, ?_⟩
  · simp only [narrow, Box.quadrantOf, Quadrant.isEast_around, decide_eq_true_eq]
    split
    · rename_i heast
      exact hx.atOrAbove (le_trans heast hxhigh)
    · rename_i hwest
      have hlt := lt_of_not_le (le_right hcx) hxnum hwest
      exact hx.atOrBelow (le_trans hxlow (le_of_lt hlt))
  · simp only [narrow, Box.quadrantOf, Quadrant.isSouth_around, decide_eq_true_eq]
    split
    · rename_i hsouth
      exact hy.atOrBelow (le_trans hylow (le_of_lt hsouth))
    · rename_i hnorth
      have hle := le_of_not_lt hynum (le_right hcy) hnorth
      exact hy.atOrAbove (le_trans hle hyhigh)

end BoxRange

/-! ## Tests on a range -/

namespace Bounds.Has

variable {b : Bounds α} {i q : Interval α}

theorem mayMeet (h : b.Has i) (h1 : q.low ≤ i.high) (h2 : i.low ≤ q.high) :
    b.mayMeet q = true := by
  simp only [Bounds.mayMeet, Bool.and_eq_true, decide_eq_true_eq]
  exact ⟨le_trans h1 h.high_le, le_trans h.le_low h2⟩

theorem mayCover (h : b.Has i) (h1 : i.low ≤ q.low) (h2 : q.high ≤ i.high) :
    b.mayCover q = true := by
  simp only [Bounds.mayCover, Bool.and_eq_true, decide_eq_true_eq]
  exact ⟨le_trans h2 h.high_le, le_trans h.le_low h1⟩

theorem mayLieIn (h : b.Has i) (hi : i.low ≤ i.high) (h1 : q.low ≤ i.low) (h2 : i.high ≤ q.high) :
    b.mayLieIn q = true := by
  simp only [Bounds.mayLieIn, Interval.meets, Bool.and_eq_true, decide_eq_true_eq]
  have hlow : i.low ≤ q.high := le_trans hi h2
  have hhigh : q.low ≤ i.high := le_trans h1 hi
  exact ⟨⟨le_trans h.le_low hlow, le_trans h1 h.low_le⟩, le_trans h.le_high h2,
    le_trans hhigh h.high_le⟩

theorem mayEndBefore (h : b.Has i) (hi : i.low ≤ i.high) (h1 : i.high < q.low) :
    b.mayEndBefore q = true := by
  simp only [Bounds.mayEndBefore, Bool.and_eq_true, decide_eq_true_eq]
  exact ⟨lt_of_le_of_lt (le_trans h.le_low hi) h1, lt_of_le_of_lt h.le_high h1⟩

theorem mayEndBy (h : b.Has i) (hi : i.low ≤ i.high) (h1 : i.high ≤ q.high) :
    b.mayEndBy q = true := by
  simp only [Bounds.mayEndBy, Bool.and_eq_true, decide_eq_true_eq]
  exact ⟨le_trans (le_trans h.le_low hi) h1, le_trans h.le_high h1⟩

theorem mayStartAfter (h : b.Has i) (hi : i.low ≤ i.high) (h1 : q.high < i.low) :
    b.mayStartAfter q = true := by
  simp only [Bounds.mayStartAfter, Bool.and_eq_true, decide_eq_true_eq]
  exact ⟨lt_of_lt_of_le h1 h.low_le, lt_of_lt_of_le h1 (le_trans hi h.high_le)⟩

theorem mayStartFrom (h : b.Has i) (hi : i.low ≤ i.high) (h1 : q.low ≤ i.low) :
    b.mayStartFrom q = true := by
  simp only [Bounds.mayStartFrom, Bool.and_eq_true, decide_eq_true_eq]
  exact ⟨le_trans h1 h.low_le, le_trans h1 (le_trans hi h.high_le)⟩

end Bounds.Has

/-- **A range that has a match may hold one**, for each of the strategies. -/
theorem Strategy.mayHold_of_holds {s : Strategy} {r : BoxRange α} {b query : Box α}
    (hr : r.has b = true) (hb : b.isValid = true) (h : s.holds b query = true) :
    s.mayHold r query = true := by
  obtain ⟨hx, hy⟩ := BoxRange.has_iff.1 hr
  obtain ⟨hbx, hby⟩ := Box.isValid_iff.1 hb
  -- a box equal to the query is one that the query covers, and is looked for in the same way
  have hinside : query.covers b = true →
      (r.x.mayLieIn query.xRange && r.y.mayLieIn query.yRange) = true := by
    intro hcovers
    obtain ⟨h1, h2, h3, h4⟩ := Box.covers_iff.1 hcovers
    exact Bool.and_eq_true_iff.2 ⟨hx.mayLieIn hbx h1 h2, hy.mayLieIn hby h3 h4⟩
  cases s with
  | overlap =>
    obtain ⟨h1, h2, h3, h4⟩ := Box.meets_iff.1 h
    exact Bool.and_eq_true_iff.2 ⟨hx.mayMeet h2 h1, hy.mayMeet h4 h3⟩
  | contains =>
    obtain ⟨h1, h2, h3, h4⟩ := Box.covers_iff.1 h
    exact Bool.and_eq_true_iff.2 ⟨hx.mayCover h1 h2, hy.mayCover h3 h4⟩
  | containedBy => exact hinside h
  | same => exact hinside (Box.beq_iff_covers.1 h).2
  | left => exact hx.mayEndBefore hbx (of_decide_eq_true h)
  | overLeft => exact hx.mayEndBy hbx (of_decide_eq_true h)
  | right => exact hx.mayStartAfter hbx (of_decide_eq_true h)
  | overRight => exact hx.mayStartFrom hbx (of_decide_eq_true h)
  | below => exact hy.mayEndBefore hby (of_decide_eq_true h)
  | overBelow => exact hy.mayEndBy hby (of_decide_eq_true h)
  | above => exact hy.mayStartAfter hby (of_decide_eq_true h)
  | overAbove => exact hy.mayStartFrom hby (of_decide_eq_true h)

end QuadIndex
