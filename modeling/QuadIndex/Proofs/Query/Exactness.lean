import QuadIndex.Proofs.Binary64Order
import QuadIndex.Proofs.Query.Pruning

/-!
# Pruning is exact

A test on a range of boxes should hold no more often than it has to: if it holds, then some box in
the range satisfies the strategy. The box is made on each axis apart, from the interval of the
bounds that suits the strategy best: the widest one, the one that ends first, the one that starts
last, or the one that is cut down to the query. All four are valid as soon as the bounds have a
valid interval at all.

* `Bounds.Allows.widest`, `Bounds.Allows.firstToEnd`, `Bounds.Allows.lastToStart`,
  `Bounds.Allows.cutTo`: the bounds have these intervals, and they are valid.
* `Strategy.mayHold_sound_exact`: a test holds of a range exactly if the range has a match, for all
  strategies but `same`.
-/

namespace QuadIndex

variable {α : Type} [Scalar α]

/-- The box with the given projections. -/
def Box.ofRanges (x y : Interval α) : Box α := ⟨x.low, y.low, x.high, y.high⟩

namespace Bounds

/-- The interval that starts first and ends last. -/
def widest (b : Bounds α) : Interval α := ⟨b.low.low, b.high.high⟩

/-- The interval that starts first, and of those the one that ends first. -/
def firstToEnd (b : Bounds α) : Interval α := ⟨b.low.low, Scalar.greater b.low.low b.high.low⟩

/-- The interval that ends last, and of those the one that starts last. -/
def lastToStart (b : Bounds α) : Interval α := ⟨Scalar.lesser b.low.high b.high.high, b.high.high⟩

/-- The widest interval that does not leave `q`. -/
def cutTo (b : Bounds α) (q : Interval α) : Interval α :=
  ⟨Scalar.greater b.low.low q.low, Scalar.lesser b.high.high q.high⟩

/-- The bounds have the interval, which is valid. -/
def Allows (b : Bounds α) (i : Interval α) : Prop := b.Has i ∧ i.low ≤ i.high

/-! The end of an interval that decides a one-sided test is beyond `q` if the test holds. -/

variable {b : Bounds α} {q : Interval α}

theorem firstToEnd_high_lt (h : b.mayEndBefore q = true) : b.firstToEnd.high < q.low := by
  simp only [mayEndBefore, Bool.and_eq_true, decide_eq_true_eq] at h
  exact Scalar.greater_lt h.1 h.2

theorem firstToEnd_high_le (h : b.mayEndBy q = true) : b.firstToEnd.high ≤ q.high := by
  simp only [mayEndBy, Bool.and_eq_true, decide_eq_true_eq] at h
  exact Scalar.greater_le h.1 h.2

theorem lt_lastToStart_low (h : b.mayStartAfter q = true) : q.high < b.lastToStart.low := by
  simp only [mayStartAfter, Bool.and_eq_true, decide_eq_true_eq] at h
  exact Scalar.lt_lesser h.1 h.2

theorem le_lastToStart_low (h : b.mayStartFrom q = true) : q.low ≤ b.lastToStart.low := by
  simp only [mayStartFrom, Bool.and_eq_true, decide_eq_true_eq] at h
  exact Scalar.le_lesser h.1 h.2

end Bounds

theorem BoxRange.has_ofRanges {r : BoxRange α} {x y : Interval α} (hx : r.x.Allows x)
    (hy : r.y.Allows y) :
    (Box.ofRanges x y).isValid = true ∧ r.has (Box.ofRanges x y) = true :=
  ⟨Box.isValid_iff.2 ⟨hx.2, hy.2⟩, has_iff.2 ⟨hx.1, hy.1⟩⟩

variable [LawfulScalar α]

open LawfulScalar Scalar

namespace Bounds.Allows

variable {b : Bounds α} {i q : Interval α}

theorem widest (h : b.Allows i) : b.Allows b.widest := by
  obtain ⟨h, hi⟩ := h
  have hlow : b.low.low ≤ b.low.high := le_trans h.le_low h.low_le
  have hhigh : b.high.low ≤ b.high.high := le_trans h.le_high h.high_le
  exact ⟨⟨le_left hlow, hlow, hhigh, le_right hhigh⟩, le_trans h.le_low (le_trans hi h.high_le)⟩

theorem firstToEnd (h : b.Allows i) : b.Allows b.firstToEnd := by
  obtain ⟨hwide, hle⟩ := h.widest
  have hhigh : b.high.low ≤ b.high.high := hwide.le_high
  have hfirst := le_greater_left (y := b.high.low) (le_left hle)
  have hend := le_greater_right (le_left hle) (le_left hhigh)
  exact ⟨⟨hwide.le_low, hwide.low_le, hend, greater_le hle hhigh⟩, hfirst⟩

theorem lastToStart (h : b.Allows i) : b.Allows b.lastToStart := by
  obtain ⟨hwide, hle⟩ := h.widest
  have hlow : b.low.low ≤ b.low.high := hwide.low_le
  have hstart := lesser_le_left (y := b.high.high) (le_right hlow)
  have hlast := lesser_le_right (le_right hlow) (le_right hle)
  exact ⟨⟨le_lesser hlow hle, hstart, hwide.le_high, hwide.high_le⟩, hlast⟩

/-- The interval cut down to `q` lies in `q`. -/
theorem cutTo_inside (h : b.Allows i) (hq : q.low ≤ q.high) :
    q.low ≤ (b.cutTo q).low ∧ (b.cutTo q).high ≤ q.high := by
  have hle := h.widest.2
  exact ⟨le_greater_right (le_left hle) (le_left hq), lesser_le_right (le_right hle) (le_right hq)⟩

/-- An interval can be cut down to `q` if both of its ends may lie in `q`. -/
theorem cutTo (h : b.Allows i) (hq : q.low ≤ q.high) (hmay : b.mayLieIn q = true) :
    b.Allows (b.cutTo q) := by
  obtain ⟨hwide, hle⟩ := h.widest
  have hlow : b.low.low ≤ b.low.high := hwide.low_le
  have hhigh : b.high.low ≤ b.high.high := hwide.le_high
  simp only [mayLieIn, Interval.meets, Bool.and_eq_true, decide_eq_true_eq] at hmay
  obtain ⟨⟨h1, h2⟩, h3, h4⟩ := hmay
  refine ⟨⟨le_greater_left (le_left hle), greater_le hlow h2, le_lesser hhigh h3,
    lesser_le_left (le_right hle)⟩, ?_⟩
  exact greater_le (le_lesser hle h1) (le_lesser h4 hq)

end Bounds.Allows

/-- **A test on a range loses no match, and holds of no range without one**, for every strategy
but `same`. The range has to have a box at all. -/
theorem Strategy.mayHold_sound_exact (r : BoxRange α) (query : Box α)
    (hquery : query.isValid = true) :
    (∀ (s : Strategy) (b : Box α), b.isValid = true → r.has b = true → s.holds b query = true →
      s.mayHold r query = true) ∧
    ((∃ b : Box α, b.isValid = true ∧ r.has b = true) →
      ∀ s : Strategy, s ≠ same → s.mayHold r query = true →
        ∃ b : Box α, b.isValid = true ∧ r.has b = true ∧ s.holds b query = true) := by
  refine ⟨fun s b hb hr h => mayHold_of_holds hr hb h, ?_⟩
  rintro ⟨b, hb, hr⟩ s hs hmay
  obtain ⟨hqx, hqy⟩ := Box.isValid_iff.1 hquery
  obtain ⟨hbx, hby⟩ := Box.isValid_iff.1 hb
  obtain ⟨hrx, hry⟩ := BoxRange.has_iff.1 hr
  have hx : r.x.Allows b.xRange := ⟨hrx, hbx⟩
  have hy : r.y.Allows b.yRange := ⟨hry, hby⟩
  -- on an axis that the strategy does not look at, the box keeps what it has
  have hbox : ∀ {x y : Interval α}, r.x.Allows x → r.y.Allows y →
      s.holds (Box.ofRanges x y) query = true →
      ∃ b : Box α, b.isValid = true ∧ r.has b = true ∧ s.holds b query = true := by
    intro x y hx hy hholds
    obtain ⟨hvalid, hhas⟩ := BoxRange.has_ofRanges hx hy
    exact ⟨_, hvalid, hhas, hholds⟩
  cases s with
  | same => exact absurd rfl hs
  | overlap =>
    simp only [mayHold, Bounds.mayMeet, Bool.and_eq_true, decide_eq_true_eq] at hmay
    obtain ⟨⟨h1, h2⟩, h3, h4⟩ := hmay
    exact hbox hx.widest hy.widest (Box.meets_iff.2 ⟨h2, h1, h4, h3⟩)
  | contains =>
    simp only [mayHold, Bounds.mayCover, Bool.and_eq_true, decide_eq_true_eq] at hmay
    obtain ⟨⟨h1, h2⟩, h3, h4⟩ := hmay
    exact hbox hx.widest hy.widest (Box.covers_iff.2 ⟨h2, h1, h4, h3⟩)
  | containedBy =>
    obtain ⟨hmayx, hmayy⟩ := Bool.and_eq_true_iff.1 hmay
    obtain ⟨h1, h2⟩ := hx.cutTo_inside (q := query.xRange) hqx
    obtain ⟨h3, h4⟩ := hy.cutTo_inside (q := query.yRange) hqy
    exact hbox (hx.cutTo hqx hmayx) (hy.cutTo hqy hmayy) (Box.covers_iff.2 ⟨h1, h2, h3, h4⟩)
  | left => exact hbox hx.firstToEnd hy (decide_eq_true (Bounds.firstToEnd_high_lt hmay))
  | overLeft => exact hbox hx.firstToEnd hy (decide_eq_true (Bounds.firstToEnd_high_le hmay))
  | right => exact hbox hx.lastToStart hy (decide_eq_true (Bounds.lt_lastToStart_low hmay))
  | overRight => exact hbox hx.lastToStart hy (decide_eq_true (Bounds.le_lastToStart_low hmay))
  | below => exact hbox hx hy.firstToEnd (decide_eq_true (Bounds.firstToEnd_high_lt hmay))
  | overBelow => exact hbox hx hy.firstToEnd (decide_eq_true (Bounds.firstToEnd_high_le hmay))
  | above => exact hbox hx hy.lastToStart (decide_eq_true (Bounds.lt_lastToStart_low hmay))
  | overAbove => exact hbox hx hy.lastToStart (decide_eq_true (Bounds.le_lastToStart_low hmay))

/-- The range of the boxes that reach past the origin to the north-east, and start south-west of
`(1, 1)`. -/
def nearOrigin : BoxRange Binary64 :=
  (BoxRange.full.narrow ⟨0, 0⟩ .northEast).narrow ⟨1, 1⟩ .southWest

theorem mayHold_nearOrigin :
    (⟨-1, -1, 1, 1⟩ : Box Binary64).isValid = true ∧
    (∃ b : Box Binary64, b.isValid = true ∧ nearOrigin.has b = true) ∧
    Strategy.containedBy.mayHold nearOrigin ⟨-1, -1, 1, 1⟩ = true ∧
    ∃ b : Box Binary64, b.isValid = true ∧ nearOrigin.has b = true ∧
      Strategy.containedBy.holds b ⟨-1, -1, 1, 1⟩ = true := by
  have hquery : (⟨-1, -1, 1, 1⟩ : Box Binary64).isValid = true := by decide +kernel
  have hbox : ∃ b : Box Binary64, b.isValid = true ∧ nearOrigin.has b = true :=
    ⟨⟨0, 0, 1, 1⟩, by decide +kernel⟩
  have hmay : Strategy.containedBy.mayHold nearOrigin ⟨-1, -1, 1, 1⟩ = true := by decide +kernel
  obtain ⟨-, hexact⟩ := Strategy.mayHold_sound_exact nearOrigin ⟨-1, -1, 1, 1⟩ hquery
  exact ⟨hquery, hbox, hmay, hexact hbox .containedBy (by decide) hmay⟩

end QuadIndex
