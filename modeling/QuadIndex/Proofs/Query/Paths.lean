import QuadIndex.Proofs.Binary64Order
import QuadIndex.Proofs.Page.Hull
import QuadIndex.Proofs.Query.Pruning
import QuadIndex.Proofs.Success

/-!
# The range at the end of a path

A step of a search moves one bound on each axis, so a path of steps is a list of cuts on either
axis. Cuts only ever move the inner two of the four bounds on an axis, and each of these two is
the extreme of the values it was moved to. All else about the range follows: it is valid, since the
outer bounds stay infinite; it is the same for the same cuts in another order; and more cuts give a
range within that of fewer.

* `Bounds.IsCutBy`: the bounds on an axis by the cuts made on it.
* `Bounds.IsCutBy.cut`, `Bounds.IsCutBy.foldl_cut`: what one cut does, and what a list of them does.
* `Bounds.IsCutBy.has_iff`: the intervals in bounds are those that every cut keeps.
* `BoxRange.narrowPath_isEndOf`: the range at the end of a path from the root.
-/

namespace QuadIndex

variable {α : Type} [Scalar α]

/-! ## Cuts on one axis -/

/-- A value on an axis, and on which side of it intervals have to have an end. -/
structure Cut (α : Type) where
  above : Bool
  value : α

/-- The interval ends at or above the value, or starts at or below it. -/
def Cut.Keeps (c : Cut α) (i : Interval α) : Prop :=
  if c.above then c.value ≤ i.high else i.low ≤ c.value

/-- Keeps the intervals that the cut keeps. -/
def Bounds.cut (b : Bounds α) (c : Cut α) : Bounds α :=
  if c.above then b.atOrAbove c.value else b.atOrBelow c.value

/-- The cut of a step on the horizontal axis. -/
def cutX (s : Point α × Quadrant) : Cut α := ⟨s.2.isEast, s.1.x⟩

/-- The cut of a step on the vertical axis. -/
def cutY (s : Point α × Quadrant) : Cut α := ⟨!s.2.isSouth, s.1.y⟩

/-- **A path cuts either axis** once in each step. -/
theorem BoxRange.narrowPath_eq (r : BoxRange α) (steps : List (Point α × Quadrant)) :
    r.narrowPath steps = ⟨(steps.map cutX).foldl Bounds.cut r.x,
      (steps.map cutY).foldl Bounds.cut r.y⟩ := by
  induction steps generalizing r with
  | nil => rfl
  | cons s steps ih =>
    have hx : (r.narrow s.1 s.2).x = r.x.cut (cutX s) := rfl
    have hy : (r.narrow s.1 s.2).y = r.y.cut (cutY s) := by
      obtain ⟨center, q⟩ := s
      cases q <;> rfl
    have hstep : r.narrowPath (s :: steps) = (r.narrow s.1 s.2).narrowPath steps := rfl
    rw [hstep, ih, hx, hy]
    rfl

/-- **The bounds after some cuts of the full range.** The outer two are still infinite. Of the inner
two, one is the least value of the cuts that keep what is below, and one the greatest of the
others. -/
structure Bounds.IsCutBy (b : Bounds α) (cuts : List (Cut α)) : Prop where
  low_low : b.low.low = -Scalar.infinity
  high_high : b.high.high = Scalar.infinity
  low_high_num : b.low.high ≤ b.low.high
  high_low_num : b.high.low ≤ b.high.low
  le_low_high_iff {z : α} : z ≤ z → (z ≤ b.low.high ↔ ∀ c ∈ cuts, c.above = false → z ≤ c.value)
  high_low_le_iff {z : α} : z ≤ z → (b.high.low ≤ z ↔ ∀ c ∈ cuts, c.above = true → c.value ≤ z)

variable [LawfulScalar α]

open LawfulScalar Scalar

namespace Bounds.IsCutBy

variable {b b' : Bounds α} {cuts cuts' : List (Cut α)} {c : Cut α} {i : Interval α}

/-- The full range is not cut, if there are numbers in it. -/
theorem full (h : (-infinity : α) ≤ infinity) : (Bounds.full : Bounds α).IsCutBy [] := by
  constructor
  case low_low => rfl
  case high_high => rfl
  case low_high_num => exact le_right h
  case high_low_num => exact le_left h
  case le_low_high_iff =>
    intro z hz
    exact iff_of_true (le_infinity hz) fun _ hc => absurd hc List.not_mem_nil
  case high_low_le_iff =>
    intro z hz
    exact iff_of_true (neg_infinity_le hz) fun _ hc => absurd hc List.not_mem_nil

/-- **A cut that keeps what ends above** a value moves the lower bound of the ends up to it, unless
that is past it already. -/
theorem atOrAbove {value : α} (h : b.IsCutBy cuts) (hnum : value ≤ value) :
    (b.atOrAbove value).IsCutBy (cuts ++ [⟨true, value⟩]) := by
  constructor
  case low_low => exact h.low_low
  case high_high => exact h.high_high
  case low_high_num => exact h.low_high_num
  case high_low_num => exact le_right (le_greater_left h.high_low_num)
  case le_low_high_iff =>
    intro z hz
    have hkept : z ≤ b.low.high ↔ _ := h.le_low_high_iff hz
    simpa [Bounds.atOrAbove, or_imp, forall_and] using hkept
  case high_low_le_iff =>
    intro z hz
    have hmoved : greater b.high.low value ≤ z ↔ _ := greater_le_iff h.high_low_num hnum
    rw [h.high_low_le_iff hz] at hmoved
    simpa [Bounds.atOrAbove, or_imp, forall_and] using hmoved

/-- **A cut that keeps what starts below** a value moves the upper bound of the starts down to it,
unless that is past it already. -/
theorem atOrBelow {value : α} (h : b.IsCutBy cuts) (hnum : value ≤ value) :
    (b.atOrBelow value).IsCutBy (cuts ++ [⟨false, value⟩]) := by
  constructor
  case low_low => exact h.low_low
  case high_high => exact h.high_high
  case low_high_num => exact le_left (lesser_le_left h.low_high_num)
  case high_low_num => exact h.high_low_num
  case le_low_high_iff =>
    intro z hz
    have hmoved : z ≤ lesser b.low.high value ↔ _ := le_lesser_iff h.low_high_num hnum
    rw [h.le_low_high_iff hz] at hmoved
    simpa [Bounds.atOrBelow, or_imp, forall_and] using hmoved
  case high_low_le_iff =>
    intro z hz
    have hkept : b.high.low ≤ z ↔ _ := h.high_low_le_iff hz
    simpa [Bounds.atOrBelow, or_imp, forall_and] using hkept

/-- **One more cut.** -/
theorem cut (h : b.IsCutBy cuts) (hc : c.value ≤ c.value) : (b.cut c).IsCutBy (cuts ++ [c]) := by
  obtain ⟨above, value⟩ := c
  cases above with
  | true => exact h.atOrAbove hc
  | false => exact h.atOrBelow hc

/-- **A list of cuts**, one after another. -/
theorem foldl_cut (h : b.IsCutBy cuts) (hnum : ∀ c ∈ cuts', c.value ≤ c.value) :
    (cuts'.foldl Bounds.cut b).IsCutBy (cuts ++ cuts') := by
  induction cuts' generalizing b cuts with
  | nil =>
    rw [List.append_nil]
    exact h
  | cons c cuts' ih =>
    rw [List.forall_mem_cons] at hnum
    have hnext := ih (h.cut hnum.1) hnum.2
    rw [List.append_assoc] at hnext
    exact hnext

/-- Bounds that are cut are valid. -/
theorem isValid (h : b.IsCutBy cuts) : b.low.isValid = true ∧ b.high.isValid = true := by
  rw [Interval.isValid_iff, Interval.isValid_iff, h.low_low, h.high_high]
  exact ⟨neg_infinity_le h.low_high_num, le_infinity h.high_low_num⟩

/-- **More cuts leave less.** -/
theorem liesIn (h : b.IsCutBy cuts) (h' : b'.IsCutBy cuts') (hsub : cuts' ⊆ cuts) :
    b.liesIn b' = true := by
  have houter : b'.low.low ≤ b.low.low ∧ b.high.high ≤ b'.high.high := by
    rw [h.low_low, h'.low_low, h.high_high, h'.high_high]
    exact ⟨le_left (neg_infinity_le h.low_high_num), le_right (le_infinity h.low_high_num)⟩
  have hlow : b.low.high ≤ b'.low.high := by
    have hcuts := (h.le_low_high_iff h.low_high_num).1 h.low_high_num
    exact (h'.le_low_high_iff h.low_high_num).2 fun c hc => hcuts c (hsub hc)
  have hhigh : b'.high.low ≤ b.high.low := by
    have hcuts := (h.high_low_le_iff h.high_low_num).1 h.high_low_num
    exact (h'.high_low_le_iff h.high_low_num).2 fun c hc => hcuts c (hsub hc)
  simp only [Bounds.liesIn, Interval.liesIn, Bool.and_eq_true, decide_eq_true_eq]
  exact ⟨⟨houter.1, hlow⟩, hhigh, houter.2⟩

omit [LawfulScalar α] in
/-- All cuts keep an interval if it starts and ends within the inner bounds. -/
theorem keeps_iff (h : b.IsCutBy cuts) (hlow : i.low ≤ i.low) (hhigh : i.high ≤ i.high) :
    (∀ c ∈ cuts, c.Keeps i) ↔ i.low ≤ b.low.high ∧ b.high.low ≤ i.high := by
  rw [h.le_low_high_iff hlow, h.high_low_le_iff hhigh, ← forall₂_and]
  refine forall₂_congr fun c _ => ?_
  cases habove : c.above <;> simp [Cut.Keeps, habove]

/-- **The intervals in bounds** are those that every cut keeps. -/
theorem has_iff (h : b.IsCutBy cuts) (hlow : i.low ≤ i.low) (hhigh : i.high ≤ i.high) :
    b.Has i ↔ ∀ c ∈ cuts, c.Keeps i := by
  rw [h.keeps_iff hlow hhigh]
  refine ⟨fun hhas => ⟨hhas.low_le, hhas.le_high⟩, fun ⟨hstart, hend⟩ => ?_⟩
  have hfirst : b.low.low ≤ i.low := by
    rw [h.low_low]
    exact neg_infinity_le hlow
  have hlast : i.high ≤ b.high.high := by
    rw [h.high_high]
    exact le_infinity hhigh
  exact ⟨hfirst, hstart, hend, hlast⟩

end Bounds.IsCutBy

/-! ## Ranges -/

theorem BoxRange.beq_of_liesIn {r s : BoxRange α} (hrs : r.liesIn s = true)
    (hsr : s.liesIn r = true) : (r == s) = true := by
  simp only [liesIn, Bounds.liesIn, Bool.and_eq_true] at hrs hsr
  obtain ⟨⟨h1, h2⟩, h3, h4⟩ := hrs
  obtain ⟨⟨k1, k2⟩, k3, k4⟩ := hsr
  cases r with | mk x y =>
  cases s with | mk x' y' =>
  cases x; cases y; cases x'; cases y'
  change (((_ == _) && (_ == _)) && ((_ == _) && (_ == _))) = true
  simp only [Bool.and_eq_true]
  exact ⟨⟨Interval.beq_of_covers k1 h1, Interval.beq_of_covers k2 h2⟩,
    Interval.beq_of_covers k3 h3, Interval.beq_of_covers k4 h4⟩

/-- Neither coordinate is a NaN. -/
def Point.isNumeric (p : Point α) : Bool := !isNaN p.x && !isNaN p.y

/-- The box reaches the center of a step: on either axis, its side in the direction of the quadrant
is level with the center, or past it. -/
def Box.reaches (b : Box α) (center : Point α) (q : Quadrant) : Prop :=
  (if q.isEast then center.x ≤ b.maxX else b.minX ≤ center.x) ∧
    (if q.isSouth then b.minY ≤ center.y else center.y ≤ b.maxY)

omit [LawfulScalar α] in
/-- The cuts of a step keep the projections of the boxes that reach its center. -/
theorem Box.reaches_iff_keeps {b : Box α} {s : Point α × Quadrant} :
    b.reaches s.1 s.2 ↔ (cutX s).Keeps b.xRange ∧ (cutY s).Keeps b.yRange := by
  obtain ⟨center, q⟩ := s
  cases q <;> rfl

/-- **The range at the end of a path** from the root. It passes its check, lies in the range at
each earlier place of the path, does not depend on the order of the steps, and has exactly the boxes
that reach the centers of all steps. -/
structure BoxRange.IsEndOf (r : BoxRange α) (steps : List (Point α × Quadrant)) : Prop where
  check : r.check = .ok ()
  liesIn {earlier : List (Point α × Quadrant)} : earlier <+: steps →
    r.liesIn (full.narrowPath earlier) = true
  beq {other : List (Point α × Quadrant)} : other.Perm steps →
    (r == full.narrowPath other) = true
  has_iff {b : Box α} : b.isNumeric = true → (r.has b = true ↔ ∀ s ∈ steps, b.reaches s.1 s.2)

/-- The cuts of a path from the root, on both axes. -/
theorem BoxRange.isCutBy_narrowPath (hfull : (-infinity : α) ≤ infinity)
    {steps : List (Point α × Quadrant)} (hsteps : ∀ s ∈ steps, s.1.isNumeric = true) :
    (full.narrowPath steps).x.IsCutBy (steps.map cutX) ∧
      (full.narrowPath steps).y.IsCutBy (steps.map cutY) := by
  have hnum : ∀ s ∈ steps, s.1.x ≤ s.1.x ∧ s.1.y ≤ s.1.y := by
    intro s hs
    have hcenter := hsteps s hs
    simp only [Point.isNumeric, Bool.and_eq_true, Bool.not_eq_true', isNaN_eq_false_iff] at hcenter
    exact hcenter
  rw [narrowPath_eq]
  have hfresh := Bounds.IsCutBy.full hfull
  constructor
  · exact hfresh.foldl_cut (List.forall_mem_map.2 fun s hs => (hnum s hs).1)
  · exact hfresh.foldl_cut (List.forall_mem_map.2 fun s hs => (hnum s hs).2)

/-- **More steps leave less**, wherever on the path they are. -/
theorem BoxRange.liesIn_narrowPath (hfull : (-infinity : α) ≤ infinity)
    {steps other : List (Point α × Quadrant)} (hsteps : ∀ s ∈ steps, s.1.isNumeric = true)
    (hsub : other ⊆ steps) : (full.narrowPath steps).liesIn (full.narrowPath other) = true := by
  obtain ⟨hx, hy⟩ := isCutBy_narrowPath hfull hsteps
  obtain ⟨hx', hy'⟩ := isCutBy_narrowPath hfull fun s hs => hsteps s (hsub hs)
  have hxsub : other.map cutX ⊆ steps.map cutX := List.map_subset _ hsub
  have hysub : other.map cutY ⊆ steps.map cutY := List.map_subset _ hsub
  rw [liesIn, hx.liesIn hx' hxsub, hy.liesIn hy' hysub]
  rfl

/-- **The range at the end of a path of binary64 centers**, none of them a NaN. They may be
infinite, and zeros of both signs are one number. -/
theorem BoxRange.narrowPath_isEndOf (steps : List (Point Binary64 × Quadrant))
    (hsteps : ∀ s ∈ steps, s.1.isNumeric = true) :
    (full.narrowPath steps).IsEndOf steps := by
  have hfull : (-infinity : Binary64) ≤ infinity := by decide
  obtain ⟨hx, hy⟩ := isCutBy_narrowPath hfull hsteps
  constructor
  case check =>
    rw [check_eq_ok_iff]
    simp only [sides, List.forall_mem_cons]
    exact ⟨hx.isValid.1, hx.isValid.2, hy.isValid.1, hy.isValid.2, fun _ hs => by cases hs⟩
  case liesIn => exact fun hearlier => liesIn_narrowPath hfull hsteps hearlier.subset
  case beq =>
    intro other hperm
    have hother : ∀ s ∈ other, s.1.isNumeric = true := fun s hs => hsteps s (hperm.subset hs)
    exact beq_of_liesIn (liesIn_narrowPath hfull hsteps hperm.subset)
      (liesIn_narrowPath hfull hother hperm.symm.subset)
  case has_iff =>
    intro b hb
    simp only [Box.isNumeric, Bool.and_eq_true, Bool.not_eq_true', isNaN_eq_false_iff] at hb
    obtain ⟨⟨⟨hminX, hminY⟩, hmaxX⟩, hmaxY⟩ := hb
    rw [BoxRange.has_iff, hx.has_iff (i := b.xRange) hminX hmaxX,
      hy.has_iff (i := b.yRange) hminY hmaxY, List.forall_mem_map, List.forall_mem_map,
      ← forall₂_and]
    exact forall₂_congr fun _ _ => Box.reaches_iff_keeps.symm

/-- Two steps around centers at infinity, and two around zeros of different sign. -/
def endlessPath : List (Point Binary64 × Quadrant) :=
  [(⟨infinity, -infinity⟩, .northEast), (⟨0, 0⟩, .southEast), (⟨-0, -0⟩, .southWest),
    (⟨-infinity, infinity⟩, .southWest)]

theorem BoxRange.narrowPath_isEndOf_endlessPath : (∀ s ∈ endlessPath, s.1.isNumeric = true) ∧
    (full.narrowPath endlessPath).IsEndOf endlessPath := by
  have hsteps : ∀ s ∈ endlessPath, s.1.isNumeric = true := by decide
  exact ⟨hsteps, narrowPath_isEndOf endlessPath hsteps⟩

end QuadIndex
