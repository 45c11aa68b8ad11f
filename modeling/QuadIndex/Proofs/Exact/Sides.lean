import QuadIndex.Proofs.Exact.Parity

/-!
# Sides of a line

A segment has the points with a turn above zero to its left, and those with a turn below zero to its
right. Along any line, the turn changes evenly, so that what is between two points on one side is on
that side.

Only a segment that goes up past the height of a point can be crossed by the ray from the point, if
the point is to its left.

* `Segment.exists_turn_pointAt`: the turn along a line.
* `Segment.isFinite_or_not_turn`: points infinitely far away.
* `Segment.crossesRay_of_turn_pos`: the ray from a point to the left of a segment.
* `Segment.turn_start_eq_zero`: two segments that go up past a point.
* `Segment.slopeFrom_lt`: how the line from a point to a place turns, as the place moves along a
  segment.
-/

namespace QuadIndex

open Exact LawfulScalar

namespace Segment

/-! ## Sides of a line -/

section

variable {α : Type} [Scalar α]

/-- An edge in the direction that has the inside of its ring to the left: as it is listed, or turned
around if the ring is listed clockwise. -/
def insideLeft (clockwise : Bool) (s : Segment α) : Segment α :=
  if clockwise then s.reverse else s

/-- The segment goes up to a height above the point from one that is not above it. -/
def goesUpPast (s : Segment α) (p : Point α) : Bool :=
  !decide (p.y < s.a.y) && decide (p.y < s.b.y)

/-- How far to the east the line from `p` to `v` goes for each step up. -/
def slopeFrom (p v : Point α) : α := (v.x - p.x) / (v.y - p.y)

theorem goesUpPast_iff {s : Segment α} {p : Point α} :
    s.goesUpPast p = true ↔ ¬ p.y < s.a.y ∧ p.y < s.b.y := by
  rw [goesUpPast, Bool.and_eq_true, Bool.not_eq_true', decide_eq_false_iff_not, decide_eq_true_eq]

end

variable {s t : Segment Exact} {p u v : Point Exact}

theorem exists_turn_real (hs : s.IsFinite) (hp : p.isFinite = true) : ∃ r, s.turn p = real r := by
  obtain ⟨x₁, y₁, x₂, y₂, rfl⟩ := hs.exists_real
  obtain ⟨x, y, rfl⟩ := Point.isFinite_iff.1 hp
  exact ⟨_, turn_real x₁ y₁ x₂ y₂ x y⟩

/-- The ends are on the line. -/
theorem turn_ends (hs : s.IsFinite) : s.turn s.a = real 0 ∧ s.turn s.b = real 0 := by
  obtain ⟨x₁, y₁, x₂, y₂, rfl⟩ := hs.exists_real
  rw [turn_real, turn_real]
  constructor <;> exact congrArg real (by ring)

/-- The other direction has the sides exchanged. -/
theorem turn_reverse (hs : s.IsFinite) (hp : p.isFinite = true) :
    s.reverse.turn p = -s.turn p := by
  obtain ⟨x₁, y₁, x₂, y₂, rfl⟩ := hs.exists_real
  obtain ⟨x, y, rfl⟩ := Point.isFinite_iff.1 hp
  rw [Segment.reverse, turn_real, turn_real, neg_real]
  exact congrArg real (by ring)

/-- **Along a line, the turn changes evenly.** -/
theorem exists_turn_pointAt (ht : t.IsFinite) (hs : s.IsFinite) (r : ℝ) :
    ∃ a b : ℝ, t.turn s.a = real a ∧ t.turn s.b = real b ∧
      t.turn (s.pointAt (real r)) = real ((1 - r) * a + r * b) := by
  obtain ⟨x, y, x', y', rfl⟩ := hs.exists_real
  obtain ⟨x₁, y₁, x₂, y₂, rfl⟩ := ht.exists_real
  refine ⟨_, _, turn_real _ _ _ _ _ _, turn_real _ _ _ _ _ _, ?_⟩
  rw [pointAt_real, turn_real]
  exact congrArg real (by ring)

/-- A point on the line through two points has a place on it. -/
theorem exists_pointAt (hs : s.IsFinite) (hne : s.a ≠ s.b) (hp : p.isFinite = true)
    (h : s.turn p = 0) : ∃ r : ℝ, p = s.pointAt (real r) := by
  obtain ⟨x₁, y₁, x₂, y₂, rfl⟩ := hs.exists_real
  obtain ⟨x, y, rfl⟩ := Point.isFinite_iff.1 hp
  rw [turn_real, zero_eq] at h
  have hturn := real.inj h
  simp only [pointAt_real, Point.mk.injEq, real.injEq]
  by_cases hx : x₂ - x₁ = 0
  · have hy : y₂ - y₁ ≠ 0 := fun heq => hne (by rw [sub_eq_zero.1 hx, sub_eq_zero.1 heq])
    refine ⟨(y - y₁) / (y₂ - y₁), ?_, ?_⟩
    · field_simp
      linarith
    · field_simp
      ring
  · refine ⟨(x - x₁) / (x₂ - x₁), ?_, ?_⟩
    · field_simp
      ring
    · field_simp
      linarith

/-- What is between two points that are not to the right of a line is not to the right of it. -/
theorem turn_nonneg_of_has (ht : t.IsFinite) (hs : s.IsFinite) (ha : 0 ≤ t.turn s.a)
    (hb : 0 ≤ t.turn s.b) (hp : s.has p = true) : 0 ≤ t.turn p := by
  obtain ⟨r, hr0, hr1, rfl⟩ := (has_iff hs).1 hp
  obtain ⟨a, b, hta, htb, htp⟩ := exists_turn_pointAt ht hs r
  rw [hta, zero_eq, real_le_real] at ha
  rw [htb, zero_eq, real_le_real] at hb
  have hfirst : 0 ≤ (1 - r) * a := mul_nonneg (by linarith) ha
  have hlast : 0 ≤ r * b := mul_nonneg hr0 hb
  rw [htp, zero_eq, real_le_real]
  linarith

/-- What is between two points to the right of a line, and equally far, is to the right of it. -/
theorem turn_neg_of_has (ht : t.IsFinite) (hs : s.IsFinite) (ha : t.turn s.a < 0)
    (hab : t.turn s.b = t.turn s.a) (hp : s.has p = true) : t.turn p < 0 := by
  obtain ⟨r, -, -, rfl⟩ := (has_iff hs).1 hp
  obtain ⟨a, b, hta, htb, htp⟩ := exists_turn_pointAt ht hs r
  rw [hta, htb] at hab
  obtain rfl := real.inj hab
  rw [htp, show (1 - r) * b + r * b = b by ring, ← hta]
  exact ha

/-- A point infinitely far away is to the right of all segments that go one way along an axis, or
on neither side of them. -/
theorem isFinite_or_not_turn (p : Point Exact) : p.isFinite = true ∨
    (∀ s : Segment Exact, s.IsFinite → s.a.x < s.b.x → ¬ 0 ≤ s.turn p) ∨
    (∀ s : Segment Exact, s.IsFinite → s.b.x < s.a.x → ¬ 0 ≤ s.turn p) ∨
    (∀ s : Segment Exact, s.IsFinite → s.a.y < s.b.y → ¬ 0 ≤ s.turn p) ∨
    ∀ s : Segment Exact, s.IsFinite → s.b.y < s.a.y → ¬ 0 ≤ s.turn p := by
  have hnegInf : ∀ z : Exact, ¬ 0 ≤ negInf - z := by
    intro z
    cases z <;> simp [zero_eq]
  obtain ⟨x, y⟩ := p
  cases y with
  | nan =>
    refine Or.inr (Or.inl fun s hs _ => ?_)
    obtain ⟨x₁, y₁, x₂, y₂, rfl⟩ := hs.exists_real
    simp [turn]
  | negInf =>
    refine Or.inr (Or.inl fun s hs hlt => ?_)
    obtain ⟨x₁, y₁, x₂, y₂, rfl⟩ := hs.exists_real
    have hpos : 0 < x₂ - x₁ := sub_pos.2 (real_lt_real.1 hlt)
    simp [turn, real_mul_negInf_of_pos hpos, hnegInf]
  | posInf =>
    refine Or.inr (Or.inr (Or.inl fun s hs hlt => ?_))
    obtain ⟨x₁, y₁, x₂, y₂, rfl⟩ := hs.exists_real
    have hneg : x₂ - x₁ < 0 := sub_neg.2 (real_lt_real.1 hlt)
    simp [turn, real_mul_posInf_of_neg hneg, hnegInf]
  | real y =>
    cases x with
    | nan =>
      refine Or.inr (Or.inl fun s hs _ => ?_)
      obtain ⟨x₁, y₁, x₂, y₂, rfl⟩ := hs.exists_real
      simp [turn]
    | negInf =>
      refine Or.inr (Or.inr (Or.inr (Or.inr fun s hs hlt => ?_)))
      obtain ⟨x₁, y₁, x₂, y₂, rfl⟩ := hs.exists_real
      have hneg : y₂ - y₁ < 0 := sub_neg.2 (real_lt_real.1 hlt)
      simp [turn, real_mul_negInf_of_neg hneg, zero_eq]
    | posInf =>
      refine Or.inr (Or.inr (Or.inr (Or.inl fun s hs hlt => ?_)))
      obtain ⟨x₁, y₁, x₂, y₂, rfl⟩ := hs.exists_real
      have hpos : 0 < y₂ - y₁ := sub_pos.2 (real_lt_real.1 hlt)
      simp [turn, real_mul_posInf_of_pos hpos, zero_eq]
    | real x => exact Or.inl (Point.isFinite_iff.2 ⟨x, y, rfl⟩)

/-! ## Rays to the left of a segment -/

/-- **A ray from the left of a segment** crosses it exactly if it goes up past the ray. -/
theorem crossesRay_of_turn_pos (hs : s.IsFinite) (hp : p.isFinite = true) (h : 0 < s.turn p) :
    s.crossesRay p = s.goesUpPast p := by
  obtain ⟨x₁, y₁, x₂, y₂, rfl⟩ := hs.exists_real
  obtain ⟨x, y, rfl⟩ := Point.isFinite_iff.1 hp
  rw [turn_real, zero_eq, real_lt_real] at h
  rw [Bool.eq_iff_iff, crossesRay_real_iff, goesUpPast_iff, real_lt_real, real_lt_real]
  -- the place of the crossing, seen from the point
  have hplace : y₁ - y₂ ≠ 0 → (x₁ - x₂) * (y - y₂) / (y₁ - y₂) + x₂ =
      x + ((x₂ - x₁) * (y - y₁) - (y₂ - y₁) * (x - x₁)) / (y₂ - y₁) := by
    intro hne
    have hne' : y₂ - y₁ ≠ 0 := fun heq => hne (by linarith)
    rw [show y₁ - y₂ = -(y₂ - y₁) by ring]
    field_simp
    ring
  constructor
  · rintro ⟨hstraddles, hlt⟩
    by_cases hstart : y < y₁
    · -- it would go down, and cross the line of the ray behind the point
      have hend : ¬ y < y₂ := fun hend => hstraddles ⟨fun _ => hend, fun _ => hstart⟩
      rw [hplace (by linarith)] at hlt
      have hback := div_neg_of_pos_of_neg h (sub_neg.2 ((not_lt.1 hend).trans_lt hstart))
      linarith
    · refine ⟨hstart, ?_⟩
      by_contra hend
      exact hstraddles ⟨fun h1 => absurd h1 hstart, fun h2 => absurd h2 hend⟩
  · rintro ⟨hnot, habove⟩
    have hrise : y₁ < y₂ := by linarith
    refine ⟨fun hiff => hnot (hiff.2 habove), ?_⟩
    rw [hplace (by linarith)]
    have hahead := div_pos h (sub_pos.2 hrise)
    linarith

/-- **Of two segments that go up past a point, neither to the right of the other**, one starts on
the line through the other. -/
theorem turn_start_eq_zero (hs : s.IsFinite) (ht : t.IsFinite) (hp : p.isFinite = true)
    (hsUp : s.goesUpPast p = true) (htUp : t.goesUpPast p = true)
    (hta : 0 ≤ s.turn t.a) (htb : 0 ≤ s.turn t.b) (hsa : 0 ≤ t.turn s.a) (hsb : 0 ≤ t.turn s.b) :
    s.turn t.a = 0 := by
  obtain ⟨x₁, y₁, x₂, y₂, rfl⟩ := hs.exists_real
  obtain ⟨x₃, y₃, x₄, y₄, rfl⟩ := ht.exists_real
  obtain ⟨x, y, rfl⟩ := Point.isFinite_iff.1 hp
  simp only [goesUpPast_iff, real_lt_real, not_lt] at hsUp htUp
  simp only [turn_real, zero_eq, real_le_real] at hta htb hsa hsb ⊢
  -- at the height of the point, each would be to the left of the other
  have hsum : (y₄ - y) * ((x₂ - x₁) * (y₃ - y₁) - (y₂ - y₁) * (x₃ - x₁)) +
      (y - y₃) * ((x₂ - x₁) * (y₄ - y₁) - (y₂ - y₁) * (x₄ - x₁)) +
      (y₂ - y) * ((x₄ - x₃) * (y₁ - y₃) - (y₄ - y₃) * (x₁ - x₃)) +
      (y - y₁) * ((x₄ - x₃) * (y₂ - y₃) - (y₄ - y₃) * (x₂ - x₃)) = 0 := by ring
  have h1 := mul_nonneg (sub_pos.2 htUp.2).le hta
  have h2 := mul_nonneg (sub_nonneg.2 htUp.1) htb
  have h3 := mul_nonneg (sub_pos.2 hsUp.2).le hsa
  have h4 := mul_nonneg (sub_nonneg.2 hsUp.1) hsb
  have hzero : (y₄ - y) * ((x₂ - x₁) * (y₃ - y₁) - (y₂ - y₁) * (x₃ - x₁)) = 0 := by linarith
  exact congrArg real ((mul_eq_zero.1 hzero).resolve_left (sub_pos.2 htUp.2).ne')

/-- Along a segment that has a point to its left, and is above it or below it, the slope from the
point falls. -/
theorem slopeFrom_lt (hs : s.IsFinite) (hp : p.isFinite = true) (h : 0 < s.turn p)
    (hside : (p.y < s.a.y ∧ p.y < s.b.y) ∨ (s.a.y < p.y ∧ s.b.y < p.y)) :
    slopeFrom p s.b < slopeFrom p s.a := by
  obtain ⟨x₁, y₁, x₂, y₂, rfl⟩ := hs.exists_real
  obtain ⟨x, y, rfl⟩ := Point.isFinite_iff.1 hp
  rw [turn_real, zero_eq, real_lt_real] at h
  simp only [real_lt_real] at hside
  have hne₁ : y₁ - y ≠ 0 := by
    intro heq
    rcases hside with ⟨h1, -⟩ | ⟨h1, -⟩ <;> linarith
  have hne₂ : y₂ - y ≠ 0 := by
    intro heq
    rcases hside with ⟨-, h2⟩ | ⟨-, h2⟩ <;> linarith
  have hpos : 0 < (y₁ - y) * (y₂ - y) := by
    rcases hside with ⟨h1, h2⟩ | ⟨h1, h2⟩
    · exact mul_pos (sub_pos.2 h1) (sub_pos.2 h2)
    · exact mul_pos_of_neg_of_neg (sub_neg.2 h1) (sub_neg.2 h2)
  have hdiff : (x₁ - x) / (y₁ - y) - (x₂ - x) / (y₂ - y) =
      ((x₂ - x₁) * (y - y₁) - (y₂ - y₁) * (x - x₁)) / ((y₁ - y) * (y₂ - y)) := by
    field_simp
    ring
  have hfall := div_pos h hpos
  simp only [slopeFrom, real_sub_real, real_div_real hne₁, real_div_real hne₂, real_lt_real]
  linarith

end Segment

end QuadIndex
