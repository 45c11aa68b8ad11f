import QuadIndex.Plane.Box
import QuadIndex.Proofs.Order

/-!
# Comparisons of boxes

The tests on boxes are conjunctions of comparisons of sides.

* `Quadrant.isEast_around`, `Quadrant.isSouth_around`: the comparisons that choose a quadrant.
* `Box.isValid_iff` and its like: the comparisons that a test makes.
* `Box.beq_iff_covers`, `Box.isNumeric_eq_beq_self`: which boxes are equal to another, and to
  themselves.
* `Box.meets_of_hasPoint`, `Box.covers_of_corners`: the tests by points of the boxes.
* `Box.isValid_quarter`: the quarters of a box that holds its center.
-/

namespace QuadIndex

variable {α : Type} [Scalar α]

theorem Quadrant.isEast_around (center p : Point α) :
    (Quadrant.around center p).isEast = decide (center.x ≤ p.x) := by
  unfold Quadrant.around
  cases decide (center.x ≤ p.x) <;> cases decide (p.y < center.y) <;> rfl

theorem Quadrant.isSouth_around (center p : Point α) :
    (Quadrant.around center p).isSouth = decide (p.y < center.y) := by
  unfold Quadrant.around
  cases decide (center.x ≤ p.x) <;> cases decide (p.y < center.y) <;> rfl

namespace Box

theorem isValid_iff {b : Box α} : b.isValid = true ↔ b.minX ≤ b.maxX ∧ b.minY ≤ b.maxY := by
  simp only [isValid, Bool.and_eq_true, decide_eq_true_eq]

theorem hasPoint_iff {b : Box α} {p : Point α} : b.hasPoint p = true ↔
    b.minX ≤ p.x ∧ p.x ≤ b.maxX ∧ b.minY ≤ p.y ∧ p.y ≤ b.maxY := by
  simp only [hasPoint, Bool.and_eq_true, decide_eq_true_eq, and_assoc]

theorem covers_iff {b c : Box α} : b.covers c = true ↔
    b.minX ≤ c.minX ∧ c.maxX ≤ b.maxX ∧ b.minY ≤ c.minY ∧ c.maxY ≤ b.maxY := by
  simp only [covers, Bool.and_eq_true, decide_eq_true_eq, and_assoc]

theorem meets_iff {b c : Box α} : b.meets c = true ↔
    b.minX ≤ c.maxX ∧ c.minX ≤ b.maxX ∧ b.minY ≤ c.maxY ∧ c.minY ≤ b.maxY := by
  simp only [meets, Bool.and_eq_true, decide_eq_true_eq, and_assoc]

theorem beq_iff_sides {b c : Box α} : (b == c) = true ↔ (b.minX == c.minX) = true ∧
    (b.minY == c.minY) = true ∧ (b.maxX == c.maxX) = true ∧ (b.maxY == c.maxY) = true := by
  cases b
  cases c
  change ((_ == _) && ((_ == _) && ((_ == _) && (_ == _)))) = true ↔ _
  simp only [Bool.and_eq_true]

/-- Two boxes are equal if each covers the other. -/
theorem beq_iff_covers [LawfulScalar α] {b c : Box α} :
    (b == c) = true ↔ b.covers c = true ∧ c.covers b = true := by
  simp only [beq_iff_sides, LawfulScalar.beq_iff, covers_iff]
  constructor
  · rintro ⟨⟨h1, h2⟩, ⟨h3, h4⟩, ⟨h5, h6⟩, h7, h8⟩
    exact ⟨⟨h1, h6, h3, h8⟩, h2, h5, h4, h7⟩
  · rintro ⟨⟨h1, h6, h3, h8⟩, h2, h5, h4, h7⟩
    exact ⟨⟨h1, h2⟩, ⟨h3, h4⟩, ⟨h5, h6⟩, h7, h8⟩

/-- No side is a NaN. -/
def isNumeric (b : Box α) : Bool :=
  !Scalar.isNaN b.minX && !Scalar.isNaN b.minY && !Scalar.isNaN b.maxX && !Scalar.isNaN b.maxY

/-- A box without NaN is one that is equal to itself. -/
theorem isNumeric_eq_beq_self (b : Box α) : b.isNumeric = (b == b) := by
  rw [Bool.eq_iff_iff, beq_iff_sides]
  simp only [isNumeric, Scalar.isNaN, Bool.not_not, Bool.and_eq_true, and_assoc]

/-- Two boxes with a common point meet. -/
theorem meets_of_hasPoint [LawfulScalar α] {b c : Box α} {p : Point α}
    (hb : b.hasPoint p = true) (hc : c.hasPoint p = true) : b.meets c = true := by
  obtain ⟨h1, h2, h3, h4⟩ := hasPoint_iff.1 hb
  obtain ⟨k1, k2, k3, k4⟩ := hasPoint_iff.1 hc
  exact meets_iff.2 ⟨LawfulScalar.le_trans h1 k2, LawfulScalar.le_trans k1 h2,
    LawfulScalar.le_trans h3 k4, LawfulScalar.le_trans k3 h4⟩

/-- A box is covered by each box with all of its corners. -/
theorem covers_of_corners {b c : Box α} (h : ∀ p ∈ c.corners, b.hasPoint p = true) :
    b.covers c = true := by
  simp only [corners, List.forall_mem_cons, hasPoint_iff] at h
  obtain ⟨⟨hminX, -, hminY, -⟩, -, ⟨-, hmaxX, -, hmaxY⟩, -⟩ := h
  exact covers_iff.2 ⟨hminX, hmaxX, hminY, hmaxY⟩

/-- The corners of a valid box are points of it. -/
theorem hasPoint_corners [LawfulScalar α] {b : Box α} (hb : b.isValid = true) :
    ∀ p ∈ b.corners, b.hasPoint p = true := by
  obtain ⟨hx, hy⟩ := isValid_iff.1 hb
  have hlow := And.intro (LawfulScalar.le_left hx) (LawfulScalar.le_left hy)
  have hhigh := And.intro (LawfulScalar.le_right hx) (LawfulScalar.le_right hy)
  simp only [corners, List.forall_mem_cons, hasPoint_iff]
  exact ⟨⟨hlow.1, hx, hlow.2, hy⟩, ⟨hx, hhigh.1, hlow.2, hy⟩, ⟨hx, hhigh.1, hy, hhigh.2⟩,
    ⟨hlow.1, hx, hy, hhigh.2⟩, fun _ hp => absurd hp List.not_mem_nil⟩

/-- **A box that holds its center has valid quarters.** -/
theorem isValid_quarter {b : Box α} (h : b.hasPoint b.center = true) (q : Quadrant) :
    (b.quarter q).isValid = true := by
  obtain ⟨h1, h2, h3, h4⟩ := hasPoint_iff.1 h
  rw [isValid_iff]
  cases q
  · exact ⟨h1, h4⟩
  · exact ⟨h2, h4⟩
  · exact ⟨h1, h3⟩
  · exact ⟨h2, h3⟩

/-- **A box that holds its center covers its quarters.** -/
theorem covers_quarter [LawfulScalar α] {b : Box α} (h : b.hasPoint b.center = true)
    (q : Quadrant) : b.covers (b.quarter q) = true := by
  obtain ⟨h1, h2, h3, h4⟩ := hasPoint_iff.1 h
  have hminX := LawfulScalar.le_left h1
  have hmaxX := LawfulScalar.le_right h2
  have hminY := LawfulScalar.le_left h3
  have hmaxY := LawfulScalar.le_right h4
  rw [covers_iff]
  cases q
  · exact ⟨hminX, h2, h3, hmaxY⟩
  · exact ⟨h1, hmaxX, h3, hmaxY⟩
  · exact ⟨hminX, h2, hminY, h4⟩
  · exact ⟨h1, hmaxX, hminY, h4⟩

end Box

end QuadIndex
