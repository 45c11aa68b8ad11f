import QuadIndex.Proofs.Binary64Order
import QuadIndex.Proofs.Box

/-!
# When boxes are the same

A map or a set of boxes asks three things of two boxes: whether they are equal, which comes first,
and by which words they are hashed. Equality compares the sides as numbers. Order and hash look at
the bits, so they tell all boxes apart, and always agree. Equality takes the two zeros for one
number, and holds of no box with a NaN. So it agrees with the others as long as the first box has no
NaN, and the two do not differ in the signs of zeros alone.

* `Binary64.beq_iff_plusZero`: numbers are equal if they have the same bits once zeros are positive.
* `Box.compare_eq_iff`, `Box.hashWords_inj`: order and hash tell all boxes apart.
* `Box.coherent_iff`: when equality, order and hash agree on two boxes.
-/

namespace QuadIndex

/-! ## Numbers -/

namespace Binary64

variable {x y : Binary64}

/-- The number with a zero of either sign made positive. -/
def plusZero (x : Binary64) : Binary64 := if x.magnitude == 0 then zero else x

/-- Numbers are ranked by their bits once zeros are positive. -/
theorem value_eq_rank (x : Binary64) : x.value = x.plusZero.rank := by
  unfold value plusZero
  split
  · decide
  · rfl

theorem isNaN_plusZero (x : Binary64) : x.plusZero.isNaN = x.isNaN := by
  unfold plusZero
  split
  · rename_i hzero
    have hmagnitude : x.magnitude = 0 := eq_of_beq hzero
    have hnum : x.isNaN = false := by
      rw [isNaN, hmagnitude]
      decide
    rw [hnum]
    decide
  · rfl

/-- **Equal numbers** have the same bits once zeros are positive, and are not the NaN. -/
theorem beq_iff_plusZero : (x == y) = true ↔ x.isNaN = false ∧ x.plusZero = y.plusZero := by
  rw [beq_iff, value_eq_rank, value_eq_rank]
  constructor
  · rintro ⟨hx, -, hrank⟩
    exact ⟨hx, rank_injective hrank⟩
  · rintro ⟨hx, hsame⟩
    have hy : y.isNaN = false := by rw [← isNaN_plusZero, ← hsame, isNaN_plusZero, hx]
    exact ⟨hx, hy, congrArg rank hsame⟩

/-- The total order tells all values apart. -/
theorem totalOrder_eq_iff : Scalar.totalOrder x y = .eq ↔ x = y := by
  change compare x.rank y.rank = .eq ↔ _
  rw [Std.compare_eq_iff_eq]
  exact ⟨rank_injective, congrArg rank⟩

theorem bits_inj : x.bits = y.bits ↔ x = y := by
  cases x
  cases y
  rw [mk.injEq]

end Binary64

/-! ## Boxes -/

namespace Box

variable {a b : Box Binary64}

theorem ext_iff_sides : a = b ↔
    (a.minX = b.minX ∧ a.minY = b.minY) ∧ a.maxX = b.maxX ∧ a.maxY = b.maxY := by
  cases a
  cases b
  rw [mk.injEq, and_assoc]

/-- **The order of boxes tells all of them apart.** -/
theorem compare_eq_iff : a.compare b = .eq ↔ a = b := by
  simp only [compare, Ordering.then_eq_eq, Binary64.totalOrder_eq_iff, ext_iff_sides]

/-- **The words that are hashed tell all boxes apart.** -/
theorem hashWords_inj : a.hashWords = b.hashWords ↔ a = b := by
  simp only [hashWords, List.cons.injEq, Binary64.bits_inj, ext_iff_sides, and_assoc, and_true]

/-- The box with zeros of either sign made positive. -/
def plusZeros (b : Box Binary64) : Box Binary64 :=
  ⟨b.minX.plusZero, b.minY.plusZero, b.maxX.plusZero, b.maxY.plusZero⟩

/-- **Equal boxes** are the same once zeros are positive, and have no NaN. -/
theorem beq_iff_plusZeros : (a == b) = true ↔ a.isNumeric = true ∧ a.plusZeros = b.plusZeros := by
  have hside : ∀ x y : Binary64, (x == y) = true ↔ (x == x) = true ∧ x.plusZero = y.plusZero := by
    intro x y
    rw [Binary64.beq_iff_plusZero, Binary64.beq_iff_plusZero, and_iff_left rfl]
  rw [isNumeric_eq_beq_self, beq_iff_sides, beq_iff_sides, hside a.minX b.minX,
    hside a.minY b.minY, hside a.maxX b.maxX, hside a.maxY b.maxY, ext_iff_sides]
  constructor
  · rintro ⟨⟨h1, k1⟩, ⟨h2, k2⟩, ⟨h3, k3⟩, h4, k4⟩
    exact ⟨⟨h1, h2, h3, h4⟩, ⟨k1, k2⟩, k3, k4⟩
  · rintro ⟨⟨h1, h2, h3, h4⟩, ⟨k1, k2⟩, k3, k4⟩
    exact ⟨⟨h1, k1⟩, ⟨h2, k2⟩, ⟨h3, k3⟩, h4, k4⟩

/-- **What a map or a set of boxes relies on**: boxes are equal exactly if neither comes first, a box
is equal to itself, and equal boxes are hashed alike. -/
structure Coherent (a b : Box Binary64) : Prop where
  beq_iff : (a == b) = true ↔ a.compare b = .eq
  beq_self : (a == a) = true
  hash : (a == b) = true → a.hashWords = b.hashWords

/-- **When equality, order and hash agree.** Order and hash always do. Equality agrees with both on
two boxes exactly if the first has no NaN, and the two do not differ in the signs of zeros alone. -/
theorem coherent_iff (a b : Box Binary64) :
    (a.compare b = .eq ↔ a.hashWords = b.hashWords) ∧
      (a.Coherent b ↔ a.isNumeric = true ∧ (a.plusZeros = b.plusZeros → a = b)) := by
  refine ⟨compare_eq_iff.trans hashWords_inj.symm, ?_⟩
  constructor
  · rintro ⟨hbeq, hself, -⟩
    have hnum : a.isNumeric = true := by rw [isNumeric_eq_beq_self, hself]
    refine ⟨hnum, fun hzeros => ?_⟩
    have hequal : (a == b) = true := beq_iff_plusZeros.2 ⟨hnum, hzeros⟩
    exact compare_eq_iff.1 (hbeq.1 hequal)
  · rintro ⟨hnum, hzeros⟩
    have hsame : (a == b) = true → a = b := fun h => hzeros (beq_iff_plusZeros.1 h).2
    have hself : (a == a) = true := by rw [← isNumeric_eq_beq_self, hnum]
    constructor
    case beq_iff =>
      rw [compare_eq_iff]
      refine ⟨hsame, fun h => ?_⟩
      rw [← h]
      exact hself
    case beq_self => exact hself
    case hash => exact fun h => hashWords_inj.2 (hsame h)

/-- A box whose west side is a NaN. -/
def westless : Box Binary64 := ⟨⟨0x7ff8000000000000⟩, 0, 1, 1⟩

/-- **Equality does not always agree with order and hash.** A box with a NaN is not equal to itself,
though neither comes first. Two unit boxes that start at zeros of different sign are equal, but one
comes first, and they are hashed apart. -/
theorem not_coherent_westless : ¬ westless.Coherent westless ∧
    westless.compare westless = .eq ∧
    ((⟨0, 0, 1, 1⟩ : Box Binary64) == ⟨-0, 0, 1, 1⟩) = true ∧
    (⟨0, 0, 1, 1⟩ : Box Binary64).compare ⟨-0, 0, 1, 1⟩ = .gt ∧
    (⟨0, 0, 1, 1⟩ : Box Binary64).hashWords ≠ (⟨-0, 0, 1, 1⟩ : Box Binary64).hashWords := by
  have hself : (westless == westless) = false := by decide
  refine ⟨fun h => ?_, by decide, by decide, by decide, by decide⟩
  rw [h.beq_self] at hself
  cases hself

end Box

end QuadIndex
