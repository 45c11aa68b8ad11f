import Mathlib.Analysis.SpecialFunctions.Log.Base
import Mathlib.Data.Prod.Lex
import QuadIndex.Proofs.Order

/-!
# Exact numbers

An exact number is a real number, one of two infinities, or the NaN. Arithmetic is that of IEEE 754
without rounding: an operation on real numbers has its real result, an infinity absorbs, and an
operation without a meaningful result, such as `∞ - ∞`, yields the NaN. There is one zero, which
is positive where it divides.

* `Exact.le_iff`: comparisons are those of the extended reals, where neither side is the NaN.
* `Exact.real_add_real` and its like: operations on real numbers.
-/

namespace QuadIndex

/-- A real number, an infinity, or the NaN. -/
inductive Exact where
  | nan
  | negInf
  | real (r : ℝ)
  | posInf

namespace Exact

noncomputable section

/-- The place of a value among all values, by kind and then by size. -/
def rank : Exact → ℕ ×ₗ ℝ
  | nan => toLex (0, 0)
  | negInf => toLex (1, 0)
  | real r => toLex (2, r)
  | posInf => toLex (3, 0)

def neg : Exact → Exact
  | nan => nan
  | negInf => posInf
  | real r => real (-r)
  | posInf => negInf

def add : Exact → Exact → Exact
  | real a, real b => real (a + b)
  | nan, _ | _, nan | negInf, posInf | posInf, negInf => nan
  | negInf, _ | _, negInf => negInf
  | posInf, _ | _, posInf => posInf

/-- A real number with the sign of a value. -/
def sign : Exact → ℝ
  | nan => 0
  | negInf => -1
  | real r => r
  | posInf => 1

/-- The infinity with a sign; without a sign, it is not known which. -/
def infinite (s : ℝ) : Exact := if 0 < s then posInf else if s < 0 then negInf else nan

def mul : Exact → Exact → Exact
  | real a, real b => real (a * b)
  | nan, _ | _, nan => nan
  | x, y => infinite (x.sign * y.sign)

def div : Exact → Exact → Exact
  | real a, real b => if b = 0 then infinite a else real (a / b)
  | nan, _ | _, nan | negInf, negInf | negInf, posInf | posInf, negInf | posInf, posInf => nan
  | real _, negInf | real _, posInf => real 0
  | x, real b => if b = 0 then x else infinite (x.sign * b)

def half : Exact → Exact
  | real r => real (r / 2)
  | x => x

def sqrt : Exact → Exact
  | real r => if r < 0 then nan else real (√r)
  | posInf => posInf
  | _ => nan

def log2 : Exact → Exact
  | real r => if r < 0 then nan else if r = 0 then negInf else real (Real.logb 2 r)
  | posInf => posInf
  | _ => nan

def wholePart (bound : Nat) : Exact → Nat
  | real r => min bound ⌊r⌋₊
  | posInf => bound
  | _ => 0

open Classical in
/-- Equality of numbers: the NaN equals nothing. -/
def equal (x y : Exact) : Bool := decide (x ≠ nan ∧ x = y)

instance : Scalar Exact where
  zero := real 0
  one := real 1
  neg := neg
  add := add
  sub x y := add x (neg y)
  mul := mul
  div := div
  lt x y := x ≠ nan ∧ y ≠ nan ∧ x.rank < y.rank
  le x y := x ≠ nan ∧ y ≠ nan ∧ x.rank ≤ y.rank
  beq := equal
  infinity := posInf
  half := half
  sqrt := sqrt
  log2 := log2
  wholePart := wholePart
  totalOrder x y := compare x.rank y.rank
  decidableLT _ _ := Classical.propDecidable _
  decidableLE _ _ := Classical.propDecidable _

end

/-! ## Comparisons -/

theorem rank_injective {x y : Exact} (h : x.rank = y.rank) : x = y := by
  cases x <;> cases y <;> simp_all [rank]

theorem le_iff {x y : Exact} : x ≤ y ↔ x ≠ nan ∧ y ≠ nan ∧ x.rank ≤ y.rank := Iff.rfl

theorem lt_iff {x y : Exact} : x < y ↔ x ≠ nan ∧ y ≠ nan ∧ x.rank < y.rank := Iff.rfl

theorem beq_iff {x y : Exact} : (x == y) = true ↔ x ≠ nan ∧ x = y := by
  change equal x y = true ↔ _
  simp only [equal, decide_eq_true_eq]

theorem totalOrder_isLE_iff {x y : Exact} :
    (Scalar.totalOrder x y).isLE = true ↔ x.rank ≤ y.rank := by
  change (compare x.rank y.rank).isLE = true ↔ _
  exact Ordering.isLE_iff_ne_gt.trans compare_le_iff_le

/-- **Exact numbers compare lawfully.** -/
instance : LawfulScalar Exact where
  le_trans hxy hyz := ⟨hxy.1, hyz.2.1, hxy.2.2.trans hyz.2.2⟩
  le_left h := ⟨h.1, h.1, le_rfl⟩
  le_right h := ⟨h.2.1, h.2.1, le_rfl⟩
  le_total {x y} hx hy := by
    rcases le_total x.rank y.rank with h | h
    · exact Or.inl ⟨hx.1, hy.1, h⟩
    · exact Or.inr ⟨hy.1, hx.1, h⟩
  lt_iff {x y} := by
    rw [lt_iff, le_iff, le_iff]
    constructor
    · rintro ⟨hx, hy, h⟩
      exact ⟨⟨hx, hy, h.le⟩, fun hn => hn.2.2.not_gt h⟩
    · rintro ⟨⟨hx, hy, -⟩, hn⟩
      exact ⟨hx, hy, not_le.1 fun h => hn ⟨hy, hx, h⟩⟩
  beq_iff {x y} := by
    rw [beq_iff]
    constructor
    · rintro ⟨hx, rfl⟩
      exact ⟨⟨hx, hx, le_rfl⟩, hx, hx, le_rfl⟩
    · rintro ⟨hxy, hyx⟩
      exact ⟨hxy.1, rank_injective (le_antisymm hxy.2.2 hyx.2.2)⟩
  neg_infinity_le {x} h := by
    refine ⟨Exact.noConfusion, h.1, ?_⟩
    cases x with
    | nan => exact absurd rfl h.1
    | _ => simp [Neg.neg, neg, Scalar.infinity, rank, Prod.Lex.toLex_le_toLex]
  le_infinity {x} h := by
    refine ⟨h.1, Exact.noConfusion, ?_⟩
    cases x with
    | nan => exact absurd rfl h.1
    | _ => simp [Scalar.infinity, rank, Prod.Lex.toLex_le_toLex]
  rank_trans hxy hyz := by
    rw [totalOrder_isLE_iff] at hxy hyz ⊢
    exact hxy.trans hyz
  rank_total x y := by
    rw [totalOrder_isLE_iff, totalOrder_isLE_iff]
    exact le_total _ _
  rank_antisymm hxy hyx := by
    rw [totalOrder_isLE_iff] at hxy hyx
    exact rank_injective (le_antisymm hxy hyx)
  le_of_rank hx hy h := by
    rw [totalOrder_isLE_iff] at h
    exact ⟨hx.1, hy.1, h⟩

variable {a b : ℝ} {x y : Exact}

@[simp] theorem real_le_real : real a ≤ real b ↔ a ≤ b := by
  simp [le_iff, rank, Prod.Lex.toLex_le_toLex]

@[simp] theorem real_lt_real : real a < real b ↔ a < b := by
  simp [lt_iff, rank, Prod.Lex.toLex_lt_toLex]

@[simp] theorem le_self : x ≤ x ↔ x ≠ nan := by simp [le_iff]

@[simp] theorem posInf_le : posInf ≤ x ↔ x = posInf := by
  cases x <;> simp [le_iff, rank, Prod.Lex.toLex_le_toLex]

@[simp] theorem le_posInf : x ≤ posInf ↔ x ≠ nan := by
  cases x <;> simp [le_iff, rank, Prod.Lex.toLex_le_toLex]

@[simp] theorem negInf_le : negInf ≤ x ↔ x ≠ nan := by
  cases x <;> simp [le_iff, rank, Prod.Lex.toLex_le_toLex]

@[simp] theorem le_negInf : x ≤ negInf ↔ x = negInf := by
  cases x <;> simp [le_iff, rank, Prod.Lex.toLex_le_toLex]

@[simp] theorem not_nan_le : ¬ nan ≤ x := fun h => h.1 rfl

@[simp] theorem not_le_nan : ¬ x ≤ nan := fun h => h.2.1 rfl

theorem isFinite_iff : Scalar.isFinite x = true ↔ ∃ r, x = real r := by
  simp only [Scalar.isFinite, Bool.and_eq_true, decide_eq_true_eq]
  change negInf < x ∧ x < posInf ↔ _
  cases x <;> simp [lt_iff, rank, Prod.Lex.toLex_lt_toLex]

theorem ne_nan_of_isFinite (h : Scalar.isFinite x = true) : x ≠ nan := by
  obtain ⟨r, rfl⟩ := isFinite_iff.1 h
  exact Exact.noConfusion

/-- A valid side that starts at a real number ends at one, or goes on forever. -/
theorem side_cases {low high : Exact} (hlow : Scalar.isFinite low = true) (h : low ≤ high) :
    ∃ l : ℝ, low = real l ∧ (high = posInf ∨ ∃ u : ℝ, high = real u ∧ l ≤ u) := by
  obtain ⟨l, rfl⟩ := isFinite_iff.1 hlow
  refine ⟨l, rfl, ?_⟩
  cases high with
  | nan => exact absurd h not_le_nan
  | negInf => simp at h
  | posInf => exact Or.inl rfl
  | real u => exact Or.inr ⟨u, rfl, real_le_real.1 h⟩

/-- What lies between two real numbers is one. -/
theorem isFinite_of_mem {low x high : Exact} (hlow : Scalar.isFinite low = true)
    (hhigh : Scalar.isFinite high = true) (h : low ≤ x) (h' : x ≤ high) :
    Scalar.isFinite x = true := by
  obtain ⟨u, rfl⟩ := isFinite_iff.1 hhigh
  obtain ⟨l, rfl, rfl | ⟨r, rfl, -⟩⟩ := side_cases hlow h
  · simp at h'
  · exact isFinite_iff.2 ⟨r, rfl⟩

/-! ## Operations -/

theorem zero_eq : (0 : Exact) = real 0 := rfl

theorem one_eq : (1 : Exact) = real 1 := rfl

@[simp] theorem neg_real : -real a = real (-a) := rfl

@[simp] theorem real_add_real : real a + real b = real (a + b) := rfl

@[simp] theorem real_add_posInf : real a + posInf = posInf := rfl

@[simp] theorem nan_add : nan + x = nan := by cases x <;> rfl

@[simp] theorem add_nan : x + nan = nan := by cases x <;> rfl

@[simp] theorem posInf_add_real : posInf + real a = posInf := rfl

@[simp] theorem posInf_add_posInf : posInf + posInf = posInf := rfl

@[simp] theorem negInf_add_posInf : negInf + posInf = nan := rfl

@[simp] theorem real_sub_real : real a - real b = real (a - b) := by
  rw [sub_eq_add_neg]
  rfl

@[simp] theorem posInf_sub_real : posInf - real a = posInf := rfl

@[simp] theorem real_sub_posInf : real a - posInf = negInf := rfl

@[simp] theorem real_sub_negInf : real a - negInf = posInf := rfl

@[simp] theorem posInf_sub_posInf : posInf - posInf = nan := rfl

@[simp] theorem posInf_sub_negInf : posInf - negInf = posInf := rfl

@[simp] theorem negInf_sub_posInf : negInf - posInf = negInf := rfl

@[simp] theorem negInf_sub_negInf : negInf - negInf = nan := rfl

@[simp] theorem negInf_sub_real : negInf - real a = negInf := rfl

@[simp] theorem nan_sub : nan - x = nan := by cases x <;> rfl

@[simp] theorem sub_nan : x - nan = nan := by cases x <;> rfl

@[simp] theorem real_mul_real : real a * real b = real (a * b) := rfl

theorem infinite_of_pos (h : 0 < a) : infinite a = posInf := if_pos h

theorem infinite_of_neg (h : a < 0) : infinite a = negInf := by
  rw [infinite, if_neg (not_lt.2 h.le), if_pos h]

theorem infinite_ne_nan (h : a ≠ 0) : infinite a ≠ nan := by
  rcases lt_or_gt_of_ne h with hneg | hpos
  · rw [infinite_of_neg hneg]
    exact Exact.noConfusion
  · rw [infinite_of_pos hpos]
    exact Exact.noConfusion

@[simp] theorem real_mul_nan : real a * nan = nan := rfl

theorem real_mul_posInf_of_pos (h : 0 < a) : real a * posInf = posInf :=
  infinite_of_pos (by simpa [sign] using h)

theorem real_mul_posInf_of_neg (h : a < 0) : real a * posInf = negInf :=
  infinite_of_neg (by simpa [sign] using h)

theorem real_mul_negInf_of_pos (h : 0 < a) : real a * negInf = negInf :=
  infinite_of_neg (by simpa [sign] using h)

theorem real_mul_negInf_of_neg (h : a < 0) : real a * negInf = posInf :=
  infinite_of_pos (by simpa [sign] using h)

theorem real_div_real (h : b ≠ 0) : real a / real b = real (a / b) := if_neg h

@[simp] theorem half_real : Scalar.half (real a) = real (a / 2) := rfl

@[simp] theorem half_posInf : Scalar.half posInf = posInf := rfl

@[simp] theorem half_nan : Scalar.half nan = nan := rfl

theorem posInf_div_real (h : b ≠ 0) : posInf / real b = infinite (1 * b) := if_neg h

theorem negInf_div_real (h : b ≠ 0) : negInf / real b = infinite (-1 * b) := if_neg h

@[simp] theorem nan_div : nan / x = nan := by cases x <;> rfl

@[simp] theorem div_nan : x / nan = nan := by cases x <;> rfl

@[simp] theorem real_div_posInf : real a / posInf = real 0 := rfl

/-- The square of an infinity is the positive one. -/
theorem posInf_mul_posInf : posInf * posInf = posInf :=
  infinite_of_pos (by simp [sign])

theorem negInf_mul_negInf : negInf * negInf = posInf :=
  infinite_of_pos (by simp [sign])

theorem nan_mul_nan : nan * nan = nan := rfl

theorem sqrt_real (h : 0 ≤ a) : Scalar.sqrt (real a) = real √a := if_neg (not_lt.2 h)

theorem sqrt_posInf : Scalar.sqrt posInf = posInf := rfl

theorem sqrt_nan : Scalar.sqrt nan = nan := rfl

@[simp] theorem isNaN_iff : Scalar.isNaN x = true ↔ x = nan := by
  rw [Scalar.isNaN, Bool.not_eq_true', ← Bool.not_eq_true, beq_iff]
  simp

end Exact
end QuadIndex
