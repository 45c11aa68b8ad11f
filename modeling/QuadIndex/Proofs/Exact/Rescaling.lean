import QuadIndex.Proofs.Exact.Basic
import QuadIndex.Proofs.Page.Coordinates

/-!
# Rescaled numbers

A rescaling multiplies every number by a positive factor and adds a shift. It keeps the infinities
and the NaN where they are, and how numbers compare. Differences of rescaled numbers are multiplied
by the factor alone, so that lengths, and sums and products of lengths, only change their scale.

* `Exact.onReal`: a function of the real numbers, on all exact numbers. It keeps all comparisons if
  it is strictly monotone.
* `Exact.real_mul_mul_real_mul`, `Exact.keepsCosts_mul`: products and costs under positive factors.
* `Rescaling.apply_sub_apply`, `Rescaling.middle`: lengths and middles of rescaled sides.
-/

namespace QuadIndex

namespace Exact

noncomputable section

/-- A function of the real numbers, with the other numbers left as they are. -/
def onReal (h : ℝ → ℝ) : Exact → Exact
  | nan => nan
  | negInf => negInf
  | real r => real (h r)
  | posInf => posInf

end

variable {h : ℝ → ℝ} {x y : Exact}

theorem onReal_eq_nan_iff : onReal h x = nan ↔ x = nan := by cases x <;> simp [onReal]

theorem rank_onReal_le_iff (hh : StrictMono h) :
    (onReal h x).rank ≤ (onReal h y).rank ↔ x.rank ≤ y.rank := by
  cases x <;> cases y <;> simp [onReal, rank, Prod.Lex.toLex_le_toLex, hh.le_iff_le]

/-- **A strictly monotone function keeps how numbers compare.** -/
theorem keepsOrder_onReal (hh : StrictMono h) : Scalar.KeepsOrder (onReal h) := by
  have hle : ∀ {x y}, onReal h x ≤ onReal h y ↔ x ≤ y := by
    intro x y
    rw [le_iff, le_iff, rank_onReal_le_iff hh, ne_eq, ne_eq, onReal_eq_nan_iff, onReal_eq_nan_iff]
  constructor
  case le_iff => exact hle
  case lt_iff =>
    intro x y
    rw [LawfulScalar.lt_iff, LawfulScalar.lt_iff, hle, hle]
  case beq_eq =>
    intro x y
    rw [Bool.eq_iff_iff, LawfulScalar.beq_iff, LawfulScalar.beq_iff, hle, hle]
  case rank_eq =>
    intro x y
    rw [Bool.eq_iff_iff, totalOrder_isLE_iff, totalOrder_isLE_iff, rank_onReal_le_iff hh]

/-! ## Arithmetic -/

variable {f g k : ℝ → ℝ}

theorem onReal_add_onReal (hfg : ∀ r s, f r + g s = k (r + s)) (x y : Exact) :
    onReal f x + onReal g y = onReal k (x + y) := by
  cases x with
  | real r =>
    cases y with
    | real s => exact congrArg real (hfg r s)
    | _ => rfl
  | _ => cases y <;> rfl

theorem onReal_sub_onReal (hfg : ∀ r s, f r - g s = k (r - s)) (x y : Exact) :
    onReal f x - onReal g y = onReal k (x - y) := by
  cases x with
  | real r =>
    cases y with
    | real s => rw [onReal, onReal, real_sub_real, real_sub_real, onReal, hfg]
    | _ => rfl
  | _ => cases y <;> rfl

theorem half_onReal (hf : ∀ r, f r / 2 = f (r / 2)) (x : Exact) :
    Scalar.half (onReal f x) = onReal f (Scalar.half x) := by
  cases x with
  | real r => exact congrArg real (hf r)
  | _ => rfl

theorem onReal_infinite (s : ℝ) : onReal f (infinite s) = infinite s := by
  rw [infinite]
  split
  · rfl
  · split <;> rfl

/-! ## Positive factors -/

variable {a b : ℝ}

theorem strictMono_mul (ha : 0 < a) : StrictMono fun r : ℝ => a * r :=
  fun _ _ hlt => mul_lt_mul_of_pos_left hlt ha

theorem infinite_mul (ha : 0 < a) (s : ℝ) : infinite (a * s) = infinite s := by
  simp only [infinite, mul_pos_iff_of_pos_left ha, mul_neg_iff, ha, ha.not_gt, true_and,
    false_and, or_false]

/-- A positive factor reaches the real numbers only. -/
theorem real_mul_eq (ha : 0 < a) (x : Exact) : real a * x = onReal (a * ·) x := by
  cases x with
  | nan => rfl
  | negInf => exact (infinite_mul ha _).trans (infinite_of_neg neg_one_lt_zero)
  | real r => rfl
  | posInf => exact (infinite_mul ha _).trans (infinite_of_pos one_pos)

/-- **The factors of a product** can be taken out of it. -/
theorem real_mul_mul_real_mul (ha : 0 < a) (hb : 0 < b) (x y : Exact) :
    real a * x * (real b * y) = real (a * b) * (x * y) := by
  rw [real_mul_eq ha, real_mul_eq hb, real_mul_eq (mul_pos ha hb)]
  -- an infinite product has the sign of its factors, and positive numbers do not change that
  cases x with
  | nan => cases y <;> rfl
  | real r =>
    cases y with
    | nan => rfl
    | real s => exact congrArg real (mul_mul_mul_comm a r b s)
    | _ =>
      change infinite (a * r * _) = onReal _ (infinite (r * _))
      rw [onReal_infinite, mul_assoc, infinite_mul ha]
      rfl
  | _ =>
    cases y with
    | nan => rfl
    | real s =>
      change infinite (_ * (b * s)) = onReal _ (infinite (_ * s))
      rw [onReal_infinite, mul_left_comm, infinite_mul hb]
      rfl
    | _ => exact (onReal_infinite _).symm

theorem real_mul_sub (ha : 0 < a) (x y : Exact) :
    real a * (x - y) = real a * x - real a * y := by
  simp only [real_mul_eq ha]
  exact (onReal_sub_onReal (fun r s => (mul_sub a r s).symm) x y).symm

/-- **A positive factor keeps how costs compare and add up.** -/
theorem keepsCosts_mul (ha : 0 < a) : KeepsCosts fun x : Exact => real a * x := by
  simp only [real_mul_eq ha]
  refine ⟨keepsOrder_onReal (strictMono_mul ha), ?_, rfl, ?_⟩
  · exact congrArg real (mul_zero a)
  · intro x y
    exact (onReal_add_onReal (fun r s => (mul_add a r s).symm) x y).symm

/-- Only a positive cost counts, in every scale. -/
theorem real_mul_greater_zero (ha : 0 < a) (x : Exact) :
    real a * Scalar.greater x 0 = Scalar.greater (real a * x) 0 := by
  rw [(keepsCosts_mul ha).map_greater, (keepsCosts_mul ha).map_zero]

end Exact

open Exact

/-- **A rescaling of the numbers**, by a positive factor and a shift. -/
structure Rescaling where
  factor : ℝ
  shift : ℝ
  pos : 0 < factor

namespace Rescaling

noncomputable section

/-- The number after the rescaling. -/
def apply (r : Rescaling) (x : Exact) : Exact := real r.factor * x + real r.shift

end

variable (r : Rescaling)

theorem apply_eq : r.apply = onReal fun x => r.factor * x + r.shift := by
  funext x
  rw [apply, real_mul_eq r.pos]
  cases x <;> rfl

/-- **A rescaling keeps how numbers compare.** -/
theorem keepsOrder : Scalar.KeepsOrder r.apply := by
  rw [apply_eq]
  exact keepsOrder_onReal fun _ _ hlt =>
    add_lt_add_left (mul_lt_mul_of_pos_left hlt r.pos) r.shift

theorem apply_sub_apply (x y : Exact) : r.apply x - r.apply y = real r.factor * (x - y) := by
  rw [real_mul_eq r.pos, apply_eq]
  exact onReal_sub_onReal (fun _ _ => by ring) x y

/-- A rescaled number and a length in the new scale. -/
theorem apply_add (x y : Exact) : r.apply x + real r.factor * y = r.apply (x + y) := by
  rw [real_mul_eq r.pos, apply_eq]
  exact onReal_add_onReal (fun _ _ => by ring) x y

theorem half_mul (x : Exact) :
    Scalar.half (real r.factor * x) = real r.factor * Scalar.half x := by
  rw [real_mul_eq r.pos, real_mul_eq r.pos]
  exact half_onReal (fun _ => mul_div_assoc _ _ _) x

/-- **The middle of a side** is rescaled with it. -/
theorem middle (low high : Exact) :
    r.apply low + Scalar.half (r.apply high - r.apply low) =
      r.apply (low + Scalar.half (high - low)) := by
  rw [apply_sub_apply, half_mul, apply_add]

end Rescaling
end QuadIndex
