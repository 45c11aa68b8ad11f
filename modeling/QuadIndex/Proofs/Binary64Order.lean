import Mathlib.Data.Nat.Bitwise
import Mathlib.Tactic.SplitIfs
import QuadIndex.Binary64.Basic
import QuadIndex.Proofs.Order

/-!
# The comparisons of binary64 numbers

`Binary64` compares patterns of bits by a few operations on words. Read as natural numbers, these
are plain arithmetic: the rank of a negative pattern is its distance from the last word, and that
of any other pattern is the pattern after all negative ones. The laws of comparison follow.
-/

namespace QuadIndex.Binary64

/-! ## Words as natural numbers -/

theorem magnitude_toNat (x : Binary64) : x.magnitude.toNat = x.bits.toNat % 2 ^ 63 := by
  have hmask : exponentMask ||| fractionMask = UInt64.ofNat (2 ^ 63 - 1) := by decide
  have hnat : (UInt64.ofNat (2 ^ 63 - 1)).toNat = 2 ^ 63 - 1 := by decide
  rw [magnitude, hmask, UInt64.toNat_and, hnat, Nat.and_two_pow_sub_one_eq_mod]

theorem isNegative_iff (x : Binary64) : x.isNegative = true ↔ 2 ^ 63 ≤ x.bits.toNat := by
  rw [isNegative, decide_eq_true_eq, UInt64.le_iff_toNat_le]
  rfl

theorem isNaN_eq_false_iff (x : Binary64) :
    x.isNaN = false ↔ x.bits.toNat % 2 ^ 63 ≤ 0x7ff0000000000000 := by
  rw [isNaN, decide_eq_false_iff_not, UInt64.not_lt, UInt64.le_iff_toNat_le, magnitude_toNat]
  rfl

theorem rank_toNat (x : Binary64) :
    x.rank.toNat = if 2 ^ 63 ≤ x.bits.toNat then 2 ^ 64 - 1 - x.bits.toNat
      else x.bits.toNat + 2 ^ 63 := by
  unfold rank
  by_cases h : 2 ^ 63 ≤ x.bits.toNat
  · rw [if_pos ((isNegative_iff x).2 h), if_pos h]
    exact UInt64.toNat_not x.bits
  · have hlt : x.bits.toNat < 2 ^ 63 := by omega
    have hmask : signMask.toNat = 2 ^ 63 := by decide
    rw [if_neg (fun hn => h ((isNegative_iff x).1 hn)), if_neg h, UInt64.toNat_or, hmask,
      Nat.or_comm, ← Nat.mul_one (2 ^ 63), ← Nat.two_pow_add_eq_or_of_lt hlt 1]
    omega

theorem value_toNat (x : Binary64) :
    x.value.toNat = if x.bits.toNat % 2 ^ 63 = 0 then 2 ^ 63 else x.rank.toNat := by
  have hzero : (x.magnitude == 0) = true ↔ x.bits.toNat % 2 ^ 63 = 0 := by
    rw [beq_iff_eq, ← UInt64.toNat_inj, magnitude_toNat]
    rfl
  unfold value
  by_cases h : x.bits.toNat % 2 ^ 63 = 0
  · rw [if_pos (hzero.2 h), if_pos h]
    rfl
  · rw [if_neg (fun hn => h (hzero.1 hn)), if_neg h]

theorem rank_injective {x y : Binary64} (h : x.rank = y.rank) : x = y := by
  have hr : x.rank.toNat = y.rank.toNat := congrArg UInt64.toNat h
  rw [rank_toNat, rank_toNat] at hr
  have hx := x.bits.toNat_lt
  have hy := y.bits.toNat_lt
  have hb : x.bits.toNat = y.bits.toNat := by
    split_ifs at hr <;> omega
  cases x
  cases y
  exact congrArg Binary64.mk (UInt64.toNat_inj.1 hb)

/-- A larger rank is no smaller number: only the zeros share a value. -/
theorem value_le_of_rank_le {x y : Binary64} (h : x.rank ≤ y.rank) : x.value ≤ y.value := by
  rw [UInt64.le_iff_toNat_le, value_toNat, value_toNat]
  rw [UInt64.le_iff_toNat_le, rank_toNat, rank_toNat] at h
  rw [rank_toNat, rank_toNat]
  have hx := x.bits.toNat_lt
  have hy := y.bits.toNat_lt
  split_ifs at h ⊢ <;> omega

/-! ## The laws -/

theorem le_iff {x y : Binary64} :
    x ≤ y ↔ x.isNaN = false ∧ y.isNaN = false ∧ x.value ≤ y.value := by
  change atMost x y = true ↔ _
  rw [atMost, Bool.and_eq_true, Bool.and_eq_true, Bool.not_eq_true', Bool.not_eq_true',
    decide_eq_true_eq, and_assoc]

theorem lt_iff {x y : Binary64} :
    x < y ↔ x.isNaN = false ∧ y.isNaN = false ∧ x.value < y.value := by
  change less x y = true ↔ _
  rw [less, Bool.and_eq_true, Bool.and_eq_true, Bool.not_eq_true', Bool.not_eq_true',
    decide_eq_true_eq, and_assoc]

theorem beq_iff {x y : Binary64} :
    (x == y) = true ↔ x.isNaN = false ∧ y.isNaN = false ∧ x.value = y.value := by
  change equal x y = true ↔ _
  rw [equal, Bool.and_eq_true, Bool.and_eq_true, Bool.not_eq_true', Bool.not_eq_true',
    beq_iff_eq, and_assoc]

theorem totalOrder_isLE_iff {x y : Binary64} :
    (Scalar.totalOrder x y).isLE = true ↔ x.rank ≤ y.rank := by
  change (compare x.rank y.rank).isLE = true ↔ _
  exact Std.isLE_compare

/-- A number has the value of a finite pattern or of an infinity. -/
theorem value_bounds {x : Binary64} (h : x.isNaN = false) :
    0x000fffffffffffff ≤ x.value.toNat ∧ x.value.toNat ≤ 0xfff0000000000000 := by
  rw [isNaN_eq_false_iff] at h
  rw [value_toNat, rank_toNat]
  have hx := x.bits.toNat_lt
  split_ifs <;> omega

/-- **Binary64 numbers compare lawfully.** -/
instance : LawfulScalar Binary64 where
  le_trans hxy hyz := by
    rw [le_iff] at hxy hyz ⊢
    exact ⟨hxy.1, hyz.2.1, UInt64.le_trans hxy.2.2 hyz.2.2⟩
  le_left h := by
    rw [le_iff] at h ⊢
    exact ⟨h.1, h.1, UInt64.le_refl _⟩
  le_right h := by
    rw [le_iff] at h ⊢
    exact ⟨h.2.1, h.2.1, UInt64.le_refl _⟩
  le_total {x y} hx hy := by
    rw [le_iff] at hx hy
    rw [le_iff, le_iff]
    rcases UInt64.le_total x.value y.value with h | h
    · exact Or.inl ⟨hx.1, hy.1, h⟩
    · exact Or.inr ⟨hy.1, hx.1, h⟩
  lt_iff {x y} := by
    rw [lt_iff, le_iff, le_iff]
    constructor
    · rintro ⟨hx, hy, h⟩
      exact ⟨⟨hx, hy, UInt64.le_of_lt h⟩, fun hn => UInt64.not_le.2 h hn.2.2⟩
    · rintro ⟨⟨hx, hy, -⟩, hn⟩
      exact ⟨hx, hy, UInt64.not_le.1 fun h => hn ⟨hy, hx, h⟩⟩
  beq_iff {x y} := by
    rw [beq_iff, le_iff, le_iff]
    constructor
    · rintro ⟨hx, hy, h⟩
      exact ⟨⟨hx, hy, h ▸ UInt64.le_refl _⟩, hy, hx, h ▸ UInt64.le_refl _⟩
    · rintro ⟨⟨hx, hy, h1⟩, -, -, h2⟩
      exact ⟨hx, hy, UInt64.le_antisymm h1 h2⟩
  neg_infinity_le {x} h := by
    rw [le_iff] at h ⊢
    refine ⟨by decide, h.1, ?_⟩
    have hlow : (-Scalar.infinity : Binary64).value.toNat = 0x000fffffffffffff := by decide
    rw [UInt64.le_iff_toNat_le, hlow]
    exact (value_bounds h.1).1
  le_infinity {x} h := by
    rw [le_iff] at h ⊢
    refine ⟨h.1, by decide, ?_⟩
    have hhigh : (Scalar.infinity : Binary64).value.toNat = 0xfff0000000000000 := by decide
    rw [UInt64.le_iff_toNat_le, hhigh]
    exact (value_bounds h.1).2
  rank_trans hxy hyz := by
    rw [totalOrder_isLE_iff] at hxy hyz ⊢
    exact UInt64.le_trans hxy hyz
  rank_total x y := by
    rw [totalOrder_isLE_iff, totalOrder_isLE_iff]
    exact UInt64.le_total _ _
  rank_antisymm hxy hyx := by
    rw [totalOrder_isLE_iff] at hxy hyx
    exact rank_injective (UInt64.le_antisymm hxy hyx)
  le_of_rank hx hy h := by
    rw [totalOrder_isLE_iff] at h
    rw [le_iff] at hx hy ⊢
    exact ⟨hx.1, hy.1, value_le_of_rank_le h⟩

end QuadIndex.Binary64
