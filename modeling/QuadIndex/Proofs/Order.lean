import Mathlib.Tactic.ByContra
import QuadIndex.Scalar

/-!
# Laws of comparison

A scalar type need not be ordered: a NaN compares with nothing. `LawfulScalar` says what the
comparisons keep of a linear order. A value is a number if it is at most itself; the numbers are
linearly ordered up to `==`, they lie between the infinities, and the total order refines their
order.

* `Scalar.lesser_le_left`, `Scalar.le_lesser` and their like: the lesser of two numbers is their
  greatest lower bound, and the greater one their least upper bound.
* `Scalar.sorted_pairwise`, `Scalar.sorted_eq_of_perm`: sorted numbers increase, and do not depend
  on the order in which they were given.
* `Scalar.countP_not_ge_le`, `Scalar.lt_countP_not_ge`: how many of sorted numbers are below one.
* `Scalar.KeepsOrder`: functions that keep all comparisons, and with them what is chosen or sorted
  by comparing.
-/

namespace QuadIndex

/-- **The laws of the comparisons** of a scalar type. Nothing is said of its arithmetic. -/
class LawfulScalar (α : Type) [Scalar α] : Prop where
  le_trans {x y z : α} : x ≤ y → y ≤ z → x ≤ z
  /-- The lower end of a comparison is a number. -/
  le_left {x y : α} : x ≤ y → x ≤ x
  /-- The upper end of a comparison is a number. -/
  le_right {x y : α} : x ≤ y → y ≤ y
  le_total {x y : α} : x ≤ x → y ≤ y → x ≤ y ∨ y ≤ x
  lt_iff {x y : α} : x < y ↔ x ≤ y ∧ ¬ y ≤ x
  beq_iff {x y : α} : (x == y) = true ↔ x ≤ y ∧ y ≤ x
  neg_infinity_le {x : α} : x ≤ x → -Scalar.infinity ≤ x
  le_infinity {x : α} : x ≤ x → x ≤ Scalar.infinity
  rank_trans {x y z : α} : (Scalar.totalOrder x y).isLE → (Scalar.totalOrder y z).isLE →
    (Scalar.totalOrder x z).isLE
  rank_total (x y : α) : (Scalar.totalOrder x y).isLE ∨ (Scalar.totalOrder y x).isLE
  rank_antisymm {x y : α} : (Scalar.totalOrder x y).isLE → (Scalar.totalOrder y x).isLE → x = y
  le_of_rank {x y : α} : x ≤ x → y ≤ y → (Scalar.totalOrder x y).isLE → x ≤ y

namespace Scalar

variable {α : Type} [Scalar α]

/-! ## What needs no law -/

theorem le_lesser {x y z : α} (hx : z ≤ x) (hy : z ≤ y) : z ≤ lesser x y := by
  unfold lesser
  split
  · exact hy
  · exact hx

theorem greater_le {x y z : α} (hx : x ≤ z) (hy : y ≤ z) : greater x y ≤ z := by
  unfold greater
  split
  · exact hy
  · exact hx

theorem lt_lesser {x y z : α} (hx : z < x) (hy : z < y) : z < lesser x y := by
  unfold lesser
  split
  · exact hy
  · exact hx

theorem greater_lt {x y z : α} (hx : x < z) (hy : y < z) : greater x y < z := by
  unfold greater
  split
  · exact hy
  · exact hx

theorem sorted_perm (xs : List α) : (sorted xs).Perm xs := List.mergeSort_perm _ _

/-- In sorted order, no more than `k` numbers fail to reach the one in place `k`. -/
theorem countP_not_ge_le {xs : List α} (hsorted : xs.Pairwise (· ≤ ·)) (hnum : ∀ x ∈ xs, x ≤ x)
    {k : Nat} (hk : k < xs.length) : xs.countP (fun x => !decide (xs[k] ≤ x)) ≤ k := by
  have hdrop : (xs.drop k).countP (fun x => !decide (xs[k] ≤ x)) = 0 := by
    rw [List.countP_eq_zero]
    intro x hx
    obtain ⟨i, hi, rfl⟩ := List.getElem_of_mem hx
    rw [List.length_drop] at hi
    have hlt : k + i < xs.length := by omega
    rw [List.getElem_drop]
    have hle : xs[k] ≤ xs[k + i] := by
      rcases Nat.eq_zero_or_pos i with rfl | hpos
      · exact hnum _ (List.getElem_mem _)
      · exact List.pairwise_iff_getElem.1 hsorted _ _ _ _ (by omega)
    simpa using hle
  have hsplit : xs.countP (fun x => !decide (xs[k] ≤ x)) =
      (xs.take k).countP (fun x => !decide (xs[k] ≤ x)) +
        (xs.drop k).countP (fun x => !decide (xs[k] ≤ x)) := by
    rw [← List.countP_append, List.take_append_drop]
  rw [hdrop] at hsplit
  have htake := List.countP_le_length (p := fun x => !decide (xs[k] ≤ x)) (l := xs.take k)
  rw [List.length_take] at htake
  omega

/-- **A function that keeps how values compare.** -/
structure KeepsOrder (f : α → α) : Prop where
  le_iff {x y : α} : f x ≤ f y ↔ x ≤ y
  lt_iff {x y : α} : f x < f y ↔ x < y
  beq_eq {x y : α} : (f x == f y) = (x == y)
  rank_eq {x y : α} : (totalOrder (f x) (f y)).isLE = (totalOrder x y).isLE

namespace KeepsOrder

variable {f : α → α} (h : KeepsOrder f)

include h

theorem map_lesser (x y : α) : f (lesser x y) = lesser (f x) (f y) := by
  simp only [lesser, isNaN, h.beq_eq, h.le_iff]
  exact apply_ite f _ _ _

theorem map_greater (x y : α) : f (greater x y) = greater (f x) (f y) := by
  simp only [greater, isNaN, h.beq_eq, h.le_iff]
  exact apply_ite f _ _ _

theorem sorted_map (xs : List α) : sorted (xs.map f) = (sorted xs).map f :=
  (List.map_mergeSort fun _ _ _ _ => h.rank_eq.symm).symm

end KeepsOrder

variable [LawfulScalar α]

open LawfulScalar

theorem isNaN_eq_false_iff {x : α} : isNaN x = false ↔ x ≤ x := by
  unfold isNaN
  rw [Bool.not_eq_false', beq_iff, and_self_iff]

theorem le_of_lt {x y : α} (h : x < y) : x ≤ y := (lt_iff.1 h).1

theorem lt_irrefl (x : α) : ¬ x < x := fun h => (lt_iff.1 h).2 (lt_iff.1 h).1

theorem lt_of_le_of_lt {x y z : α} (hxy : x ≤ y) (hyz : y < z) : x < z := by
  obtain ⟨h1, h2⟩ := lt_iff.1 hyz
  exact lt_iff.2 ⟨le_trans hxy h1, fun hzx => h2 (le_trans hzx hxy)⟩

theorem lt_of_lt_of_le {x y z : α} (hxy : x < y) (hyz : y ≤ z) : x < z := by
  obtain ⟨h1, h2⟩ := lt_iff.1 hxy
  exact lt_iff.2 ⟨le_trans h1 hyz, fun hzx => h2 (le_trans hyz hzx)⟩

/-- Of two numbers, one not at most the other is above it. -/
theorem lt_of_not_le {x y : α} (hx : x ≤ x) (hy : y ≤ y) (h : ¬ x ≤ y) : y < x :=
  lt_iff.2 ⟨(le_total hx hy).resolve_left h, h⟩

/-- Of two numbers, one not below the other is at least it. -/
theorem le_of_not_lt {x y : α} (hx : x ≤ x) (hy : y ≤ y) (h : ¬ x < y) : y ≤ x := by
  by_contra hn
  exact h (lt_of_not_le hy hx hn)

/-! ## The lesser and the greater of two numbers -/

theorem lesser_le_left {x y : α} (hx : x ≤ x) : lesser x y ≤ x := by
  unfold lesser
  split
  · rename_i h
    rw [isNaN_eq_false_iff.2 hx, Bool.false_or, decide_eq_true_eq] at h
    exact h
  · exact hx

theorem lesser_le_right {x y : α} (hx : x ≤ x) (hy : y ≤ y) : lesser x y ≤ y := by
  unfold lesser
  split
  · exact hy
  · rename_i h
    rw [isNaN_eq_false_iff.2 hx, Bool.false_or, decide_eq_true_eq] at h
    exact (le_total hx hy).resolve_right h

theorem le_greater_left {x y : α} (hx : x ≤ x) : x ≤ greater x y := by
  unfold greater
  split
  · rename_i h
    rw [isNaN_eq_false_iff.2 hx, Bool.false_or, decide_eq_true_eq] at h
    exact h
  · exact hx

theorem le_greater_right {x y : α} (hx : x ≤ x) (hy : y ≤ y) : y ≤ greater x y := by
  unfold greater
  split
  · exact hy
  · rename_i h
    rw [isNaN_eq_false_iff.2 hx, Bool.false_or, decide_eq_true_eq] at h
    exact (le_total hx hy).resolve_left h

theorem greater_le_iff {x y z : α} (hx : x ≤ x) (hy : y ≤ y) :
    greater x y ≤ z ↔ x ≤ z ∧ y ≤ z := by
  refine ⟨fun h => ⟨?_, ?_⟩, fun h => greater_le h.1 h.2⟩
  · exact le_trans (le_greater_left hx) h
  · exact le_trans (le_greater_right hx hy) h

theorem le_lesser_iff {x y z : α} (hx : x ≤ x) (hy : y ≤ y) :
    z ≤ lesser x y ↔ z ≤ x ∧ z ≤ y := by
  refine ⟨fun h => ⟨?_, ?_⟩, fun h => le_lesser h.1 h.2⟩
  · exact le_trans h (lesser_le_left hx)
  · exact le_trans h (lesser_le_right hx hy)

/-! ## Sorting -/

/-- Sorted values are in their total order. -/
theorem sorted_pairwise_rank (xs : List α) :
    (sorted xs).Pairwise fun x y => (totalOrder x y).isLE = true := by
  have htrans : ∀ x y z : α, (totalOrder x y).isLE = true → (totalOrder y z).isLE = true →
      (totalOrder x z).isLE = true := fun _ _ _ => rank_trans
  have htotal : ∀ x y : α, ((totalOrder x y).isLE || (totalOrder y x).isLE) = true := by
    intro x y
    rw [Bool.or_eq_true]
    exact rank_total x y
  exact List.pairwise_mergeSort htrans htotal xs

/-- **Sorted numbers increase.** -/
theorem sorted_pairwise {xs : List α} (h : ∀ x ∈ xs, x ≤ x) :
    (sorted xs).Pairwise (· ≤ ·) := by
  refine (sorted_pairwise_rank xs).imp_of_mem fun hx hy hxy => le_of_rank ?_ ?_ hxy
  · exact h _ ((sorted_perm xs).mem_iff.1 hx)
  · exact h _ ((sorted_perm xs).mem_iff.1 hy)

/-- In sorted order, `k + 1` numbers are at most the one in place `k`, so they fail to reach any
number above it. -/
theorem lt_countP_not_ge {xs : List α} (hsorted : xs.Pairwise (· ≤ ·)) {k : Nat}
    (hk : k < xs.length) {c : α} (hc : xs[k] < c) :
    k < xs.countP (fun x => !decide (c ≤ x)) := by
  have htake : (xs.take (k + 1)).countP (fun x => !decide (c ≤ x)) = k + 1 := by
    have hlen : (xs.take (k + 1)).length = k + 1 := by
      rw [List.length_take]
      omega
    refine (List.countP_eq_length.2 ?_).trans hlen
    intro x hx
    obtain ⟨i, hi, rfl⟩ := List.getElem_of_mem hx
    rw [hlen] at hi
    rw [List.getElem_take]
    have hlt : ¬ c ≤ xs[i] := by
      rcases Nat.lt_or_ge i k with h | h
      · have hle := List.pairwise_iff_getElem.1 hsorted i k (by omega) hk h
        exact (lt_iff.1 (lt_of_le_of_lt hle hc)).2
      · obtain rfl : i = k := by omega
        exact (lt_iff.1 hc).2
    simpa using hlt
  have hsub := (List.take_sublist (k + 1) xs).countP_le (p := fun x => !decide (c ≤ x))
  omega

/-- **Values in another order are sorted alike**, since the total order tells all values apart. -/
theorem sorted_eq_of_perm {xs ys : List α} (h : xs.Perm ys) : sorted xs = sorted ys := by
  have hperm : (sorted xs).Perm (sorted ys) :=
    ((sorted_perm xs).trans h).trans (sorted_perm ys).symm
  exact hperm.eq_of_pairwise (fun _ _ _ _ => rank_antisymm) (sorted_pairwise_rank xs)
    (sorted_pairwise_rank ys)

end Scalar
end QuadIndex
