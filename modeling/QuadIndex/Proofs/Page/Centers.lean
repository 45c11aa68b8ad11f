import QuadIndex.Page.BoxKeys
import QuadIndex.Proofs.Binary64Order
import QuadIndex.Proofs.Box
import QuadIndex.Proofs.Page.Summaries

/-!
# Boxes around the median center

Boxes are split by the quadrants of a center that has the median of the centers of all boxes on
either axis. A box goes to the west or to the south only if its center is below the median, and in
sorted order no more than half of the numbers come before the median. The boxes that are at the
median on an axis, however many they are, go to the other half.

* `Quadrants.length_add_positionsBy`: how many positions two groups hold together.
* `countP_below_median_le`: how many members of a list are below the median.
* `boxKeys_cutsAtMedian`: the suggested groups.
-/

namespace QuadIndex

/-! ## Two groups -/

/-- Two groups together hold the positions of the members that go to either. -/
theorem Quadrants.length_add_positionsBy {β : Type} (f : β → Quadrant) (xs : List β)
    {p q : Quadrant} (hpq : p ≠ q) :
    ((positionsBy f xs).get p).length + ((positionsBy f xs).get q).length =
      xs.countP fun x => f x = p ∨ f x = q := by
  simp only [length_positionsBy, get_groupBy, ← List.countP_eq_length_filter]
  induction xs with
  | nil => rfl
  | cons x xs ih =>
    simp only [List.countP_cons, decide_eq_true_eq]
    rw [← ih]
    by_cases hp : f x = p
    · have hq : f x ≠ q := fun hq => hpq (hp.symm.trans hq)
      rw [if_pos hp, if_neg hq, if_pos (Or.inl hp)]
      omega
    · rw [if_neg hp]
      by_cases hq : f x = q
      · rw [if_pos hq, if_pos (Or.inr hq)]
        omega
      · rw [if_neg hq, if_neg (not_or.2 ⟨hp, hq⟩)]
        omega

theorem Quadrant.isEast_eq_false_iff {q : Quadrant} :
    q.isEast = false ↔ q = northWest ∨ q = southWest := by cases q <;> decide

theorem Quadrant.isSouth_iff {q : Quadrant} :
    q.isSouth = true ↔ q = southWest ∨ q = southEast := by cases q <;> decide

variable {α : Type} [Scalar α]

/-! ## The median -/

/-- **At most half of the members of a list are below the median** of their numbers. -/
theorem countP_below_median_le [LawfulScalar α] {β : Type} {key : β → α} {xs : List β} {m : α}
    (hnum : ∀ x ∈ xs, key x ≤ key x)
    (hm : (Scalar.sorted (xs.map key))[xs.length / 2]? = some m) :
    xs.countP (fun x => !decide (m ≤ key x)) ≤ xs.length / 2 := by
  obtain ⟨hk, rfl⟩ := List.getElem?_eq_some_iff.1 hm
  have hnum' : ∀ k ∈ xs.map key, k ≤ k := by
    intro k hk
    obtain ⟨x, hx, rfl⟩ := List.mem_map.1 hk
    exact hnum x hx
  have hbelow := Scalar.countP_not_ge_le (Scalar.sorted_pairwise hnum')
    (fun k hk => hnum' k ((Scalar.sorted_perm _).mem_iff.1 hk)) hk
  rw [(Scalar.sorted_perm _).countP_eq, List.countP_map] at hbelow
  exact hbelow

/-! ## The groups -/

/-- Some boxes are split by their quadrants around a center, by the medians of both axes. -/
theorem exists_boxGroups_eq {boxes : List (Box α)} (hne : boxes ≠ []) : ∃ center : Point α,
    (Scalar.sorted (boxes.map (·.center.x)))[boxes.length / 2]? = some center.x ∧
    (Scalar.sorted (boxes.map (·.center.y)))[boxes.length / 2]? = some center.y ∧
    boxGroups boxes = (Quadrants.positionsBy (fun b => Quadrant.around center b.center) boxes).map
      fun g => g.map (· + 1) := by
  have hpos : 0 < boxes.length := List.length_pos_iff.2 hne
  have hmedian : ∀ key : Box α → α,
      ∃ m, (Scalar.sorted (boxes.map key))[boxes.length / 2]? = some m := by
    intro key
    have hlen : (Scalar.sorted (boxes.map key)).length = boxes.length := by
      rw [(Scalar.sorted_perm _).length_eq, List.length_map]
    exact ⟨_, List.getElem?_eq_getElem (by omega)⟩
  obtain ⟨x, hx⟩ := hmedian (·.center.x)
  obtain ⟨y, hy⟩ := hmedian (·.center.y)
  refine ⟨⟨x, y⟩, hx, hy, ?_⟩
  simp only [boxGroups, hx, hy]

/-- **The groups are those of boxes around the median of their centers.** -/
structure CutsAtMedian (boxes : List (Box α)) (groups : Quadrants (List Nat)) : Prop where
  ascending : ∀ q, (groups.get q).Pairwise (· < ·)
  partition : groups.members.Perm (List.range' 1 boxes.length)
  /-- The centers in a west group are to the west of those in an east group. -/
  west_lt_east : ∀ p q, p.isEast = false → q.isEast = true →
    ∀ b ∈ keysAt boxes (groups.get p), ∀ c ∈ keysAt boxes (groups.get q), b.center.x < c.center.x
  /-- The centers in a south group are to the south of those in a north group. -/
  south_lt_north : ∀ p q, p.isSouth = true → q.isSouth = false →
    ∀ b ∈ keysAt boxes (groups.get p), ∀ c ∈ keysAt boxes (groups.get q), b.center.y < c.center.y
  west_le : (groups.get .northWest).length + (groups.get .southWest).length ≤ boxes.length / 2
  south_le : (groups.get .southWest).length + (groups.get .southEast).length ≤ boxes.length / 2

/-- **Boxes are split at the median of their centers** on either axis, unless a center is not a
number: the groups hold each number once, those to the west and those to the east are parted by
their centers, as are those to the south and to the north, and the west and the south get half of
the boxes at most. -/
theorem boxKeys_cutsAtMedian [LawfulScalar α] (columns asked column : Nat) (boxes : List (Box α))
    (prior : Quadrants (Option (Box α))) (hne : boxes ≠ [])
    (hnum : ∀ b ∈ boxes, Scalar.isNaN b.center.x = false ∧ Scalar.isNaN b.center.y = false) :
    CutsAtMedian boxes ((boxKeys columns).propose asked column boxes prior).groups := by
  change CutsAtMedian boxes (boxGroups boxes)
  obtain ⟨center, hx, hy, hgroups⟩ := exists_boxGroups_eq hne
  have hnumX : ∀ b ∈ boxes, b.center.x ≤ b.center.x :=
    fun b hb => Scalar.isNaN_eq_false_iff.1 (hnum b hb).1
  have hnumY : ∀ b ∈ boxes, b.center.y ≤ b.center.y :=
    fun b hb => Scalar.isNaN_eq_false_iff.1 (hnum b hb).2
  have hmem : ∀ {q b}, b ∈ keysAt boxes ((boxGroups boxes).get q) →
      b ∈ boxes ∧ Quadrant.around center b.center = q := by
    intro q b hb
    obtain ⟨i, hi, hget⟩ := exists_number_of_mem_keysAt hb
    rw [hgroups, Quadrants.get_map, List.mem_map] at hi
    obtain ⟨j, hj, hij⟩ := hi
    obtain rfl : j = i := Nat.succ.inj hij
    obtain ⟨c, hc, hq⟩ := Quadrants.mem_get_positionsBy.1 hj
    obtain rfl : c = b := Option.some.inj (hc.symm.trans hget)
    exact ⟨List.mem_of_getElem? hget, hq⟩
  have hlength : ∀ {p q : Quadrant}, p ≠ q →
      ((boxGroups boxes).get p).length + ((boxGroups boxes).get q).length = boxes.countP
        fun b => Quadrant.around center b.center = p ∨ Quadrant.around center b.center = q := by
    intro p q hpq
    rw [hgroups, Quadrants.get_map, Quadrants.get_map, List.length_map, List.length_map]
    exact Quadrants.length_add_positionsBy _ boxes hpq
  constructor
  case ascending =>
    intro q
    rw [hgroups, Quadrants.get_map, List.pairwise_map]
    exact (Quadrants.positionsBy_pairwise _ _ q).imp fun hij => Nat.succ_lt_succ hij
  case partition =>
    rw [hgroups]
    exact (Quadrants.positionsBy_isPartition _ _).numbers
  case west_lt_east =>
    intro p q hp hq b hb c hc
    obtain ⟨hbmem, rfl⟩ := hmem hb
    obtain ⟨-, rfl⟩ := hmem hc
    rw [Quadrant.isEast_around, decide_eq_false_iff_not] at hp
    rw [Quadrant.isEast_around, decide_eq_true_eq] at hq
    have hwest : b.center.x < center.x :=
      Scalar.lt_of_not_le (LawfulScalar.le_left hq) (hnumX b hbmem) hp
    exact Scalar.lt_of_lt_of_le hwest hq
  case south_lt_north =>
    intro p q hp hq b hb c hc
    obtain ⟨-, rfl⟩ := hmem hb
    obtain ⟨hcmem, rfl⟩ := hmem hc
    rw [Quadrant.isSouth_around, decide_eq_true_eq] at hp
    rw [Quadrant.isSouth_around, decide_eq_false_iff_not] at hq
    have hnorth : center.y ≤ c.center.y := Scalar.le_of_not_lt (hnumY c hcmem)
      (LawfulScalar.le_right (Scalar.le_of_lt hp)) hq
    exact Scalar.lt_of_lt_of_le hp hnorth
  case west_le =>
    rw [hlength Quadrant.noConfusion]
    refine Nat.le_trans (List.countP_mono_left fun b _ hwest => ?_)
      (countP_below_median_le hnumX hx)
    rw [decide_eq_true_eq, ← Quadrant.isEast_eq_false_iff, Quadrant.isEast_around] at hwest
    rw [hwest, Bool.not_false]
  case south_le =>
    rw [hlength Quadrant.noConfusion]
    refine Nat.le_trans (List.countP_mono_left fun b _ hsouth => ?_)
      (countP_below_median_le hnumY hy)
    rw [decide_eq_true_eq, ← Quadrant.isSouth_iff, Quadrant.isSouth_around,
      decide_eq_true_eq] at hsouth
    rw [Bool.not_eq_true', decide_eq_false_iff_not]
    exact (LawfulScalar.lt_iff.1 hsouth).2

/-- Boxes of which two are at the median from west to east. -/
def threeBoxes : List (Box Binary64) := [⟨0, 0, 1, 1⟩, ⟨1, 1, 1, 1⟩, ⟨1, 0, 1, 1⟩]

theorem boxKeys_cutsAtMedian_threeBoxes :
    threeBoxes ≠ [] ∧
    (∀ b ∈ threeBoxes,
      Scalar.isNaN b.center.x = false ∧ Scalar.isNaN b.center.y = false) ∧
    CutsAtMedian threeBoxes ((boxKeys 1).propose 0 0 threeBoxes noPrior).groups := by
  have hne : threeBoxes ≠ [] := List.cons_ne_nil _ _
  have hnum : ∀ b ∈ threeBoxes,
      Scalar.isNaN b.center.x = false ∧ Scalar.isNaN b.center.y = false := by decide +kernel
  exact ⟨hne, hnum, boxKeys_cutsAtMedian 1 0 0 threeBoxes noPrior hne hnum⟩

end QuadIndex
