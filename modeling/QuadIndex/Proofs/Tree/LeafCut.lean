import Mathlib.Data.List.FinRange
import QuadIndex.Proofs.Tree.Cells
import QuadIndex.Proofs.Tree.InPlace

/-!
# The cut of a leaf

A leaf is cut around the median square of its boxes, which is valid, and the positions of the boxes
are dealt to the quadrants. The medians only depend on which sides there are, so in another order
the boxes are cut around the same square: each goes to the quadrant it went to before, from its new
position.

* `medianSquare_eq_of_perm`: the square of boxes in another order.
* `LeafCut.IsCutOf`, `LeafCut.isCutOf_ofBoxes`: where each position is.
* `LeafCut.cutLeaf_isCutOf`: the cut of a leaf, and of the same leaf in another order.
-/

namespace QuadIndex

variable {α β : Type}

/-! ## Other orders -/

/-- The members of a list in another order: in place `i` stands the one from place `σ i`. -/
def reordered (xs : List β) (σ : Equiv.Perm (Fin xs.length)) : List β :=
  List.ofFn fun i => xs.get (σ i)

section

variable (xs : List β) (σ : Equiv.Perm (Fin xs.length))

theorem reordered_perm : (reordered xs σ).Perm xs := by
  have hperm := Equiv.Perm.ofFn_comp_perm σ xs.get
  rwa [List.ofFn_get] at hperm

theorem getElem?_reordered (i : Fin xs.length) : (reordered xs σ)[i.val]? = xs[(σ i).val]? := by
  rw [reordered, List.getElem?_ofFn, dif_pos i.isLt, List.getElem?_eq_getElem (σ i).isLt]
  rfl

end

variable [Scalar α]

section

variable [LawfulScalar α]

theorem median_eq_of_perm {xs ys : List α} (h : xs.Perm ys) : median xs = median ys := by
  rw [median, median, Scalar.sorted_eq_of_perm h, h.length_eq]

/-- **Boxes in another order have the same median square.** -/
theorem medianSquare_eq_of_perm {boxes boxes' : List (Box α)} (h : boxes.Perm boxes') :
    medianSquare boxes = medianSquare boxes' := by
  simp only [medianSquare, median_eq_of_perm (h.map _)]

end

/-! ## Cuts -/

namespace LeafCut

/-- **A cut of boxes around a valid square**: each position is in one group, that of the quadrant in
which the square has the box. -/
structure IsCutOf (cut : LeafCut α) (boxes : List (Box α)) : Prop where
  isValid : cut.square.isValid = true
  pairwise : ∀ q, (cut.groups.get q).Pairwise (· < ·)
  isPartition : cut.groups.IsPartition boxes.length
  mem_iff : ∀ q i, i ∈ cut.groups.get q ↔ ∃ b, boxes[i]? = some b ∧ cut.square.quadrantOf b = q

variable [LawfulScalar α]

theorem isCutOf_ofBoxes {boxes : List (Box α)} (hne : boxes ≠ [])
    (hvalid : ∀ b ∈ boxes, b.isValid = true) : (ofBoxes boxes).IsCutOf boxes where
  isValid := isValid_medianSquare hne hvalid
  pairwise q := Quadrants.positionsBy_pairwise _ boxes q
  isPartition := Quadrants.positionsBy_isPartition _ boxes
  mem_iff _ _ := Quadrants.mem_get_positionsBy

/-- A box goes to the same quadrant from its new position. -/
theorem mem_get_ofBoxes_reordered (boxes : List (Box α)) (σ : Equiv.Perm (Fin boxes.length))
    (q : Quadrant) (i : Fin boxes.length) :
    i.val ∈ (ofBoxes (reordered boxes σ)).groups.get q ↔
      (σ i).val ∈ (ofBoxes boxes).groups.get q := by
  simp only [ofBoxes, medianSquare_eq_of_perm (reordered_perm boxes σ),
    Quadrants.mem_get_positionsBy, getElem?_reordered]

/-- The groups of boxes in another order have the same lengths. -/
theorem length_get_ofBoxes_of_perm {boxes boxes' : List (Box α)} (h : boxes.Perm boxes')
    (q : Quadrant) :
    ((ofBoxes boxes).groups.get q).length = ((ofBoxes boxes').groups.get q).length := by
  simp only [ofBoxes, Quadrants.length_positionsBy, Quadrants.get_groupBy,
    medianSquare_eq_of_perm h]
  exact (h.filter _).length_eq

/-- **The cut of a leaf.** Valid boxes, if there are any, are cut around a valid square. In another
order they are cut around the same square, with their positions moved along, so that the sizes of
the groups, and whether the leaf is lumped, do not depend on the order. -/
theorem cutLeaf_isCutOf {boxes : List (Box α)} (hne : boxes ≠ [])
    (hvalid : ∀ b ∈ boxes, b.isValid = true) :
    ∃ cut, (cutLeaf boxes).value = .ok cut ∧ cut.IsCutOf boxes ∧
      ∀ σ : Equiv.Perm (Fin boxes.length), ∃ cut',
        (cutLeaf (reordered boxes σ)).value = .ok cut' ∧ cut'.square = cut.square ∧
        (∀ (q : Quadrant) (i : Fin boxes.length),
          i.val ∈ cut'.groups.get q ↔ (σ i).val ∈ cut.groups.get q) ∧
        cut'.sizes = cut.sizes ∧ cut'.isLumped = cut.isLumped := by
  refine ⟨_, cutLeaf_of_isValid hne hvalid, isCutOf_ofBoxes hne hvalid, fun σ => ?_⟩
  have hperm := reordered_perm boxes σ
  have hlength := length_get_ofBoxes_of_perm hperm
  refine ⟨_, cutLeaf_of_isValid ?_ fun b hb => hvalid b (hperm.mem_iff.1 hb),
    medianSquare_eq_of_perm hperm, mem_get_ofBoxes_reordered boxes σ, ?_,
    Quadrants.isConcentrated_congr hlength⟩
  · intro hnil
    rw [hnil] at hperm
    exact hne hperm.nil_eq.symm
  · refine Quadrants.ext_get fun q => ?_
    rw [sizes, sizes, Quadrants.sizes, Quadrants.sizes, Quadrants.get_map, Quadrants.get_map,
      hlength q]

theorem cutLeaf_isCutOf_oppositeBoxes :
    (∀ b ∈ [oppositeBox, unitBox], b.isValid = true) ∧
      ∃ cut cut', (cutLeaf [oppositeBox, unitBox]).value = .ok cut ∧
        (cutLeaf [unitBox, oppositeBox]).value = .ok cut' ∧
        cut.IsCutOf [oppositeBox, unitBox] ∧ cut'.square = cut.square ∧ cut'.sizes = cut.sizes := by
  have hvalid : ∀ b ∈ [oppositeBox, unitBox], b.isValid = true := by decide
  obtain ⟨cut, hcut, hright, hmoved⟩ := cutLeaf_isCutOf (List.cons_ne_nil _ _) hvalid
  obtain ⟨cut', hcut', hsquare, -, hsizes, -⟩ := hmoved (Equiv.swap ⟨0, by decide⟩ ⟨1, by decide⟩)
  exact ⟨hvalid, cut, cut', hcut, hcut', hright, hsquare, hsizes⟩

end LeafCut
end QuadIndex
