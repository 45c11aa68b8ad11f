import Mathlib.Data.List.Infix
import QuadIndex.Proofs.Tree.Insertion

/-!
# The way of an object down

The steps down from a cell are the same however many of them are taken, and those below one of its
cells are the steps down from that cell. So a way that is planned again from one of its cells goes
on as before, as far as both ways go.

* `Descent.ofLevels`, `planDescent_eq`: the descent of an object, by its number of levels.
* `stepsDown_prefix_of_le`, `drop_stepsDown`: longer ways, and ways that start further down.
* `planDescent_restart`: a way that is planned again.
-/

namespace QuadIndex

variable {α : Type} [Scalar α]

/-! ## Steps -/

theorem length_stepsDown (object : Box α) (levels : Nat) (cell : Box α) :
    (stepsDown object levels cell).length = levels + 1 := by
  induction levels generalizing cell with
  | zero => rfl
  | succ levels ih => rw [stepsDown, List.length_cons, ih]

/-- A longer way starts with the steps of a shorter one. -/
theorem stepsDown_prefix_of_le {m n : Nat} (h : m ≤ n) (object cell : Box α) :
    stepsDown object m cell <+: stepsDown object n cell := by
  induction m generalizing n cell with
  | zero =>
    cases n with
    | zero => exact List.prefix_rfl
    | succ n => exact List.cons_prefix_cons.2 ⟨rfl, List.nil_prefix⟩
  | succ m ih =>
    obtain ⟨n, rfl⟩ : ∃ k, n = k + 1 := ⟨n - 1, by omega⟩
    exact List.cons_prefix_cons.2 ⟨rfl, ih (by omega) _⟩

/-- **The steps from a cell of the way on** are the steps down from that cell. -/
theorem drop_stepsDown {object cell c : Box α} {q : Quadrant} {levels i : Nat}
    (h : (stepsDown object levels cell)[i]? = some (c, q)) :
    (stepsDown object levels cell).drop i = stepsDown object (levels - i) c := by
  induction i generalizing levels cell with
  | zero =>
    have hhead : (stepsDown object levels cell)[0]? = some (cell, cell.quadrantOf object) := by
      cases levels <;> rfl
    rw [hhead, Option.some.injEq, Prod.mk.injEq] at h
    rw [h.1, List.drop_zero, Nat.sub_zero]
  | succ i ih =>
    cases levels with
    | zero => cases h
    | succ levels =>
      rw [stepsDown, List.getElem?_cons_succ] at h
      rw [stepsDown, List.drop_succ_cons, ih h, Nat.add_sub_add_right]

/-! ## Descents -/

namespace Descent

/-- The descent of an object that adds a number of levels below a cell. -/
def ofLevels (object : Box α) (levels : Nat) (cell : Box α) : Descent α :=
  ⟨levels, (stepsDown object levels cell).map (·.2),
    ((stepsDown object levels cell).map (·.1)).drop 1⟩

/-- What is left of a descent below one of its new cells. -/
def below (d : Descent α) (i : Nat) : Descent α :=
  ⟨d.levels - (i + 1), d.path.drop (i + 1), d.cells.drop (i + 1)⟩

/-- One descent is the start of another. -/
def IsStartOf (d e : Descent α) : Prop := d.path <+: e.path ∧ d.cells <+: e.cells

theorem length_path_ofLevels (object : Box α) (levels : Nat) (cell : Box α) :
    (ofLevels object levels cell).path.length = levels + 1 := by
  rw [ofLevels, List.length_map, length_stepsDown]

theorem length_cells_ofLevels (object : Box α) (levels : Nat) (cell : Box α) :
    (ofLevels object levels cell).cells.length = levels := by
  rw [ofLevels, List.length_drop, List.length_map, length_stepsDown, Nat.add_sub_cancel]

/-- The first new cell is the quarter that the object takes, and the others are below it. -/
theorem cells_ofLevels_succ (object : Box α) (levels : Nat) (cell : Box α) :
    (ofLevels object (levels + 1) cell).cells = cell.quarter (cell.quadrantOf object) ::
      (ofLevels object levels (cell.quarter (cell.quadrantOf object))).cells := by
  cases levels <;> rfl

theorem ofLevels_isStartOf {m n : Nat} (h : m ≤ n) (object cell : Box α) :
    (ofLevels object m cell).IsStartOf (ofLevels object n cell) := by
  have hsteps := stepsDown_prefix_of_le h object cell
  exact ⟨hsteps.map _, (hsteps.map _).drop 1⟩

/-- **What is left of a descent** is the descent from the cell that was reached. -/
theorem below_ofLevels {object cell c : Box α} {levels i : Nat}
    (h : (ofLevels object levels cell).cells[i]? = some c) :
    (ofLevels object levels cell).below i = ofLevels object (levels - (i + 1)) c := by
  rw [ofLevels, List.getElem?_drop, Nat.add_comm, List.getElem?_map, Option.map_eq_some_iff] at h
  obtain ⟨⟨c', q⟩, hstep, hc⟩ := h
  obtain rfl : c' = c := hc
  have hdrop := drop_stepsDown hstep
  simp only [below, ofLevels, ← hdrop, List.map_drop, List.drop_drop, Nat.add_comm 1]

end Descent

/-- **The descent of an object** below a cell, for valid boxes. -/
theorem planDescent_eq (rules : TreeRules) {cell object : Box α} (level : Nat)
    (hcell : cell.isValid = true) (hobject : object.isValid = true) :
    (planDescent rules cell level object).value = .ok (Descent.ofLevels object
      (min (naturalLevel cell object - level) rules.maxInsertLevels) cell) := by
  rw [planDescent, Box.check_eq_ok_iff.2 hcell, Box.check_eq_ok_iff.2 hobject]
  rfl

/-- **A descent that is planned again** from one of its cells, on whatever level, goes on as
before, as far as both go. -/
theorem planDescent_restart {object cell c : Box α} {levels i : Nat}
    (h : (Descent.ofLevels object levels cell).cells[i]? = some c) (rules : TreeRules) (level : Nat)
    (hc : c.isValid = true) (hobject : object.isValid = true) :
    ∃ rest, (planDescent rules c level object).value = .ok rest ∧
      (rest.IsStartOf ((Descent.ofLevels object levels cell).below i) ∨
        ((Descent.ofLevels object levels cell).below i).IsStartOf rest) := by
  refine ⟨_, planDescent_eq rules level hc hobject, ?_⟩
  rw [Descent.below_ofLevels h]
  rcases Nat.le_total (min (naturalLevel c object - level) rules.maxInsertLevels)
    (levels - (i + 1)) with hle | hle
  · exact Or.inl (Descent.ofLevels_isStartOf hle object c)
  · exact Or.inr (Descent.ofLevels_isStartOf hle object c)

end QuadIndex
