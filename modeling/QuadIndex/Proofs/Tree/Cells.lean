import QuadIndex.Proofs.Box
import QuadIndex.Proofs.Tree.History

/-!
# The cells of a tree

A cell is the median square of some valid boxes, or a quarter of the cell above it. The first is
always valid, and the second if the cell above holds its center. That is the one fact on arithmetic
which the tree relies on, so it is asked for where it is used, of the cells that the tree has.

* `median_le_median`, `isValid_medianSquare`: medians of sides keep the order of the sides.
* `Inserted.cellsFrom`: an insertion keeps the cells in order.
* `History.cells_isValid`: the cells of a tree are valid if they hold their centers.
-/

namespace QuadIndex

variable {α ν β : Type} [Scalar α]

/-! ## Medians -/

open Scalar in
theorem median_eq_getElem {xs : List α} (h : xs.length / 2 < (sorted xs).length) :
    median xs = (sorted xs)[xs.length / 2] := by
  rw [median, List.getD_eq_getElem?_getD, List.getElem?_eq_getElem h, Option.getD_some]

/-- The median of two values is the upper one. -/
theorem median_pair {x y : α} (h : (Scalar.totalOrder x y).isLE = true) : median [x, y] = y := by
  rw [median, Scalar.sorted, List.mergeSort_of_pairwise (by simpa using h)]
  simp

section

variable [LawfulScalar α]

open LawfulScalar Scalar

/-- **The median is monotone.** -/
theorem median_le_median {f g : β → α} {bs : List β} (hne : bs ≠ []) (h : ∀ b ∈ bs, f b ≤ g b) :
    median (bs.map f) ≤ median (bs.map g) := by
  have hpos : 0 < bs.length := List.length_pos_iff.2 hne
  have hfnum : ∀ x ∈ bs.map f, x ≤ x := by
    intro x hx
    obtain ⟨b, hb, rfl⟩ := List.mem_map.1 hx
    exact le_left (h b hb)
  have hgnum : ∀ x ∈ bs.map g, x ≤ x := by
    intro x hx
    obtain ⟨b, hb, rfl⟩ := List.mem_map.1 hx
    exact le_right (h b hb)
  have hflen : (sorted (bs.map f)).length = bs.length := by
    rw [(sorted_perm _).length_eq, List.length_map]
  have hglen : (sorted (bs.map g)).length = bs.length := by
    rw [(sorted_perm _).length_eq, List.length_map]
  have hkf : bs.length / 2 < (sorted (bs.map f)).length := by omega
  have hkg : bs.length / 2 < (sorted (bs.map g)).length := by omega
  rw [median_eq_getElem (by simpa using hkf), median_eq_getElem (by simpa using hkg)]
  simp only [List.length_map]
  by_contra hnot
  have hfnum' : ∀ x ∈ sorted (bs.map f), x ≤ x :=
    fun x hx => hfnum x ((sorted_perm _).mem_iff.1 hx)
  have hgnum' : ∀ x ∈ sorted (bs.map g), x ≤ x :=
    fun x hx => hgnum x ((sorted_perm _).mem_iff.1 hx)
  have hlt := lt_of_not_le (hfnum' _ (List.getElem_mem hkf)) (hgnum' _ (List.getElem_mem hkg)) hnot
  -- as many values of `f` fail to reach the median as values of `g` do, which are too many
  have hupper := countP_not_ge_le (sorted_pairwise hfnum) hfnum' hkf
  have hlower := lt_countP_not_ge (sorted_pairwise hgnum) hkg hlt
  generalize (sorted (bs.map f))[bs.length / 2] = c at hupper hlower
  rw [(sorted_perm _).countP_eq, List.countP_map] at hupper hlower
  have hmono : bs.countP ((fun x => !decide (c ≤ x)) ∘ g) ≤
      bs.countP ((fun x => !decide (c ≤ x)) ∘ f) := by
    refine List.countP_mono_left fun b hb hgb => ?_
    simp only [Function.comp_apply, Bool.not_eq_true', decide_eq_false_iff_not] at hgb ⊢
    exact fun hcf => hgb (le_trans hcf (h b hb))
  omega

/-- **The median square of valid boxes is valid.** -/
theorem isValid_medianSquare {boxes : List (Box α)} (hne : boxes ≠ [])
    (h : ∀ b ∈ boxes, b.isValid = true) : (medianSquare boxes).isValid = true := by
  have hx : median (boxes.map (·.minX)) ≤ median (boxes.map (·.maxX)) :=
    median_le_median hne fun b hb => (Box.isValid_iff.1 (h b hb)).1
  have hy : median (boxes.map (·.minY)) ≤ median (boxes.map (·.maxY)) :=
    median_le_median hne fun b hb => (Box.isValid_iff.1 (h b hb)).2
  have hle : (medianSquare boxes).minX ≤ (medianSquare boxes).maxX := by
    refine le_trans (lesser_le_left (le_left hx)) (le_trans hx (le_greater_left (le_right hx)))
  exact Box.isValid_iff.2 ⟨hle, hle⟩

end

/-! ## Cells -/

/-- The cells of the inner nodes of a tree. -/
def Node.cells : Node α ν → List (Box α)
  | absent => []
  | leaf _ => []
  | inner cell _ _ children => cell :: Quadrant.all.flatMap fun q => (children q).cells

/-- The boxes whose centers a tree compares: those of its entries, and its cells. -/
def Quadtree.boxes (t : Quadtree α ν) : List (Box α) := t.entries.map Entry.box ++ t.root.cells

/-- **The cells of a node are in order** if the cells above it are: each is valid, as long as all
cells above it hold their centers. -/
def Node.CellsFrom (above : Prop) : Node α ν → Prop
  | absent => True
  | leaf _ => True
  | inner cell _ _ children => (above → cell.isValid = true) ∧
    ∀ q, (children q).CellsFrom (above ∧ cell.hasPoint cell.center = true)

namespace Node

/-- If the cells of a tree are in order and each valid one holds its center, then all are valid. -/
theorem CellsFrom.isValid {n : Node α ν} {above : Prop} (h : n.CellsFrom above) (habove : above)
    (hcenter : ∀ c ∈ n.cells, c.isValid = true → c.hasPoint c.center = true) :
    ∀ c ∈ n.cells, c.isValid = true := by
  induction n generalizing above with
  | absent => intro c hc; exact absurd hc List.not_mem_nil
  | leaf es => intro c hc; exact absurd hc List.not_mem_nil
  | inner cell level dealt children ih =>
    obtain ⟨hcell, hbelow⟩ := h
    have hvalid := hcell habove
    have hhere := hcenter cell List.mem_cons_self hvalid
    intro c hc
    rw [cells, List.mem_cons, List.mem_flatMap] at hc
    rcases hc with rfl | ⟨q, -, hq⟩
    · exact hvalid
    · refine ih q (hbelow q) ⟨habove, hhere⟩ (fun c hc => hcenter c ?_) c hq
      exact List.mem_cons_of_mem _ (List.mem_flatMap.2 ⟨q, Quadrant.mem_all q, hc⟩)

theorem CellsFrom.ofGroup {above : Prop} (g : List (Entry α ν)) :
    (Node.ofGroup g).CellsFrom above := by
  unfold Node.ofGroup
  split <;> trivial

/-- Replacing a child of a node by one in order keeps the node in order. -/
theorem CellsFrom.ofUpdate {above : Prop} {cell : Box α} {level : Nat} {dealt : Bool}
    {children : Quadrant → Node α ν} {q : Quadrant} {n : Node α ν}
    (hcell : above → cell.isValid = true)
    (hn : n.CellsFrom (above ∧ cell.hasPoint cell.center = true))
    (hbelow : ∀ q, (children q).CellsFrom (above ∧ cell.hasPoint cell.center = true)) :
    (ofChildren cell level dealt (update children q n)).CellsFrom above := by
  refine ⟨hcell, fun p => ?_⟩
  by_cases hp : p = q
  · subst hp
    rw [update_self]
    exact hn
  · rw [update_of_ne hp]
    exact hbelow p

/-- A chain of quarters is in order if its first cell is. -/
theorem CellsFrom.chain {e : Entry α ν} {object : Box α} (levels : Nat) {above : Prop}
    {cell : Box α} {level : Nat} (room : Nat) (hcell : above → cell.isValid = true) :
    (Node.chain e ((stepsDown object levels cell).take room) level).CellsFrom above := by
  induction levels generalizing above cell level room with
  | zero =>
    cases room with
    | zero => trivial
    | succ room =>
      rw [stepsDown, List.take_succ_cons, List.take_nil]
      exact CellsFrom.ofUpdate hcell trivial fun _ => trivial
  | succ levels ih =>
    cases room with
    | zero => trivial
    | succ room =>
      rw [stepsDown, List.take_succ_cons]
      refine CellsFrom.ofUpdate hcell (ih room ?_) fun _ => trivial
      exact fun h => Box.isValid_quarter h.2 _

end Node

variable {rules : TreeRules} [LawfulScalar α]

/-- The cells of a split are valid whatever is above them. -/
theorem Split.cellsFrom {depth : Nat} {entries : List (Entry α ν)} {n : Node α ν}
    (h : Split rules depth entries n) (hdepth : depth < rules.maxTreeDepth) (above : Prop) :
    n.CellsFrom above := by
  revert above
  refine h.induction_on hdepth (P := fun _ _ n => ∀ above : Prop, n.CellsFrom above) ?_ ?_
  · intro depth g _ _ above
    exact Node.CellsFrom.ofGroup g
  · intro depth entries children cut _ hcut hne hvalid hgroups above
    refine ⟨fun _ => ?_, fun q => hgroups q _⟩
    rw [hcut]
    exact isValid_medianSquare (by simpa using hne) (by simpa using hvalid)

/-- **An insertion keeps the cells in order.** -/
theorem Inserted.cellsFrom {e : Entry α ν} {depth : Nat} {n n' : Node α ν}
    (h : Inserted rules e depth n n') {above : Prop} (hn : n.CellsFrom above) :
    n'.CellsFrom above := by
  induction h generalizing above with
  | fresh => trivial
  | added hroom => trivial
  | overflowed hfull hdepth hsplit => exact hsplit.cellsFrom hdepth above
  | dealt hchild ih => exact Node.CellsFrom.ofUpdate hn.1 (ih (hn.2 _)) hn.2
  | descended hplan hpresent hchild ih => exact Node.CellsFrom.ofUpdate hn.1 (ih (hn.2 _)) hn.2
  | @chained depth level cell children descent hplan habsent =>
    obtain ⟨-, -, -, hsteps⟩ := planDescent_ok hplan
    refine Node.CellsFrom.ofUpdate hn.1 ?_ hn.2
    rw [hsteps]
    -- the way starts in the cell of the node, and the chain below it
    cases descent.levels with
    | zero =>
      rw [stepsDown, List.drop_one, List.tail_cons, List.take_nil]
      trivial
    | succ levels =>
      rw [stepsDown, List.drop_one, List.tail_cons]
      exact Node.CellsFrom.chain levels _ fun h => Box.isValid_quarter h.2 _

/-- **The cells of a tree are valid**, if each valid one holds its center. -/
theorem History.cells_isValid (rules : TreeRules) (calls : List (Call α ν))
    (hcenter : ∀ c ∈ (run rules calls).tree.root.cells,
      c.isValid = true → c.hasPoint c.center = true) :
    ∀ c ∈ (run rules calls).tree.root.cells, c.isValid = true := by
  have horder : (run rules calls).tree.root.CellsFrom True := by
    refine run_induction (P := fun h => h.tree.root.CellsFrom True) trivial ?_ calls
    intro root root' size accepted e hroot _ hinserted
    exact hinserted.cellsFrom hroot
  exact horder.isValid trivial hcenter

end QuadIndex
