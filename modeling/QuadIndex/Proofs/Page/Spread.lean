import QuadIndex.Page.RangeKeys
import QuadIndex.Proofs.Binary64Order
import QuadIndex.Proofs.Page.Partition

/-!
# How far a page is spread

The rows of a page end up in one of three ways, whatever columns take part and whatever is proposed
for them: in four groups none of which is empty, in the quartiles of their order, or split by the
nulls of a column that has keys too. In each of them every group leaves out some row, so a page that
is split makes progress. Without nulls the third way is closed, and the quartiles of four rows or
more are not empty.

* `Spread`: the three ways.
* `groupColumn_spread`, `handOn_spread`, `splitStep_spread`: one column.
* `splitPage_filled`: four rows without nulls fill all groups.
* `splitPage_progress`: no group holds the whole page.
-/

namespace QuadIndex

variable {α β κ : Type}

/-! ## Filled groups -/

theorem Quadrants.any_isEmpty_eq_false_iff {groups : Quadrants (List β)} :
    groups.toList.any List.isEmpty = false ↔ ∀ q, groups.get q ≠ [] := by
  simp only [toList, List.any_map, List.any_eq_false, Function.comp_apply, List.isEmpty_iff]
  exact ⟨fun h q => h q (Quadrant.mem_all q), fun h q _ => h q⟩

/-- If no group of a partition is empty, then none holds all positions. -/
theorem Quadrants.IsPartition.length_lt {n : Nat} {groups : Quadrants (List Nat)}
    (h : groups.IsPartition n) (hfilled : ∀ q, groups.get q ≠ []) (q : Quadrant) :
    (groups.get q).length < n := by
  have htotal : (groups.map List.length).total = n := by
    rw [← length_members, h.length_eq, List.length_range]
  have hpos : ∀ q, 0 < (groups.get q).length := fun q => List.length_pos_iff.2 (hfilled q)
  have hnw := hpos .northWest
  have hne := hpos .northEast
  have hsw := hpos .southWest
  have hse := hpos .southEast
  change (groups.get .northWest).length + (groups.get .northEast).length +
    (groups.get .southWest).length + (groups.get .southEast).length = n at htotal
  cases q <;> omega

theorem length_quartiles (n : Nat) (q : Quadrant) :
    ((quartiles n).get q).length = (q.code + 1) * n / 4 - q.code * n / 4 := by
  rw [quartiles, Quadrants.get_ofFn, List.length_range']

theorem quartiles_filled {n : Nat} (h : 4 ≤ n) (q : Quadrant) : (quartiles n).get q ≠ [] := by
  rw [← List.length_pos_iff, length_quartiles]
  cases q <;> simp only [Quadrant.code] <;> omega

theorem length_quartiles_lt {n : Nat} (h : 2 ≤ n) (q : Quadrant) :
    ((quartiles n).get q).length < n := by
  rw [length_quartiles]
  cases q <;> simp only [Quadrant.code] <;> omega

/-! ## The ways to end up -/

/-- **The ways in which the rows of a page end up in groups.** -/
inductive Spread (s : KeyOps α κ) (rows : List (Row κ)) (groups : Quadrants (List Nat)) : Prop where
  /-- No group is empty. -/
  | filled (h : ∀ q, groups.get q ≠ [])
  /-- The groups are the quartiles, perhaps in another order. -/
  | inRuns (h : ∀ q, ∃ p, groups.get q = (quartiles rows.length).get p)
  /-- A column with nulls and keys decided. -/
  | byNull (column : Nat) (hcolumn : column < s.columns)
      (hnull : ∃ row ∈ rows, row.key? column = none) (hkey : ∃ row ∈ rows, row.key? column ≠ none)
      (h : groups = (groupByNull s rows column).groups)

/-- A column with nulls and keys leaves a null out of each group, or a key. -/
theorem length_groupByNull_lt (s : KeyOps α κ) {rows : List (Row κ)} {column : Nat}
    (hnull : ∃ row ∈ rows, row.key? column = none) (hkey : ∃ row ∈ rows, row.key? column ≠ none)
    (q : Quadrant) : ((groupByNull s rows column).groups.get q).length < rows.length := by
  -- a row somewhere else leaves the group short
  have hshort : ∀ row ∈ rows, (∀ number, nullQuadrant number (row.key? column) ≠ q) →
      ((groupByNull s rows column).groups.get q).length < rows.length := by
    intro row hrow hq
    obtain ⟨i, hi, hget⟩ := List.getElem_of_mem (List.mem_map_of_mem (f := (·.key? column)) hrow)
    have hmem : (row.key? column, i) ∈ (rows.map (·.key? column)).zipIdx := by
      rw [List.mk_mem_zipIdx_iff_getElem?, List.getElem?_eq_getElem hi, hget]
    have hlt := Quadrants.length_groupBy_lt
      (f := fun k : Option κ × Nat => nullQuadrant (k.2 + 1) k.1) hmem (hq (i + 1))
    rw [List.length_zipIdx, List.length_map] at hlt
    rw [groups_groupByNull, Quadrants.get_map, List.length_map]
    exact hlt
  obtain ⟨row, hrow, hnone⟩ := hnull
  obtain ⟨row', hrow', hsome⟩ := hkey
  by_cases hq : q = .northWest
  · refine hshort row' hrow' fun number => ?_
    obtain ⟨key, hkey⟩ := Option.ne_none_iff_exists'.1 hsome
    rw [hkey, hq, nullQuadrant]
    split
    · exact Quadrant.noConfusion
    · split <;> exact Quadrant.noConfusion
  · refine hshort row hrow fun number => ?_
    rw [hnone, nullQuadrant]
    exact Ne.symm hq

namespace Spread

variable {s : KeyOps α κ} {rows : List (Row κ)} {groups : Quadrants (List Nat)}

/-- **Four rows or more without nulls** fill all groups. -/
theorem allFilled (h : Spread s rows groups) (hrows : 4 ≤ rows.length)
    (hkeys : ∀ row ∈ rows, ∀ column < s.columns, row.key? column ≠ none) (q : Quadrant) :
    groups.get q ≠ [] := by
  cases h with
  | filled h => exact h q
  | inRuns h =>
    obtain ⟨p, hp⟩ := h q
    rw [hp]
    exact quartiles_filled hrows p
  | byNull column hcolumn hnull =>
    obtain ⟨row, hrow, hnone⟩ := hnull
    exact absurd hnone (hkeys row hrow column hcolumn)

/-- **No group holds all rows**, if there are two. -/
theorem length_lt (h : Spread s rows groups) (hgroups : groups.IsPartition rows.length)
    (hrows : 2 ≤ rows.length) (q : Quadrant) : (groups.get q).length < rows.length := by
  cases h with
  | filled h => exact hgroups.length_lt h q
  | inRuns h =>
    obtain ⟨p, hp⟩ := h q
    rw [hp]
    exact length_quartiles_lt hrows p
  | byNull column hcolumn hnull hkey h =>
    rw [h]
    exact length_groupByNull_lt s hnull hkey q

end Spread

/-! ## One column -/

variable (s : KeyOps α κ)

/-- The answer to use leaves no group empty, or is the quartiles. -/
theorem acceptedProposal_spread (column : Nat) (keys : List κ) (given : Proposal κ) :
    (∀ q, (acceptedProposal s column keys given).value.groups.get q ≠ []) ∨
      ∀ q, (acceptedProposal s column keys given).value.groups.get q =
        ((quartiles keys.length).get q).map (· + 1) := by
  have hquartiles : ∀ q, (quartileProposal s column keys).groups.get q =
      ((quartiles keys.length).get q).map (· + 1) := Quadrants.get_map _ _
  unfold acceptedProposal
  simp only
  split
  · exact Or.inr hquartiles
  · split
    · exact Or.inr hquartiles
    · rename_i hempty
      exact Or.inl (Quadrants.any_isEmpty_eq_false_iff.1 (eq_false_of_ne_true hempty))

variable [Scalar α]

/-- **The split of a column** leaves no group empty, or is the quartiles in some order. -/
theorem groupColumn_spread (config : PageConfig) (asked column : Nat) (keys : List κ)
    (prior : Quadrants (Option κ)) :
    (∀ q, (groupColumn s config asked column keys prior).value.groups.get q ≠ []) ∨
      ∀ q, ∃ p, (groupColumn s config asked column keys prior).value.groups.get q =
        (quartiles keys.length).get p := by
  have haccepted := acceptedProposal_spread s column keys (s.propose asked column keys prior)
  -- each group of the column is one of the answer, numbered from zero
  have hmoved : ∀ q, ∃ p, (groupColumn s config asked column keys prior).value.groups.get q =
      ((acceptedProposal s column keys
        (s.propose asked column keys prior)).value.groups.get p).map (· - 1) := by
    intro q
    unfold groupColumn
    simp only [Quadrants.get_map]
    split
    · exact ⟨_, by rw [rematch, Quadrants.get_ofFn]; rfl⟩
    · exact ⟨q, rfl⟩
  rcases haccepted with hfilled | hquartiles
  · refine Or.inl fun q => ?_
    obtain ⟨p, hp⟩ := hmoved q
    rw [hp, ne_eq, List.map_eq_nil_iff]
    exact hfilled p
  · refine Or.inr fun q => ?_
    obtain ⟨p, hp⟩ := hmoved q
    refine ⟨p, ?_⟩
    rw [hp, hquartiles, List.map_map]
    exact List.map_id'' (fun i => Nat.add_sub_cancel i 1) _

variable {s} {rows : List (Row κ)}

/-- **A column that hands rows on** keeps a row in each group, or leaves all rows to the columns
after it. -/
theorem handOn_spread {next : Next κ}
    (hnext : ∀ asked prior, Spread s rows (next asked rows prior).value.groups) (asked column : Nat)
    (keys : List κ) {c : ColumnGroups κ} (hc : Spread s rows c.groups) :
    Spread s rows (handOn s next asked rows column keys c).value.groups := by
  have hsort : ∀ {g : List Nat}, g ≠ [] → (g.mergeSort fun i j => i ≤ j) ≠ [] := by
    intro g hg hnil
    exact hg (List.perm_nil.1 (hnil ▸ (List.mergeSort_perm g _).symm))
  unfold handOn
  split
  · exact hnext asked noPrior
  simp only
  split
  · exact hc
  split
  · exact hnext asked noPrior
  rename_i hkept
  rw [Bool.not_eq_true, Quadrants.any_isEmpty_eq_false_iff] at hkept
  refine Spread.filled fun q => ?_
  split
  · -- a single row joins one of the groups that are left
    simp only [Quadrants.get_map, Quadrants.get_set] at hkept ⊢
    split
    · exact hsort (List.append_ne_nil_of_right_ne_nil _ (List.cons_ne_nil _ _))
    · exact hsort (hkept q)
  · simp only [Quadrants.get_map, Quadrants.get_mapWith] at hkept ⊢
    exact hsort (List.append_ne_nil_of_left_ne_nil (hkept q) _)

/-- **One column spreads the rows**, if the later ones do. -/
theorem splitStep_spread (config : PageConfig) {next? : Option (Next κ)} {column : Nat}
    (hcolumn : column < s.columns)
    (hnext : ∀ next, next? = some next →
      ∀ asked prior, Spread s rows (next asked rows prior).value.groups)
    (asked : Nat) (prior : Quadrants (Option κ)) :
    Spread s rows (splitStep s config next? column asked rows prior).value.groups := by
  unfold splitStep
  simp only
  split
  · split
    · rename_i next
      exact hnext next rfl asked noPrior
    · exact Spread.inRuns fun q => ⟨q, rfl⟩
  rename_i hkeys
  split
  · -- some key is missing, and not all are
    rename_i hshort
    refine Spread.byNull column hcolumn ?_ ?_ rfl
    · by_contra hnone
      rw [List.length_filterMap_eq_countP] at hshort
      refine hshort.ne (List.countP_eq_length.2 fun row hrow => ?_)
      exact Option.isSome_iff_ne_none.2 fun hkey => hnone ⟨row, hrow, hkey⟩
    · by_contra hnone
      rw [List.isEmpty_iff, List.filterMap_eq_nil_iff] at hkeys
      refine hkeys fun row hrow => ?_
      by_contra hkey
      exact hnone ⟨row, hrow, hkey⟩
  rename_i hfull
  have hlen : (rows.filterMap (·.key? column)).length = rows.length :=
    Nat.le_antisymm (List.length_filterMap_le _ _) (Nat.le_of_not_lt hfull)
  have hgroups : Spread s rows (groupColumn s config asked column
      (rows.filterMap (·.key? column)) prior).value.groups := by
    rcases groupColumn_spread s config asked column (rows.filterMap (·.key? column)) prior with
      hfilled | hruns
    · exact Spread.filled hfilled
    · rw [hlen] at hruns
      exact Spread.inRuns hruns
  split
  · rename_i next
    split
    · exact handOn_spread (hnext next rfl) (asked + 1) column _ hgroups
    · exact hgroups
  · exact hgroups

/-- **The columns from one on spread the rows**, by induction on how many there are. -/
theorem splitFrom_spread (config : PageConfig) {later column : Nat}
    (hcolumns : column + later < s.columns) (asked : Nat) (prior : Quadrants (Option κ)) :
    Spread s rows (splitFrom s config later column asked rows prior).value.groups := by
  induction later generalizing column asked prior with
  | zero => exact splitStep_spread config hcolumns (fun _ h => by cases h) asked prior
  | succ later ih =>
    refine splitStep_spread config (by omega) (fun next h => ?_) asked prior
    cases h
    exact ih (by omega)

/-! ## The page -/

variable (s)

/-- **Four rows or more without nulls fill all groups** of a split page, whatever is proposed for
its columns. -/
theorem splitPage_filled (config : PageConfig) (rows : List (Row κ))
    (o : Outcome κ (SplitPage κ)) (ho : splitPage s config rows = .ok o) (hrows : 4 ≤ rows.length)
    (hkeys : ∀ row ∈ rows, ∀ column < s.columns, row.key? column ≠ none) (q : Quadrant) :
    (o.value.groups.get q).rows ≠ [] := by
  obtain ⟨⟨hcolumns, -, -⟩, rfl⟩ := (splitPage_eq_ok_iff s).1 ho
  have hspread : Spread s rows (splitFrom s config (s.columns - 1) 0 0 rows noPrior).value.groups :=
    splitFrom_spread config (by omega) 0 noPrior
  rw [← List.length_pos_iff, Grouped.length_rows_page, List.length_pos_iff]
  exact hspread.allFilled hrows hkeys q

/-- Four rows with the same two keys, which suggest no split. -/
def tiedPage : List (Row (Interval Binary64)) := List.replicate 4 [some ⟨0, 1⟩, some ⟨1, 1⟩]

theorem splitPage_filled_tiedPage : ∃ o, splitPage (rangeKeys 2) {} tiedPage = .ok o ∧
    ∀ q, (o.value.groups.get q).rows ≠ [] := by
  have hsplit : ∃ o, splitPage (rangeKeys 2) {} tiedPage = .ok o :=
    ⟨_, (splitPage_eq_ok_iff _).2 ⟨⟨by decide, by decide, by decide +kernel⟩, rfl⟩⟩
  obtain ⟨o, ho⟩ := hsplit
  exact ⟨o, ho, splitPage_filled (rangeKeys 2) {} tiedPage o ho (by decide) (by decide)⟩

/-- **A split makes progress**: no group holds all rows of the page, whatever is proposed for its
columns and wherever it has nulls. -/
theorem splitPage_progress (config : PageConfig) (rows : List (Row κ))
    (o : Outcome κ (SplitPage κ)) (ho : splitPage s config rows = .ok o) (q : Quadrant) :
    (o.value.groups.get q).rows.length < rows.length := by
  obtain ⟨⟨hcolumns, hrows, -⟩, rfl⟩ := (splitPage_eq_ok_iff s).1 ho
  have hspread : Spread s rows (splitFrom s config (s.columns - 1) 0 0 rows noPrior).value.groups :=
    splitFrom_spread config (by omega) 0 noPrior
  rw [Grouped.length_rows_page]
  exact hspread.length_lt (splitFrom_isPartition s config _ 0 0 rows noPrior) hrows q

/-- Two rows that only the last of two columns tells apart. -/
def nullPage : List (Row (Interval Binary64)) := [[none, none], [none, some ⟨0, 1⟩]]

theorem splitPage_progress_nullPage : ∃ o, splitPage (rangeKeys 2) {} nullPage = .ok o ∧
    ∀ q, (o.value.groups.get q).rows.length < 2 := by
  have hsplit : ∃ o, splitPage (rangeKeys 2) {} nullPage = .ok o :=
    ⟨_, (splitPage_eq_ok_iff _).2 ⟨⟨by decide, by decide, by decide +kernel⟩, rfl⟩⟩
  obtain ⟨o, ho⟩ := hsplit
  exact ⟨o, ho, splitPage_progress (rangeKeys 2) {} nullPage o ho⟩

end QuadIndex
