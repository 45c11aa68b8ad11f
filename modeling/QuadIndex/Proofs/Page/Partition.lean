import Mathlib.Data.List.Induction
import Mathlib.Data.List.Sort
import QuadIndex.Page.Split
import QuadIndex.Proofs.Page.Proposal
import QuadIndex.Proofs.Success

/-!
# A split page is a partition

Columns take each other over, and a column hands some rows on to the columns after it and takes
them back. Each of the ways to split the rows of a page is a partition of their positions, if the
ways it calls on are; so no row is lost on the way and none is placed twice.

* `handOn_isPartition`, `splitStep_isPartition`: one column.
* `splitFrom_isPartition`: the columns from one on.
* `splitPage_places`: when a page can be split, and what its groups are.
-/

namespace QuadIndex

variable {α κ : Type}

/-! ## Rows taken out and taken back -/

/-- Rows taken out of the groups of a partition, and what is left. -/
theorem Quadrants.IsPartition.takeOut {n : Nat} {groups : Quadrants (List Nat)} {moved : List Nat}
    (h : groups.IsPartition n) (hnodup : moved.Nodup) (hmoved : ∀ i ∈ moved, i ∈ groups.members) :
    ((groups.map fun g => g.filter fun i => !moved.contains i).members ++ moved).Perm
      (List.range n) := by
  have hsame : (groups.members.filter fun i => moved.contains i).Perm moved := by
    refine (List.perm_ext_iff_of_nodup ((h.nodup_iff.2 List.nodup_range).filter _) hnodup).2 ?_
    intro i
    rw [List.mem_filter, List.contains_iff_mem, and_iff_right_of_imp (hmoved i)]
  rw [members_map_filter]
  refine ((hsame.symm.append_left _).trans List.perm_append_comm).trans ?_
  exact (List.filter_append_perm _ _).trans h

theorem filterMap_getElem?_range {β : Type} (xs : List β) :
    (List.range xs.length).filterMap (xs[·]?) = xs := by
  induction xs using List.reverseRecOn with
  | nil => rfl
  | append_singleton xs x ih =>
    have hinit : (List.range xs.length).filterMap ((xs ++ [x])[·]?) = xs := by
      refine (List.filterMap_congr fun i hi => ?_).trans ih
      exact List.getElem?_append_left (List.mem_range.1 hi)
    rw [List.length_append, List.length_singleton, List.range_succ, List.filterMap_append, hinit]
    simp

/-- Positions among some rows stand for the rows. -/
theorem Quadrants.IsPartition.backTo {moved : List Nat} {inner : Quadrants (List Nat)}
    (h : inner.IsPartition moved.length) :
    (inner.map fun g => g.filterMap (moved[·]?)).members.Perm moved := by
  rw [members_map_filterMap]
  exact (h.filterMap _).trans (List.Perm.of_eq (filterMap_getElem?_range moved))

/-! ## One column -/

/-- A column with nulls groups its numbered keys by where each of them goes. -/
theorem groups_groupByNull (s : KeyOps α κ) (rows : List (Row κ)) (column : Nat) :
    (groupByNull s rows column).groups =
      (Quadrants.groupBy (fun k => nullQuadrant (k.2 + 1) k.1)
        (rows.map (·.key? column)).zipIdx).map fun g => g.map (·.2) := by
  unfold groupByNull
  split <;> rfl

/-- **The split of a column with nulls is a partition.** -/
theorem groupByNull_isPartition (s : KeyOps α κ) (rows : List (Row κ)) (column : Nat) :
    (groupByNull s rows column).groups.IsPartition rows.length := by
  unfold Quadrants.IsPartition
  rw [groups_groupByNull, Quadrants.members_map_map]
  refine ((Quadrants.groupBy_perm _ _).map _).trans (List.Perm.of_eq ?_)
  rw [List.zipIdx_map_snd, List.length_map, List.range_eq_range']

/-- The split of the later columns is a partition of whatever rows they are given. -/
def Next.Partitions (next : Next κ) : Prop :=
  ∀ (asked : Nat) (rows : List (Row κ)) (prior : Quadrants (Option κ)),
    (next asked rows prior).value.groups.IsPartition rows.length

variable (s : KeyOps α κ)

section

variable [Scalar α]

/-- The rows that do not care are rows of the groups, each once. -/
theorem indifferentRows_sublist (column : Nat) (keys : List κ) (c : ColumnGroups κ) :
    ∃ rows, (indifferentRows s column keys c).Perm rows ∧ rows.Sublist c.groups.members := by
  refine ⟨_, List.mergeSort_perm _ _, ?_⟩
  simp only [Quadrants.members, Quadrant.all, List.flatMap_cons, List.flatMap_nil]
  refine List.filter_sublist.append (List.filter_sublist.append (List.filter_sublist.append ?_))
  exact List.filter_sublist.append (List.Sublist.refl [])

/-- **A column that hands rows on leaves a partition**, if the later columns do. -/
theorem handOn_isPartition {next : Next κ} (hnext : next.Partitions) (asked : Nat)
    (rows : List (Row κ)) (column : Nat) (keys : List κ) {c : ColumnGroups κ}
    (hc : c.groups.IsPartition rows.length) :
    (handOn s next asked rows column keys c).value.groups.IsPartition rows.length := by
  obtain ⟨taken, hperm, hsub⟩ := indifferentRows_sublist s column keys c
  have hnodup : (indifferentRows s column keys c).Nodup :=
    hperm.nodup_iff.2 ((hc.nodup_iff.2 List.nodup_range).sublist hsub)
  have hmoved : ∀ i ∈ indifferentRows s column keys c, i ∈ c.groups.members :=
    fun i hi => hsub.subset (hperm.mem_iff.1 hi)
  have hout := hc.takeOut hnodup hmoved
  have hrow : ∀ i ∈ indifferentRows s column keys c, i < rows.length :=
    fun i hi => List.mem_range.1 (hc.mem_iff.1 (hmoved i hi))
  have hsort : ∀ groups : Quadrants (List Nat),
      (groups.map fun g => g.mergeSort fun i j => i ≤ j).members.Perm groups.members :=
    Quadrants.members_map_perm fun g => List.mergeSort_perm g _
  unfold handOn
  split
  · exact hnext asked rows noPrior
  simp only
  split
  · exact hc
  split
  · exact hnext asked rows noPrior
  generalize indifferentRows s column keys c = moved at hout hrow ⊢
  split
  · -- a single row joins the group it is placed in
    refine (hsort _).trans ((Quadrants.members_add_perm _ _ _).trans ?_)
    exact (List.perm_append_singleton _ _).symm.trans hout
  · -- the later columns number the moved rows anew, and are read back through `moved`
    have hlen : (moved.filterMap (rows[·]?)).length = moved.length := by
      rw [List.length_filterMap_eq_countP, List.countP_eq_length]
      intro i hi
      simpa using hrow i hi
    have hinner := hnext asked (moved.filterMap (rows[·]?))
    rw [hlen] at hinner
    refine (hsort _).trans ((Quadrants.members_join_perm _ _).trans ?_)
    exact ((hinner _).backTo.append_left _).trans hout

/-- **One column leaves a partition**, if the later ones do. -/
theorem splitStep_isPartition (config : PageConfig) {next? : Option (Next κ)}
    (hnext : ∀ next, next? = some next → next.Partitions) (column asked : Nat)
    (rows : List (Row κ)) (prior : Quadrants (Option κ)) :
    (splitStep s config next? column asked rows prior).value.groups.IsPartition rows.length := by
  unfold splitStep
  simp only
  split
  · split
    · rename_i next
      exact hnext next rfl asked rows noPrior
    · exact quartiles_isPartition rows.length
  split
  · exact groupByNull_isPartition s rows column
  rename_i hfull
  -- without nulls there are as many keys as rows
  have hlen : (rows.filterMap (·.key? column)).length = rows.length :=
    Nat.le_antisymm (List.length_filterMap_le _ _) (Nat.le_of_not_lt hfull)
  have hcolumn := groupColumn_isPartition s config asked column
    (rows.filterMap (·.key? column)) prior
  rw [hlen] at hcolumn
  split
  · rename_i next
    split
    · exact handOn_isPartition s (hnext next rfl) (asked + 1) rows column _ hcolumn
    · exact hcolumn
  · exact hcolumn

/-- **The columns from one on leave a partition**, by induction on how many there are. -/
theorem splitFrom_isPartition (config : PageConfig) (later column : Nat) :
    Next.Partitions (splitFrom s config later column) := by
  induction later generalizing column with
  | zero => exact splitStep_isPartition s config (fun _ h => by cases h) column
  | succ later ih =>
    refine splitStep_isPartition s config (fun next h => ?_) column
    cases h
    exact ih (column + 1)

end

/-! ## The page -/

/-- The page of some groups of positions: the rows in order and numbered from one, and summaries of
all columns if there is more than one. -/
def Grouped.page (rows : List (Row κ)) (g : Grouped κ) : SplitPage κ :=
  let summaries := if 1 < s.columns then summariesOfRows s rows g.groups else g.summaries
  ⟨.ofFn fun q => ⟨((g.groups.get q).mergeSort fun i j => i ≤ j).map (· + 1), summaries.get q⟩⟩

theorem Grouped.length_rows_page (rows : List (Row κ)) (g : Grouped κ) (q : Quadrant) :
    ((g.page s rows).groups.get q).rows.length = (g.groups.get q).length := by
  rw [page, Quadrants.get_ofFn, List.length_map, List.length_mergeSort]

theorem checkRows_eq_ok_iff {rows : List (Row κ)} : checkRows s rows = .ok () ↔
    ∀ row ∈ rows, ∀ column < s.columns, ∀ key, row.key? column = some key →
      s.check column key = .ok () := by
  unfold checkRows
  simp only [forM_eq_ok_iff, List.mem_range]
  refine forall₄_congr fun row _ column _ => ?_
  cases row.key? column with
  | none => simp
  | some key => simp

namespace SplitPage

/-- **The four groups place `n` rows**, each in one group. -/
structure Places (n : Nat) (p : SplitPage κ) : Prop where
  ascending : ∀ q, (p.groups.get q).rows.Pairwise (· < ·)
  disjoint : ∀ q r, q ≠ r → ∀ i ∈ (p.groups.get q).rows, i ∉ (p.groups.get r).rows
  /-- The members are the numbers from one to `n`. -/
  complete : ∀ i, (∃ q, i ∈ (p.groups.get q).rows) ↔ 1 ≤ i ∧ i ≤ n
  length_eq : p.length = n
  placement_length : p.placement.length = n
  /-- The placement of a row is the group that has it. -/
  placement_iff : ∀ i q, 1 ≤ i → (p.placement[i - 1]? = some (some q) ↔ i ∈ (p.groups.get q).rows)

/-- The rows of the groups. -/
def rows (p : SplitPage κ) : Quadrants (List Nat) := p.groups.map (·.rows)

theorem get_rows (p : SplitPage κ) (q : Quadrant) : p.rows.get q = (p.groups.get q).rows := by
  rw [rows, Quadrants.get_map]

theorem length_eq_members (p : SplitPage κ) : p.length = p.rows.members.length := by
  have hsizes : p.sizes = p.rows.map List.length := by
    ext q
    rw [sizes, Quadrants.get_map, Quadrants.get_map, get_rows]
  rw [length, hsizes, Quadrants.length_members]

/-- Groups that hold each number once, in order, place the rows. -/
theorem places_of_perm {n : Nat} {p : SplitPage κ} (hperm : p.rows.members.Perm (List.range' 1 n))
    (hsorted : ∀ q, (p.rows.get q).Pairwise (· ≤ ·)) : p.Places n := by
  have hnodup : p.rows.members.Nodup := hperm.nodup_iff.2 List.nodup_range'
  have hmem : ∀ i, (∃ q, i ∈ p.rows.get q) ↔ 1 ≤ i ∧ i ≤ n := by
    intro i
    rw [← Quadrants.mem_members, hperm.mem_iff, List.mem_range'_1]
    omega
  have hlen : p.length = n := by
    rw [length_eq_members, hperm.length_eq, List.length_range']
  constructor
  case ascending =>
    intro q
    rw [← get_rows]
    exact Quadrants.get_ascending hnodup (hsorted q)
  case disjoint =>
    intro q r hqr i hi
    rw [← get_rows] at hi ⊢
    exact Quadrants.get_disjoint hnodup hqr hi
  case complete =>
    intro i
    simp only [← get_rows]
    exact hmem i
  case length_eq => exact hlen
  case placement_length => rw [placement, List.length_map, List.length_range', hlen]
  case placement_iff =>
    intro i q hi
    simp only [placement, hlen, ← get_rows, List.getElem?_map]
    by_cases hin : i ≤ n
    · rw [List.getElem?_range' (by omega), show 1 + 1 * (i - 1) = i by omega, Option.map_some,
        Option.some.injEq]
      exact Quadrants.find?_eq_some_iff hnodup
    · rw [List.getElem?_eq_none (by rw [List.length_range']; omega)]
      refine iff_of_false (by simp) fun hq => ?_
      have := (hmem i).1 ⟨q, hq⟩
      omega

end SplitPage

/-- **The page of a partition places its rows.** -/
theorem Grouped.places_page {rows : List (Row κ)} {g : Grouped κ} {n : Nat}
    (h : g.groups.IsPartition n) : (g.page s rows).Places n := by
  have hrows : (g.page s rows).rows =
      (g.groups.map fun g => g.mergeSort fun i j => i ≤ j).map fun g => g.map (· + 1) := by
    ext q
    rw [SplitPage.get_rows, page, Quadrants.get_ofFn, Quadrants.get_map, Quadrants.get_map]
  have hsorted : (g.groups.map fun g => g.mergeSort fun i j => i ≤ j).IsPartition n :=
    (Quadrants.members_map_perm (fun g => List.mergeSort_perm g _) g.groups).trans h
  refine SplitPage.places_of_perm ?_ fun q => ?_
  · rw [hrows]
    exact hsorted.numbers
  · rw [hrows, Quadrants.get_map, Quadrants.get_map, List.pairwise_map]
    exact (List.pairwise_mergeSort' (· ≤ ·) (g.groups.get q)).imp fun hij => Nat.succ_le_succ hij

variable [Scalar α]

/-- A page is split if the checks pass, and then as its columns are. -/
theorem splitPage_eq_ok_iff {config : PageConfig} {rows : List (Row κ)}
    {o : Outcome κ (SplitPage κ)} : splitPage s config rows = .ok o ↔
      (0 < s.columns ∧ 2 ≤ rows.length ∧ checkRows s rows = .ok ()) ∧
        o = ⟨(splitFrom s config (s.columns - 1) 0 0 rows noPrior).value.page s rows,
          (splitFrom s config (s.columns - 1) 0 0 rows noPrior).events,
          (splitFrom s config (s.columns - 1) 0 0 rows noPrior).questions⟩ := by
  unfold splitPage
  by_cases hcolumns : s.columns = 0
  · rw [if_pos hcolumns]
    refine iff_of_false (by intro h; cases h) ?_
    omega
  by_cases hrows : rows.length < 2
  · rw [if_neg hcolumns, if_pos hrows]
    refine iff_of_false (by intro h; cases h) ?_
    omega
  rw [if_neg hcolumns, if_neg hrows]
  cases hcheck : checkRows s rows with
  | error e => exact iff_of_false (by intro h; cases h) (fun h => by cases h.1.2.2)
  | ok =>
    constructor
    · intro h
      cases h
      exact ⟨⟨by omega, by omega, rfl⟩, rfl⟩
    · rintro ⟨-, rfl⟩
      rfl

/-- **When a page can be split, and what its groups are.** It takes a column, two rows, and keys
that all pass their check. Then the groups place all the rows, whatever was proposed on the way. -/
theorem splitPage_places (config : PageConfig) (rows : List (Row κ)) :
    ((∃ o, splitPage s config rows = .ok o) ↔ 0 < s.columns ∧ 2 ≤ rows.length ∧
      ∀ row ∈ rows, ∀ column < s.columns, ∀ key, row.key? column = some key →
        s.check column key = .ok ()) ∧
    ∀ o, splitPage s config rows = .ok o → o.value.Places rows.length := by
  constructor
  · simp only [splitPage_eq_ok_iff, checkRows_eq_ok_iff]
    constructor
    · rintro ⟨o, h, -⟩
      exact h
    · intro h
      exact ⟨_, h, rfl⟩
  · intro o ho
    obtain ⟨-, rfl⟩ := (splitPage_eq_ok_iff s).1 ho
    exact Grouped.places_page s (splitFrom_isPartition s config _ 0 0 rows noPrior)

end QuadIndex
