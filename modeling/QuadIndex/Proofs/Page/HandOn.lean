import QuadIndex.Proofs.Page.Summaries

/-!
# Rows that a column hands on

A column places its rows, and then takes out again those that another group would cost the same.
Only these can end up in another group than the column gave them, and where they end up is for the
columns after it to say. Those number the rows that they are given anew, from zero, so a place among
them is read back through the list of the rows that were taken out.

* `mem_indifferentRows_iff`: which rows are taken out.
* `HandedOn`: where all rows of a column go.
* `handOn_of_givenUp`, `handOn_of_nil`, `handOn_of_singleton`, `handOn_of_two_le`: what a column
  comes to, by the number of rows that are taken out.
* `handOn_handedOn`, `splitFrom_handedOn`: that is where they go.
-/

namespace QuadIndex

variable {α κ : Type} [Scalar α] (s : KeyOps α κ)

/-! ## What is handed on -/

/-- **A row that does not care** about the split of a column: under the summary of another group its
key costs as much as under that of its own group. -/
def IsUndecided (rows : List (Row κ)) (column : Nat) (c : ColumnGroups κ) (i : Nat) : Prop :=
  ∃ q own row key, i ∈ c.groups.get q ∧ c.summaries.get q = some own ∧ rows[i]? = some row ∧
    row.key? column = some key ∧ ∃ r other, r ≠ q ∧ c.summaries.get r = some other ∧
      (s.cost column other key == s.cost column own key) = true

/-- All four groups have a summary, and all are the same as the first. -/
def SameSummaries (column : Nat) (summaries : Quadrants (Option κ)) : Prop :=
  ∃ first, summaries.get .northWest = some first ∧
    ∀ q, q ≠ .northWest → ∃ other, summaries.get q = some other ∧ s.same column first other = true

/-- The groups without some of their members. -/
def Quadrants.without (groups : Quadrants (List Nat)) (moved : List Nat) : Quadrants (List Nat) :=
  groups.map fun g => g.filter fun i => !moved.contains i

/-- The split of a column is given up: it tells no groups apart, or some group has none but rows
that do not care. -/
def GivenUp (column : Nat) (c : ColumnGroups κ) (moved : List Nat) : Prop :=
  SameSummaries s column c.summaries ∨ moved ≠ [] ∧ ∃ q, (c.groups.without moved).get q = []

/-- The summaries of groups of rows in one column. -/
def columnHulls (rows : List (Row κ)) (column : Nat) (groups : Quadrants (List Nat)) :
    Quadrants (Option κ) :=
  groups.map fun g => s.hull column (g.filterMap fun i => (rows[i]?).bind (·.key? column))

/-- **Where the rows of a column go**, if it splits them as `c`, takes the rows `moved` out, and has
`next` for the split of the columns after it. -/
structure HandedOn (rows : List (Row κ)) (column : Nat) (c : ColumnGroups κ) (moved : List Nat)
    (next : List (Row κ) → Quadrants (Option κ) → Grouped κ) (result : Grouped κ) : Prop where
  ascending : moved.Pairwise (· < ·)
  mem_moved : ∀ i, i ∈ moved ↔ IsUndecided s rows column c i
  /-- A column that is given up leaves all rows to the next ones. -/
  passed : GivenUp s column c moved → result = next rows noPrior
  whole : ¬ GivenUp s column c moved → moved = [] → result.groups = c.groups
  /-- Rows that care stay where the column has placed them. -/
  stays : ¬ GivenUp s column c moved → ∀ i, i ∉ moved → ∀ q,
    (i ∈ result.groups.get q ↔ i ∈ c.groups.get q)
  /-- A single row is placed by the summaries of the others. -/
  single : ¬ GivenUp s column c moved → ∀ i row, moved = [i] → rows[i]? = some row → ∀ q,
    (i ∈ result.groups.get q ↔
      q = placeSingle s row (summariesOfRows s rows (c.groups.without moved)) (column + 1))
  /-- Several rows are split on their own, with the summaries of the others as prior ones. -/
  several : ¬ GivenUp s column c moved → 2 ≤ moved.length → ∀ j i, moved[j]? = some i → ∀ q,
    (i ∈ result.groups.get q ↔
      j ∈ (next (moved.filterMap (rows[·]?))
        (columnHulls s rows (column + 1) (c.groups.without moved))).groups.get q)

omit [Scalar α] in
theorem allAlike_iff {column : Nat} {summaries : Quadrants (Option κ)} :
    allAlike s column summaries = true ↔ SameSummaries s column summaries := by
  obtain ⟨a, b, c, d⟩ := summaries
  constructor
  · intro h
    cases a <;> cases b <;> cases c <;> cases d <;>
      simp only [allAlike, Bool.false_eq_true, Bool.and_eq_true] at h
    obtain ⟨⟨hb, hc⟩, hd⟩ := h
    refine ⟨_, rfl, fun q hq => ?_⟩
    cases q
    · exact absurd rfl hq
    · exact ⟨_, rfl, hb⟩
    · exact ⟨_, rfl, hc⟩
    · exact ⟨_, rfl, hd⟩
  · rintro ⟨first, hfirst, hothers⟩
    obtain ⟨u, hu, hb⟩ := hothers .northEast (by decide)
    obtain ⟨v, hv, hc⟩ := hothers .southWest (by decide)
    obtain ⟨w, hw, hd⟩ := hothers .southEast (by decide)
    simp only [Quadrants.get] at hfirst hu hv hw
    subst hfirst hu hv hw
    simp only [allAlike, hb, hc, hd, Bool.and_self]

omit [Scalar α] in
/-- The summaries of rows, read in one column. -/
theorem map_key?_summariesOfRows {rows : List (Row κ)} {column : Nat}
    (hcolumn : column < s.columns) (groups : Quadrants (List Nat)) :
    (summariesOfRows s rows groups).map (fun u => Row.key? u column) =
      columnHulls s rows column groups := by
  ext q
  rw [Quadrants.get_map, summariesOfRows, Quadrants.get_map, Row.key?_map_range hcolumn,
    columnHulls, Quadrants.get_map]

variable {s}

theorem isIndifferent_iff {column : Nat} {summaries : Quadrants (Option κ)} {q : Quadrant}
    {key : κ} : isIndifferent s column summaries q key = true ↔
      ∃ own, summaries.get q = some own ∧ ∃ r other, r ≠ q ∧ summaries.get r = some other ∧
        (s.cost column other key == s.cost column own key) = true := by
  simp only [isIndifferent, Option.any_eq_true, List.any_eq_true, Bool.and_eq_true,
    bne_iff_ne, Quadrant.mem_all, true_and]
  constructor
  · rintro ⟨own, hown, r, hne, other, hother, hcost⟩
    exact ⟨own, hown, r, other, hne, hother, hcost⟩
  · rintro ⟨own, hown, r, other, hne, hother, hcost⟩
    exact ⟨own, hown, r, hne, other, hother, hcost⟩

variable {rows : List (Row κ)} {column : Nat} {c : ColumnGroups κ}

/-- **The rows that are taken out are those that do not care**, if no row has a null. -/
theorem mem_indifferentRows_iff
    (hfull : (rows.filterMap (·.key? column)).length = rows.length) (i : Nat) :
    i ∈ indifferentRows s column (rows.filterMap (·.key? column)) c ↔
      IsUndecided s rows column c i := by
  simp only [indifferentRows, List.mem_mergeSort, List.mem_flatMap, Quadrant.mem_all, true_and,
    List.mem_filter, Option.any_eq_true, getElem?_filterMap_of_length_eq hfull,
    Option.bind_eq_some_iff, isIndifferent_iff]
  constructor
  · rintro ⟨q, hi, key, ⟨row, hrow, hkey⟩, own, hown, hother⟩
    exact ⟨q, own, row, key, hi, hown, hrow, hkey, hother⟩
  · rintro ⟨q, own, row, key, hi, hown, hrow, hkey, hother⟩
    exact ⟨q, hi, key, ⟨row, hrow, hkey⟩, own, hown, hother⟩

theorem indifferentRows_ascending {n : Nat} (hc : c.groups.IsPartition n) (keys : List κ) :
    (indifferentRows s column keys c).Pairwise (· < ·) := by
  obtain ⟨taken, hperm, hsub⟩ := indifferentRows_sublist s column keys c
  have hnodup : (indifferentRows s column keys c).Nodup :=
    hperm.nodup_iff.2 ((hc.nodup_iff.2 List.nodup_range).sublist hsub)
  have hsorted : (indifferentRows s column keys c).Pairwise (· ≤ ·) :=
    List.pairwise_mergeSort' (· ≤ ·) _
  exact (hsorted.and hnodup).imp fun hij => Nat.lt_of_le_of_ne hij.1 hij.2

/-! ## Where it goes -/

theorem Quadrants.map_filter_eq_without (groups : Quadrants (List Nat)) (moved : List Nat) :
    (groups.map fun g => g.filter fun i => !moved.contains i) = groups.without moved :=
  rfl

theorem Quadrants.mem_without {groups : Quadrants (List Nat)} {moved : List Nat} {q : Quadrant}
    {i : Nat} : i ∈ (groups.without moved).get q ↔ i ∈ groups.get q ∧ i ∉ moved := by
  rw [without, get_map, List.mem_filter, Bool.not_eq_true', ← Bool.not_eq_true,
    List.contains_iff_mem]

theorem Quadrants.any_isEmpty_iff {β : Type} {groups : Quadrants (List β)} :
    groups.toList.any List.isEmpty = true ↔ ∃ q, groups.get q = [] := by
  simp only [toList, List.any_map, List.any_eq_true, Function.comp_apply, List.isEmpty_iff,
    Quadrant.mem_all, true_and]

/-- Members found by their places in a list without repetitions are found by no other place. -/
theorem mem_filterMap_getElem?_iff {moved places : List Nat} (hnodup : moved.Nodup) {i j : Nat}
    (hj : moved[j]? = some i) : i ∈ places.filterMap (moved[·]?) ↔ j ∈ places := by
  rw [List.mem_filterMap]
  constructor
  · rintro ⟨j', hmem, hj'⟩
    have hlt := (List.getElem?_eq_some_iff.1 hj).1
    rwa [(List.getElem?_inj hlt hnodup).1 (hj.trans hj'.symm)]
  · intro hmem
    exact ⟨j, hmem, hj⟩

variable (s) in
/-- Groups in rising order, with the summaries of their rows. -/
def Grouped.ofMembers (rows : List (Row κ)) (groups : Quadrants (List Nat)) : Grouped κ :=
  let sorted := groups.map fun g => g.mergeSort fun i j => i ≤ j
  ⟨sorted, summariesOfRows s rows sorted⟩

omit [Scalar α] in
theorem Grouped.mem_ofMembers {groups : Quadrants (List Nat)} {q : Quadrant} {k : Nat} :
    k ∈ (Grouped.ofMembers s rows groups).groups.get q ↔ k ∈ groups.get q := by
  rw [ofMembers, Quadrants.get_map, List.mem_mergeSort]

section

variable {next : Next κ} {asked : Nat} {keys : List κ}

omit [Scalar α] in
/-- A column that is not given up has groups to compare, and each keeps a row. -/
theorem not_givenUp {moved : List Nat} (h : ¬ GivenUp s column c moved) :
    ¬ allAlike s column c.summaries = true ∧
      (moved ≠ [] → ¬ (c.groups.without moved).toList.any List.isEmpty = true) := by
  refine ⟨fun halike => h (Or.inl ((allAlike_iff s).1 halike)), fun hne hempty => ?_⟩
  exact h (Or.inr ⟨hne, Quadrants.any_isEmpty_iff.1 hempty⟩)

/-- A column that is given up leaves all rows to the next ones. -/
theorem handOn_of_givenUp (rows : List (Row κ))
    (h : GivenUp s column c (indifferentRows s column keys c)) :
    ∃ events, ∀ (next : Next κ) (asked : Nat),
      handOn s next asked rows column keys c = (next asked rows noPrior).after events [] := by
  unfold handOn
  by_cases halike : allAlike s column c.summaries = true
  · simp only [if_pos halike]
    exact ⟨_, fun _ _ => rfl⟩
  · obtain ⟨hne, q, hempty⟩ := h.resolve_left fun hsame => halike ((allAlike_iff s).2 hsame)
    have hnone : ¬ (indifferentRows s column keys c).isEmpty = true := mt List.isEmpty_iff.1 hne
    have hkept := Quadrants.any_isEmpty_iff.2 ⟨q, hempty⟩
    simp only [if_neg halike, if_neg hnone, Quadrants.map_filter_eq_without, hkept, if_true]
    exact ⟨_, fun _ _ => rfl⟩

/-- A column whose rows all care keeps its groups. -/
theorem handOn_of_nil (h : ¬ GivenUp s column c (indifferentRows s column keys c))
    (hmoved : indifferentRows s column keys c = []) :
    handOn s next asked rows column keys c = ⟨.ofColumn s column c, [], []⟩ := by
  rw [handOn, if_neg (not_givenUp h).1, hmoved]
  rfl

/-- A single row that does not care joins the group that it is placed in. -/
theorem handOn_of_singleton {i : Nat}
    (h : ¬ GivenUp s column c (indifferentRows s column keys c))
    (hmoved : indifferentRows s column keys c = [i]) :
    let kept := c.groups.without [i]
    let q := placeSingle s (rows.getD i []) (summariesOfRows s rows kept) (column + 1)
    handOn s next asked rows column keys c =
      ⟨.ofMembers s rows (kept.set q (kept.get q ++ [i])), [.indifferentFound column 1], []⟩ := by
  obtain ⟨halike, hkept⟩ := not_givenUp h
  rw [hmoved] at hkept
  rw [handOn, if_neg halike, hmoved]
  dsimp only
  rw [if_neg (by simp), Quadrants.map_filter_eq_without, if_neg (hkept (List.cons_ne_nil i []))]
  rfl

/-- Several rows that do not care go where the next columns place them. -/
theorem handOn_of_two_le (h : ¬ GivenUp s column c (indifferentRows s column keys c))
    (hmoved : 2 ≤ (indifferentRows s column keys c).length) :
    let moved := indifferentRows s column keys c
    let kept := c.groups.without moved
    let inner := next asked (moved.filterMap (rows[·]?))
      ((summariesOfRows s rows kept).map fun u => Row.key? u (column + 1))
    handOn s next asked rows column keys c =
      ⟨.ofMembers s rows
          (kept.mapWith fun q g => g ++ (inner.value.groups.get q).filterMap (moved[·]?)),
        .indifferentFound column moved.length :: inner.events, inner.questions⟩ := by
  obtain ⟨halike, hkept⟩ := not_givenUp h
  rw [handOn, if_neg halike]
  generalize indifferentRows s column keys c = moved at hmoved hkept ⊢
  have hne : moved ≠ [] := List.ne_nil_of_length_pos (by omega)
  dsimp only
  rw [if_neg (mt List.isEmpty_iff.1 hne), Quadrants.map_filter_eq_without, if_neg (hkept hne)]
  rcases moved with _ | ⟨i, _ | ⟨j, rest⟩⟩
  · exact absurd rfl hne
  · rw [List.length_singleton] at hmoved
    omega
  · simp only [Quadrants.mapWith]
    rfl

/-- A single row that does not care is in the group that it is placed in. -/
theorem mem_handOn_of_singleton {i : Nat}
    (h : ¬ GivenUp s column c (indifferentRows s column keys c))
    (hmoved : indifferentRows s column keys c = [i]) {k : Nat} {q : Quadrant} :
    k ∈ (handOn s next asked rows column keys c).value.groups.get q ↔
      k ∈ (c.groups.without [i]).get q ∨ k = i ∧ q = placeSingle s (rows.getD i [])
        (summariesOfRows s rows (c.groups.without [i])) (column + 1) := by
  rw [handOn_of_singleton h hmoved, Grouped.mem_ofMembers, Quadrants.get_set]
  split
  · rename_i hq
    rw [List.mem_append, List.mem_singleton, and_iff_left hq, hq]
  · rename_i hq
    simp only [hq, and_false, or_false]

/-- Several rows that do not care are where the next columns place them. -/
theorem mem_handOn_of_two_le
    (h : ¬ GivenUp s column c (indifferentRows s column keys c))
    (hmoved : 2 ≤ (indifferentRows s column keys c).length) {k : Nat} {q : Quadrant} :
    k ∈ (handOn s next asked rows column keys c).value.groups.get q ↔
      k ∈ (c.groups.without (indifferentRows s column keys c)).get q ∨
        k ∈ ((next asked ((indifferentRows s column keys c).filterMap (rows[·]?))
          ((summariesOfRows s rows (c.groups.without (indifferentRows s column keys c))).map
            fun u => Row.key? u (column + 1))).value.groups.get q).filterMap
              ((indifferentRows s column keys c)[·]?) := by
  rw [handOn_of_two_le h hmoved, Grouped.mem_ofMembers, Quadrants.get_mapWith, List.mem_append]

/-- Rows that care stay in their groups. -/
theorem mem_handOn_of_not_mem {i : Nat} {q : Quadrant}
    (h : ¬ GivenUp s column c (indifferentRows s column keys c))
    (hi : i ∉ indifferentRows s column keys c) :
    i ∈ (handOn s next asked rows column keys c).value.groups.get q ↔ i ∈ c.groups.get q := by
  rcases hmoved : indifferentRows s column keys c with _ | ⟨k, rest⟩
  · rw [handOn_of_nil h hmoved]
    rfl
  rcases hrest : rest with _ | ⟨k', rest'⟩
  · rw [hrest] at hmoved
    rw [hmoved, List.mem_singleton] at hi
    rw [mem_handOn_of_singleton h hmoved, Quadrants.mem_without, List.mem_singleton]
    simp only [hi, false_and, or_false, not_false_eq_true, and_true]
  · have hlen : 2 ≤ (indifferentRows s column keys c).length := by
      rw [hmoved, hrest, List.length_cons, List.length_cons]
      omega
    -- the places that the next columns name are those of rows that were taken out
    have hback : ∀ places : List Nat,
        i ∉ places.filterMap ((indifferentRows s column keys c)[·]?) := by
      intro places hmem
      obtain ⟨j, -, hj⟩ := List.mem_filterMap.1 hmem
      exact hi (List.mem_of_getElem? hj)
    rw [mem_handOn_of_two_le h hlen, Quadrants.mem_without]
    simp only [hback, or_false, hi, not_false_eq_true, and_true]

end

/-- **A column hands on the rows that do not care**, and keeps the others where they are. -/
theorem handOn_handedOn (next : Next κ) (asked : Nat) (hcolumn : column + 1 < s.columns)
    (hc : c.groups.IsPartition rows.length)
    (hfull : (rows.filterMap (·.key? column)).length = rows.length) :
    let keys := rows.filterMap (·.key? column)
    HandedOn s rows column c (indifferentRows s column keys c)
      (fun rows prior => (next asked rows prior).value)
      (handOn s next asked rows column keys c).value := by
  intro keys
  have hascending : (indifferentRows s column keys c).Pairwise (· < ·) :=
    indifferentRows_ascending hc keys
  have hnodup := hascending.imp Nat.ne_of_lt
  constructor
  case ascending => exact hascending
  case mem_moved => exact mem_indifferentRows_iff hfull
  case passed =>
    intro h
    obtain ⟨events, hpassed⟩ := handOn_of_givenUp rows h
    rw [hpassed]
    rfl
  case whole =>
    intro h hmoved
    rw [handOn_of_nil h hmoved]
    rfl
  case stays => exact fun h i hi q => mem_handOn_of_not_mem h hi
  case single =>
    intro h i row hmoved hrow q
    have hget : rows.getD i [] = row := by
      rw [List.getD_eq_getElem?_getD, hrow, Option.getD_some]
    rw [mem_handOn_of_singleton h hmoved, Quadrants.mem_without, hget, hmoved]
    simp only [List.mem_singleton, not_true_eq_false, and_false, true_and, false_or]
  case several =>
    intro h hlen j i hj q
    have hi := List.mem_of_getElem? hj
    rw [mem_handOn_of_two_le h hlen, Quadrants.mem_without, map_key?_summariesOfRows s hcolumn,
      mem_filterMap_getElem?_iff hnodup hj]
    simp only [hi, not_true_eq_false, and_false, false_or]

/-! ## The columns from one on -/

/-- The columns from one on leave no rows in four empty groups. -/
theorem value_splitFrom_nil (config : PageConfig) (later column asked : Nat)
    (prior : Quadrants (Option κ)) :
    (splitFrom s config later column asked [] prior).value =
      .withoutSummaries s (.const []) := by
  induction later generalizing column asked prior with
  | zero =>
    have hempty : quartiles 0 = .const [] := by decide
    rw [← hempty]
    rfl
  | succ later ih => exact ih (column + 1) asked noPrior

/-- A column that all rows have keys in hands on what its own split leaves to the next ones. -/
theorem value_splitFrom_succ {config : PageConfig} (hconfig : config.handsOn = true)
    {later column asked : Nat} {prior : Quadrants (Option κ)} (hne : rows ≠ [])
    (hfull : (rows.filterMap (·.key? column)).length = rows.length) :
    let keys := rows.filterMap (·.key? column)
    (splitFrom s config (later + 1) column asked rows prior).value =
      (handOn s (splitFrom s config later (column + 1)) (asked + 1) rows column keys
        (groupColumn s config asked column keys prior).value).value := by
  intro keys
  have hkeys : ¬ keys.isEmpty = true := by
    rw [List.isEmpty_iff_length_eq_zero, hfull, List.length_eq_zero_iff]
    exact hne
  rw [splitFrom, splitStep]
  dsimp only
  rw [if_neg hkeys, if_neg (Nat.not_lt.2 (Nat.le_of_eq hfull.symm)), if_pos hconfig]
  rfl

/-- No rows are handed on as four empty groups. -/
theorem handedOn_nil {next : List (Row κ) → Quadrants (Option κ) → Grouped κ}
    (hc : c.groups.IsPartition 0)
    (hnext : next [] noPrior = .withoutSummaries s (.const [])) :
    HandedOn s [] column c (indifferentRows s column [] c) next
      (.withoutSummaries s (.const [])) := by
  have hundecided (i : Nat) : ¬ IsUndecided s [] column c i := by
    rintro ⟨q, own, row, key, -, -, hrow, -⟩
    rw [List.getElem?_nil] at hrow
    contradiction
  have hmoved : indifferentRows s column [] c = [] :=
    List.eq_nil_iff_forall_not_mem.2 fun i hi =>
      hundecided i ((mem_indifferentRows_iff rfl i).1 hi)
  have hempty (q : Quadrant) : c.groups.get q = [] := by
    have hmembers : c.groups.members = [] := List.Perm.eq_nil hc
    refine List.eq_nil_iff_forall_not_mem.2 fun i hi => ?_
    have hi' := Quadrants.mem_members.2 ⟨q, hi⟩
    rw [hmembers] at hi'
    exact List.not_mem_nil hi'
  have hgroups : c.groups = .const [] := by
    ext1 q
    rw [hempty, Quadrants.get_const]
  rw [hmoved]
  constructor
  case ascending => exact List.Pairwise.nil
  case mem_moved => exact fun i => iff_of_false List.not_mem_nil (hundecided i)
  case passed => exact fun _ => hnext.symm
  case whole => exact fun _ _ => hgroups.symm
  case stays =>
    intro _ i _ q
    rw [hgroups]
    rfl
  case single =>
    intro _ i row hi
    contradiction
  case several =>
    intro _ hlen
    contradiction

/-- **Where the rows of a column go**, of whatever rows that have keys in a column that is not the
last: those that care stay where the column places them, whatever the columns after it hold, and
those that do not care go where the columns after it place them on their own. -/
theorem splitFrom_handedOn (s : KeyOps α κ) (config : PageConfig) (hconfig : config.handsOn = true)
    (later column asked : Nat) (rows : List (Row κ)) (prior : Quadrants (Option κ))
    (hcolumn : column + 1 < s.columns) (hkeys : ∀ row ∈ rows, row.key? column ≠ none) :
    let keys := rows.filterMap (·.key? column)
    let split := (groupColumn s config asked column keys prior).value
    HandedOn s rows column split (indifferentRows s column keys split)
      (fun rows prior => (splitFrom s config later (column + 1) (asked + 1) rows prior).value)
      (splitFrom s config (later + 1) column asked rows prior).value := by
  intro keys split
  have hfull : keys.length = rows.length := by
    rw [List.length_filterMap_eq_countP, List.countP_eq_length]
    exact fun row hrow => Option.isSome_iff_ne_none.2 (hkeys row hrow)
  have hsplit : split.groups.IsPartition rows.length := by
    rw [← hfull]
    exact groupColumn_isPartition s config asked column keys prior
  by_cases hne : rows = []
  · subst hne
    rw [value_splitFrom_nil]
    exact handedOn_nil hsplit (value_splitFrom_nil config later (column + 1) (asked + 1) noPrior)
  · rw [value_splitFrom_succ hconfig hne hfull]
    exact handOn_handedOn (splitFrom s config later (column + 1)) (asked + 1) hcolumn hsplit hfull

/-- Keys of two columns, of which zero costs nothing anywhere and any other nothing under itself
alone. -/
def wildcardKeys : KeyOps Binary64 Nat where
  columns := 2
  hull _ keys := keys.max?
  cost _ summary key := if key = 0 ∨ summary = key then 0 else 1
  propose _ _ _ _ := ⟨⟨[1, 5], [2, 6], [3], [4]⟩, .const none, false⟩
  same _ x y := x == y
  check _ _ := .ok ()

/-- Four rows that care about the first column, and two that do not. -/
def wildcardRows : List (Row Nat) :=
  [[some 1, some 1], [some 2, some 2], [some 3, some 3], [some 4, some 4], [some 0, some 2],
    [some 0, some 1]]

/-- How the first column splits these rows. -/
def wildcardSplit : ColumnGroups Nat :=
  ⟨⟨[0, 4], [1, 5], [2], [3]⟩, ⟨some 1, some 2, some 3, some 4⟩⟩

theorem indifferentRows_wildcardSplit :
    indifferentRows wildcardKeys 0 [1, 2, 3, 4, 0, 0] wildcardSplit = [4, 5] := by
  rw [indifferentRows, List.mergeSort_of_pairwise (by decide +kernel)]
  decide +kernel

theorem not_givenUp_wildcardSplit : ¬ GivenUp wildcardKeys 0 wildcardSplit [4, 5] := by
  rintro (halike | ⟨-, q, hempty⟩)
  · exact absurd ((allAlike_iff wildcardKeys).2 halike) (by decide)
  · cases q <;> exact absurd hempty (by decide)

theorem splitFrom_handedOn_wildcardRows :
    let split := (groupColumn wildcardKeys {} 0 0 [1, 2, 3, 4, 0, 0] noPrior).value
    indifferentRows wildcardKeys 0 [1, 2, 3, 4, 0, 0] split = [4, 5] ∧
    ¬ GivenUp wildcardKeys 0 split [4, 5] ∧
    HandedOn wildcardKeys wildcardRows 0 split [4, 5]
      (fun rows prior => (splitFrom wildcardKeys {} 0 1 1 rows prior).value)
      (splitFrom wildcardKeys {} 1 0 0 wildcardRows noPrior).value := by
  intro split
  have hsplit : split = wildcardSplit := rfl
  have hmoved : indifferentRows wildcardKeys 0 [1, 2, 3, 4, 0, 0] split = [4, 5] :=
    hsplit ▸ indifferentRows_wildcardSplit
  refine ⟨hmoved, hsplit ▸ not_givenUp_wildcardSplit, ?_⟩
  rw [← hmoved]
  exact splitFrom_handedOn wildcardKeys {} rfl 0 0 0 wildcardRows noPrior (by decide) (by decide)

end QuadIndex
