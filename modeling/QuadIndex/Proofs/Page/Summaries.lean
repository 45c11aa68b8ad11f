import QuadIndex.Proofs.Binary64Order
import QuadIndex.Proofs.Page.Hull
import QuadIndex.Proofs.Page.Partition

/-!
# The summaries of a split page

Rows move after some of their summaries are made, so the summaries of a page with several columns
are made anew from the final groups. With one column no row moves after the split of the column, but
the summaries given for that are kept as they are.

What a summary has to be to the keys of its group is left open here, as a relation that hulls
satisfy. `splitPage_described` says that then all summaries of a page do.

* `memberKeys`: the keys of the members of a group.
* `Describes.of_groupColumn`: the summaries of a single column.
* `splitPage_summaries`: the summaries are the hulls of the keys, and least covers if hulls are.
-/

namespace QuadIndex

variable {α κ : Type}

/-- The keys in a column of some rows, which are numbered from one. Nulls are passed over. -/
def memberKeys (rows : List (Row κ)) (column : Nat) (members : List Nat) : List κ :=
  members.filterMap fun i => (rows[i - 1]?).bind (·.key? column)

theorem memberKeys_numbers (rows : List (Row κ)) (column : Nat) (positions : List Nat) :
    memberKeys rows column (positions.map (· + 1)) =
      positions.filterMap fun i => (rows[i]?).bind (·.key? column) := by
  rw [memberKeys, List.filterMap_map]
  rfl

theorem Row.key?_map_range {n column : Nat} (h : column < n) (f : Nat → Option κ) :
    Row.key? ((List.range n).map f) column = f column := by
  rw [Row.key?, List.getD_eq_getElem?_getD, List.getElem?_map, List.getElem?_range h,
    Option.map_some, Option.getD_some]

/-- If no row has a null in a column, then its keys stand where its rows do. -/
theorem getElem?_filterMap_of_length_eq {β γ : Type} {f : β → Option γ} {xs : List β}
    (h : (xs.filterMap f).length = xs.length) (i : Nat) : (xs.filterMap f)[i]? = xs[i]?.bind f := by
  induction xs generalizing i with
  | nil => rfl
  | cons x xs ih =>
    have hle := List.length_filterMap_le f xs
    cases hx : f x with
    | none =>
      rw [List.filterMap_cons_none hx, List.length_cons] at h
      omega
    | some y =>
      rw [List.filterMap_cons_some hx, List.length_cons, List.length_cons] at h
      rw [List.filterMap_cons_some hx]
      cases i with
      | zero => simp [hx]
      | succ i => simpa using ih (by omega) i

theorem keysAt_eq {keys : List κ} {numbers : List Nat} (h : ∀ i ∈ numbers, 1 ≤ i) :
    keysAt keys numbers = (numbers.map (· - 1)).filterMap (keys[·]?) := by
  rw [keysAt, List.filterMap_map]
  refine List.filterMap_congr fun i hi => ?_
  have := h i hi
  rw [if_neg (by omega)]
  rfl

theorem exists_number_of_mem_keysAt {keys : List κ} {numbers : List Nat} {k : κ}
    (h : k ∈ keysAt keys numbers) : ∃ i, i + 1 ∈ numbers ∧ keys[i]? = some k := by
  obtain ⟨i, hi, hk⟩ := List.mem_filterMap.1 h
  split at hk
  · cases hk
  · rename_i hpos
    exact ⟨i - 1, by rwa [Nat.sub_add_cancel (Nat.pos_of_ne_zero hpos)], hk⟩

theorem keysAt_subset {keys : List κ} {numbers : List Nat} {k : κ} (h : k ∈ keysAt keys numbers) :
    k ∈ keys := by
  obtain ⟨i, -, hk⟩ := exists_number_of_mem_keysAt h
  exact List.mem_of_getElem? hk

variable (s : KeyOps α κ)

theorem check_memberKeys {rows : List (Row κ)} (hcheck : checkRows s rows = .ok ()) {column : Nat}
    (hcolumn : column < s.columns) (members : List Nat) :
    ∀ k ∈ memberKeys rows column members, s.check column k = .ok () := by
  intro k hk
  obtain ⟨i, -, hi⟩ := List.mem_filterMap.1 hk
  obtain ⟨row, hrow, hkey⟩ := Option.bind_eq_some_iff.1 hi
  exact (checkRows_eq_ok_iff s).1 hcheck row (List.mem_of_getElem? hrow) column hcolumn k hkey

/-- **Every summary given for the first column is the hull of its group**, once the group is
closed. -/
def KeyOps.ReportsUnions : Prop :=
  ∀ (keys : List κ) (q : Quadrant) (u : κ),
    (s.propose 0 0 keys noPrior).summaries.get q = some u →
      s.hull 0 (keysAt keys (((s.propose 0 0 keys noPrior).close keys.length).groups.get q)) =
        some u

/-- **A relation between the keys of a group and their summary** that hulls satisfy. If there is a
single column, then the summaries given for it have to be hulls. -/
structure Describes (P : Nat → List κ → Option κ → Prop) : Prop where
  perm : ∀ {column : Nat} {keys keys' : List κ} {u : Option κ}, keys.Perm keys' →
    P column keys u → P column keys' u
  hull : ∀ {column : Nat} {keys : List κ}, (∀ k ∈ keys, s.check column k = .ok ()) →
    P column keys (s.hull column keys)
  hull_nil : ∀ column, s.hull column [] = none
  reports : s.columns = 1 → s.ReportsUnions

/-- The summaries of groups of positions stand in a relation to the keys of the groups. -/
def Grouped.IsDescribed (P : Nat → List κ → Option κ → Prop) (rows : List (Row κ))
    (g : Grouped κ) : Prop :=
  ∀ q, (g.summaries.get q).length = s.columns ∧ ∀ column < s.columns,
    P column (memberKeys rows column ((g.groups.get q).map (· + 1)))
      (Row.key? (g.summaries.get q) column)

variable {s} {P : Nat → List κ → Option κ → Prop} {rows : List (Row κ)}

/-- **Summaries made from the groups** are as they should be. -/
theorem Describes.isDescribed_summariesOfRows (h : Describes s P)
    (hcheck : checkRows s rows = .ok ()) (groups : Quadrants (List Nat)) :
    Grouped.IsDescribed s P rows ⟨groups, summariesOfRows s rows groups⟩ := by
  intro q
  have hget : (summariesOfRows s rows groups).get q = (List.range s.columns).map
      fun column => s.hull column (memberKeys rows column ((groups.get q).map (· + 1))) := by
    simp only [summariesOfRows, Quadrants.get_map, memberKeys_numbers]
  simp only [hget]
  refine ⟨by rw [List.length_map, List.length_range], fun column hcolumn => ?_⟩
  rw [Row.key?_map_range hcolumn]
  exact h.hull (check_memberKeys s hcheck hcolumn _)

/-- **The summaries of an answer**, with those that it left open. -/
theorem Describes.of_fillSummaries (h : Describes s P) {keys : List κ}
    (hkeys : ∀ k ∈ keys, s.check 0 k = .ok ()) {a : Proposal κ}
    (ha : ∀ {q u}, a.summaries.get q = some u → P 0 (keysAt keys (a.groups.get q)) (some u))
    (q : Quadrant) : P 0 (keysAt keys (a.groups.get q))
      ((fillSummaries s 0 keys a).summaries.get q) := by
  rw [get_fillSummaries]
  cases hgiven : a.summaries.get q with
  | none =>
    rw [Option.none_or]
    exact h.hull fun k hk => hkeys k (keysAt_subset hk)
  | some u =>
    rw [Option.some_or]
    exact ha hgiven

theorem Describes.of_quartileProposal (h : Describes s P) {keys : List κ}
    (hkeys : ∀ k ∈ keys, s.check 0 k = .ok ()) {q : Quadrant} {u : κ}
    (hu : (quartileProposal s 0 keys).summaries.get q = some u) :
    P 0 (keysAt keys ((quartileProposal s 0 keys).groups.get q)) (some u) := by
  rw [← hu, get_quartileProposal]
  exact h.hull fun k hk => hkeys k (keysAt_subset hk)

theorem Describes.of_acceptedProposal (h : Describes s P) (hone : s.columns = 1) {keys : List κ}
    (hkeys : ∀ k ∈ keys, s.check 0 k = .ok ()) {q : Quadrant} {u : κ}
    (hu : (acceptedProposal s 0 keys (s.propose 0 0 keys noPrior)).value.summaries.get q = some u) :
    P 0 (keysAt keys ((acceptedProposal s 0 keys (s.propose 0 0 keys noPrior)).value.groups.get q))
      (some u) := by
  rcases acceptedProposal_cases s 0 keys (s.propose 0 0 keys noPrior) with hvalue | ⟨-, hvalue⟩
  · rw [hvalue] at hu ⊢
    exact h.of_quartileProposal hkeys hu
  · rw [hvalue] at hu ⊢
    rw [← h.reports hone keys q u hu]
    exact h.hull fun k hk => hkeys k (keysAt_subset hk)

variable [Scalar α]

variable (s) in
/-- The split of a column without earlier entries is the answer to use, filled in: there is nothing
to match its groups with. -/
theorem groupColumn_noPrior (config : PageConfig) (asked column : Nat) (keys : List κ) :
    let accepted := acceptedProposal s column keys (s.propose asked column keys noPrior)
    groupColumn s config asked column keys noPrior =
      ⟨⟨accepted.value.groups.map fun g => g.map (· - 1),
        (fillSummaries s column keys accepted.value).summaries⟩, accepted.events⟩ := by
  have hprior : (noPrior : Quadrants (Option κ)).toList.any Option.isSome = false := rfl
  simp only [groupColumn, hprior, Bool.false_and, Bool.false_eq_true, if_false, Traced.silent,
    List.append_nil]
  rfl

/-- **The summaries of a single column** are as they should be. -/
theorem Describes.of_groupColumn (h : Describes s P) (hone : s.columns = 1) (config : PageConfig)
    {keys : List κ} (hkeys : ∀ k ∈ keys, s.check 0 k = .ok ()) (q : Quadrant) :
    P 0 (((groupColumn s config 0 0 keys noPrior).value.groups.get q).filterMap
        (keys[·]?))
      ((groupColumn s config 0 0 keys noPrior).value.summaries.get q) := by
  have hperm := acceptedProposal_perm s 0 keys (s.propose 0 0 keys noPrior)
  have hpos : ∀ i ∈ (acceptedProposal s 0 keys
      (s.propose 0 0 keys noPrior)).value.groups.get q, 1 ≤ i := by
    intro i hi
    exact (List.mem_range'_1.1 (hperm.mem_iff.1 (Quadrants.mem_members.2 ⟨q, hi⟩))).1
  have hfilled := h.of_fillSummaries hkeys (h.of_acceptedProposal hone hkeys) q
  rw [keysAt_eq hpos] at hfilled
  rw [groupColumn_noPrior, Quadrants.get_map]
  exact hfilled

/-- **The split of a single column** is summarized as it should be. -/
theorem Describes.isDescribed_splitStep (h : Describes s P) (hone : s.columns = 1)
    (config : PageConfig) (hcheck : checkRows s rows = .ok ()) :
    Grouped.IsDescribed s P rows
      (splitStep s config none 0 0 rows noPrior).value := by
  unfold splitStep
  simp only
  split
  · rename_i hnull
    rw [List.isEmpty_iff, List.filterMap_eq_nil_iff] at hnull
    intro q
    rw [Grouped.withoutSummaries, Quadrants.get_const]
    refine ⟨List.length_replicate, fun column hcolumn => ?_⟩
    obtain rfl : column = 0 := by omega
    have hkeys : memberKeys rows 0 (((quartiles rows.length).get q).map (· + 1)) = [] := by
      refine List.filterMap_eq_nil_iff.2 fun i _ => ?_
      cases hrow : rows[i - 1]? with
      | none => rfl
      | some row => exact hnull row (List.mem_of_getElem? hrow)
    have hnone : Row.key? (List.replicate s.columns (none : Option κ)) 0 = none := by
      rw [hone]
      rfl
    rw [hkeys, hnone, ← h.hull_nil 0]
    exact h.hull fun k hk => absurd hk List.not_mem_nil
  split
  · -- with nulls the summaries are made from the groups at once
    rw [groupByNull, hone]
    exact h.isDescribed_summariesOfRows hcheck _
  · rename_i hfull
    have hlen : (rows.filterMap (·.key? 0)).length = rows.length :=
      Nat.le_antisymm (List.length_filterMap_le _ _) (Nat.le_of_not_lt hfull)
    have hkeys : ∀ k ∈ rows.filterMap (·.key? 0), s.check 0 k = .ok () := by
      intro k hk
      obtain ⟨row, hrow, hkey⟩ := List.mem_filterMap.1 hk
      exact (checkRows_eq_ok_iff s).1 hcheck row hrow 0 (by omega) k hkey
    intro q
    have hcolumn := h.of_groupColumn hone config hkeys q
    simp only [getElem?_filterMap_of_length_eq hlen] at hcolumn
    rw [Grouped.ofColumn, Quadrants.get_map, hone]
    refine ⟨by rw [List.length_map, List.length_range], fun column hlt => ?_⟩
    obtain rfl : column = 0 := by omega
    rw [memberKeys_numbers]
    exact hcolumn

/-- **The summaries of a split page** are as they should be, on every column of every group. -/
theorem splitPage_described (h : Describes s P) {config : PageConfig}
    {o : Outcome κ (SplitPage κ)} (ho : splitPage s config rows = .ok o) (q : Quadrant) :
    (o.value.groups.get q).summaries.length = s.columns ∧ ∀ column < s.columns,
      P column (memberKeys rows column (o.value.groups.get q).rows)
        (Row.key? (o.value.groups.get q).summaries column) := by
  obtain ⟨⟨hcolumns, -, hcheck⟩, rfl⟩ := (splitPage_eq_ok_iff s).1 ho
  generalize hg : (splitFrom s config (s.columns - 1) 0 0 rows noPrior).value = g
  have hdescribed : Grouped.IsDescribed s P rows
      ⟨g.groups, if 1 < s.columns then summariesOfRows s rows g.groups else g.summaries⟩ := by
    split
    · exact h.isDescribed_summariesOfRows hcheck g.groups
    · have hone : s.columns = 1 := by omega
      rw [← hg, hone]
      exact h.isDescribed_splitStep hone config hcheck
  obtain ⟨hlength, hkeys⟩ := hdescribed q
  simp only [Grouped.page, Quadrants.get_ofFn]
  refine ⟨hlength, fun column hcolumn => h.perm ?_ (hkeys column hcolumn)⟩
  exact (((List.mergeSort_perm _ _).map _).filterMap _).symm

/-! ## Hulls as summaries -/

/-- The summaries of a page are the hulls of the keys of its groups. -/
def SplitPage.HasUnions (s : KeyOps α κ) (rows : List (Row κ)) (p : SplitPage κ) : Prop :=
  ∀ q, (p.groups.get q).summaries = (List.range s.columns).map fun column =>
    s.hull column (memberKeys rows column (p.groups.get q).rows)

/-- There is a summary of each column for each group. It is the least cover of the keys of the
group, and equals their hull. -/
def SplitPage.HasLeastCovers [BEq κ] (s : KeyOps α κ) (valid : κ → Bool) (covers : κ → κ → Bool)
    (rows : List (Row κ)) (p : SplitPage κ) : Prop :=
  ∀ q, (p.groups.get q).summaries.length = s.columns ∧ ∀ column < s.columns,
    LeastCover valid covers (memberKeys rows column (p.groups.get q).rows)
      (Row.key? (p.groups.get q).summaries column) ∧
    (Row.key? (p.groups.get q).summaries column ==
      s.hull column (memberKeys rows column (p.groups.get q).rows)) = true

theorem splitPage_hasUnions (hperm : ∀ column (keys keys' : List κ), keys.Perm keys' →
      s.hull column keys = s.hull column keys')
    (hnil : ∀ column, s.hull column [] = none) (hreports : s.columns = 1 → s.ReportsUnions)
    {config : PageConfig} {o : Outcome κ (SplitPage κ)} (ho : splitPage s config rows = .ok o) :
    o.value.HasUnions s rows := by
  have hdescribes : Describes s fun column keys u => u = s.hull column keys :=
    ⟨fun hp hu => hu.trans (hperm _ _ _ hp), fun _ => rfl, hnil, hreports⟩
  intro q
  obtain ⟨hlength, hkeys⟩ := splitPage_described hdescribes ho q
  refine List.ext_getElem (by rw [hlength, List.length_map, List.length_range]) ?_
  intro column hcolumn hrange
  have hkey := hkeys column (by omega)
  rw [Row.key?, List.getD_eq_getElem?_getD, List.getElem?_eq_getElem hcolumn,
    Option.getD_some] at hkey
  rw [hkey, List.getElem_map, List.getElem_range]

theorem splitPage_hasLeastCovers [BEq κ] {valid : κ → Bool} {covers : κ → κ → Bool}
    (hvalid : ∀ column k, s.check column k = .ok () → valid k = true)
    (hhull : ∀ {column} {keys : List κ}, (∀ k ∈ keys, valid k = true) →
      LeastCover valid covers keys (s.hull column keys))
    (hbeq : ∀ {u v : κ}, covers u v = true → covers v u = true → (u == v) = true)
    (hreports : s.columns = 1 → s.ReportsUnions) {config : PageConfig}
    {o : Outcome κ (SplitPage κ)} (ho : splitPage s config rows = .ok o) :
    o.value.HasLeastCovers s valid covers rows := by
  have hdescribes : Describes s fun _ keys u => LeastCover valid covers keys u :=
    ⟨fun hp hu => hu.perm hp, fun hkeys => hhull fun k hk => hvalid _ k (hkeys k hk),
      fun _ => (hhull (by simp)).none_iff.2 rfl, hreports⟩
  obtain ⟨-, -, hcheck⟩ := ((splitPage_eq_ok_iff s).1 ho).1
  intro q
  obtain ⟨hlength, hkeys⟩ := splitPage_described hdescribes ho q
  refine ⟨hlength, fun column hcolumn => ⟨hkeys column hcolumn, ?_⟩⟩
  refine (hkeys column hcolumn).beq hbeq (hhull fun k hk => hvalid column k ?_)
  exact check_memberKeys s hcheck hcolumn _ k hk

/-! ## Boxes and ranges -/

theorem Proposal.closeGroup_of_pos {n : Nat} {g : List Nat} (h : ∀ i ∈ g, 1 ≤ i) :
    closeGroup n g = g := by
  unfold closeGroup
  split
  · rename_i hlast
    have := h 0 (List.mem_of_getLast? hlast)
    omega
  · rfl

omit [Scalar α] in
/-- Operations that summarize their own groups, and leave none open, report unions. -/
theorem KeyOps.reportsUnions_of_pos
    (hpos : ∀ (keys : List κ) (q : Quadrant), ∀ i ∈ (s.propose 0 0 keys noPrior).groups.get q,
      1 ≤ i)
    (hown : ∀ keys : List κ, (s.propose 0 0 keys noPrior).summaries =
      s.summariesOf 0 keys (s.propose 0 0 keys noPrior).groups) : s.ReportsUnions := by
  intro keys q u hu
  rw [hown, summariesOf, Quadrants.get_map] at hu
  rw [Proposal.close, Quadrants.get_map, Proposal.closeGroup_of_pos (hpos keys q)]
  exact hu

theorem boxKeys_reportsUnions (columns : Nat) :
    (boxKeys columns : KeyOps α (Box α)).ReportsUnions := by
  refine KeyOps.reportsUnions_of_pos (fun boxes q i hi => ?_) fun _ => rfl
  change i ∈ (boxGroups boxes).get q at hi
  unfold boxGroups at hi
  simp only at hi
  split at hi
  · rw [Quadrants.get_map] at hi
    obtain ⟨j, -, rfl⟩ := List.mem_map.1 hi
    omega
  · rw [Quadrants.get_const] at hi
    exact absurd hi List.not_mem_nil

/-- Dealing keeps the members in order. -/
theorem map_snd_dealByMidpoint (n i : Nat) (q : Quadrant) (last : Option α)
    (members : List (α × Nat)) :
    (dealByMidpoint n i q last members).map (·.2) = members.map (·.2) := by
  induction members generalizing i q last with
  | nil => rfl
  | cons m members ih =>
    obtain ⟨mid, number⟩ := m
    rw [dealByMidpoint, List.map_cons, List.map_cons, ih]

theorem rangeKeys_reportsUnions (columns : Nat) :
    (rangeKeys columns : KeyOps α (Interval α)).ReportsUnions := by
  refine KeyOps.reportsUnions_of_pos (fun ranges q i hi => ?_) fun _ => rfl
  change i ∈ (rangeGroups ranges).get q at hi
  unfold rangeGroups at hi
  rw [Quadrants.get_ofFn, List.mem_mergeSort, List.mem_map] at hi
  obtain ⟨d, hd, rfl⟩ := hi
  have hmem := List.mem_map_of_mem (f := (·.2)) (List.mem_of_mem_filter hd)
  rw [map_snd_dealByMidpoint, List.mem_map] at hmem
  obtain ⟨m, hm, hnumber⟩ := hmem
  rw [List.mem_mergeSort, List.mem_map] at hm
  obtain ⟨r, -, rfl⟩ := hm
  omega

variable (α κ) in
/-- **The summaries of a split page are those of the keys of its groups**, wherever the rows were
moved on the way. If the hull of some keys does not depend on their order, and there is none of no
keys, then each summary is the hull of the keys of its group. With one column the summaries that are
given for it have to be hulls, and with more nothing is asked of them. The summaries of boxes and of
ranges are the least valid ones that cover their keys. -/
theorem splitPage_summaries :
    (∀ (s : KeyOps α κ) (config : PageConfig) (rows : List (Row κ)) (o : Outcome κ (SplitPage κ)),
      (∀ column (keys keys' : List κ), keys.Perm keys' →
        s.hull column keys = s.hull column keys') →
      (∀ column, s.hull column [] = none) → (s.columns = 1 → s.ReportsUnions) →
      splitPage s config rows = .ok o → o.value.HasUnions s rows) ∧
    (∀ [LawfulScalar α] (columns : Nat) (config : PageConfig) (rows : List (Row (Box α)))
      (o : Outcome (Box α) (SplitPage (Box α))),
      splitPage (boxKeys columns) config rows = .ok o →
        o.value.HasLeastCovers (boxKeys columns : KeyOps α (Box α)) Box.isValid Box.covers rows) ∧
    (∀ [LawfulScalar α] (columns : Nat) (config : PageConfig) (rows : List (Row (Interval α)))
      (o : Outcome (Interval α) (SplitPage (Interval α))),
      splitPage (rangeKeys columns) config rows = .ok o →
        o.value.HasLeastCovers (rangeKeys columns : KeyOps α (Interval α)) Interval.isValid
          Interval.covers rows) := by
  refine ⟨?_, ?_, ?_⟩
  · intro s config rows o hperm hnil hreports ho
    exact splitPage_hasUnions hperm hnil hreports ho
  · intro _ columns config rows o ho
    refine splitPage_hasLeastCovers (fun _ _ => Box.check_eq_ok_iff.1) Box.hull?_leastCover ?_
      (fun _ => boxKeys_reportsUnions columns) ho
    exact fun huv hvu => Box.beq_iff_covers.2 ⟨huv, hvu⟩
  · intro _ columns config rows o ho
    exact splitPage_hasLeastCovers (fun _ _ => Interval.check_eq_ok_iff.1)
      Interval.hull?_leastCover Interval.beq_of_covers (fun _ => rangeKeys_reportsUnions columns) ho

/-- Numbers that are summarized by their sum, and split as four keys can be. -/
def sumKeys : KeyOps Binary64 Nat where
  columns := 1
  hull _ keys := if keys.isEmpty then none else some keys.sum
  cost _ _ _ := 0
  propose _ _ _ _ := ⟨⟨[1], [2], [3], [0]⟩, .const none, false⟩
  same _ a b := a == b
  check _ _ := .ok ()

def sumPage : List (Row Nat) := [[some 1], [some 2]]

def boxPage : List (Row (Box Binary64)) := [[some ⟨0, 0, 1, 1⟩, none], [some ⟨1, 1, 1, 1⟩]]

def rangePage : List (Row (Interval Binary64)) := [[some ⟨0, 1⟩], [some ⟨1, 1⟩]]

theorem splitPage_summaries_twoRows :
    (∃ o, splitPage sumKeys {} sumPage = .ok o ∧ o.value.HasUnions sumKeys sumPage) ∧
    (∃ o, splitPage (boxKeys 2) {} boxPage = .ok o ∧ o.value.HasLeastCovers
      (boxKeys 2 : KeyOps Binary64 (Box Binary64)) Box.isValid Box.covers boxPage) ∧
    ∃ o, splitPage (rangeKeys 1) {} rangePage = .ok o ∧ o.value.HasLeastCovers
      (rangeKeys 1 : KeyOps Binary64 (Interval Binary64)) Interval.isValid Interval.covers
        rangePage := by
  have hperm : ∀ column (keys keys' : List Nat), keys.Perm keys' →
      sumKeys.hull column keys = sumKeys.hull column keys' := by
    intro _ keys keys' hp
    simp only [sumKeys, hp.sum_nat, List.isEmpty_iff_length_eq_zero, hp.length_eq]
  have hreports : sumKeys.columns = 1 → sumKeys.ReportsUnions := by
    intro _ keys q u hu
    change (Quadrants.const none).get q = some u at hu
    rw [Quadrants.get_const] at hu
    cases hu
  have hsums : ∃ o, splitPage sumKeys {} sumPage = .ok o :=
    ⟨_, (splitPage_eq_ok_iff _).2 ⟨⟨by decide, by decide, by decide⟩, rfl⟩⟩
  have hboxes : ∃ o, splitPage (boxKeys 2) {} boxPage = .ok o :=
    ⟨_, (splitPage_eq_ok_iff _).2 ⟨⟨by decide, by decide, by decide +kernel⟩, rfl⟩⟩
  have hranges : ∃ o, splitPage (rangeKeys 1) {} rangePage = .ok o :=
    ⟨_, (splitPage_eq_ok_iff _).2 ⟨⟨by decide, by decide, by decide +kernel⟩, rfl⟩⟩
  obtain ⟨o₁, h₁⟩ := hsums
  obtain ⟨o₂, h₂⟩ := hboxes
  obtain ⟨o₃, h₃⟩ := hranges
  refine ⟨⟨o₁, h₁, ?_⟩, ⟨o₂, h₂, ?_⟩, o₃, h₃, ?_⟩
  · exact (splitPage_summaries Binary64 Nat).1 _ _ _ _ hperm (fun _ => rfl) hreports h₁
  · exact (splitPage_summaries Binary64 (Box Binary64)).2.1 _ _ _ _ h₂
  · exact (splitPage_summaries Binary64 (Interval Binary64)).2.2 _ _ _ _ h₃

end QuadIndex
