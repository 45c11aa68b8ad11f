import QuadIndex.Proofs.Page.HandOn

/-!
# What becomes of an answer

An answer for a column can be anything. If it is a partition of the keys into four groups that have
members, it is used as it is, with the summaries that it leaves open filled in. Otherwise nothing of
it is used: the quartiles of the keys take its place, and a warning says why.

* `Fault.IsIn`, `firstFault?_isIn`: a fault that is reported is there.
* `IsKept`, `IsReplaced`: the two things that can become of an answer.
* `groupColumn_answered`: which of them, for every answer.
-/

namespace QuadIndex

variable {α κ : Type}

/-! ## Faults -/

/-- **A fault of some members of groups**, as a partition of the numbers from one to `n`. -/
inductive Fault.IsIn (n : Nat) (members : List (Quadrant × Nat)) : Fault → Prop where
  | outside {i : Nat} {q : Quadrant} (hmem : (q, i) ∈ members) (hout : i < 1 ∨ n < i) :
    IsIn n members (.outside i q n)
  | twice {i : Nat} (hcount : 2 ≤ (members.map (·.2)).count i) : IsIn n members (.twice i)
  | missing {i : Nat} (hpos : 1 ≤ i) (hle : i ≤ n) (hmem : i ∉ members.map (·.2)) :
    IsIn n members (.missing i)

/-- **A fault that is reported is there**, among the members that were seen before or those that
were still to be seen. -/
theorem firstFault?_isIn {n : Nat} {seen : List Nat} (before : List (Quadrant × Nat))
    {members : List (Quadrant × Nat)} {fault : Fault}
    (hseen : ∀ i, i ∈ seen ↔ i ∈ before.map (·.2))
    (h : firstFault? n seen members = some fault) : fault.IsIn n (before ++ members) := by
  induction members generalizing seen before with
  | nil =>
    rw [firstFault?, Option.map_eq_some_iff] at h
    obtain ⟨i, hi, rfl⟩ := h
    have hrange := List.mem_range'_1.1 (List.mem_of_find?_eq_some hi)
    have hnew := List.find?_some hi
    rw [List.append_nil]
    refine .missing hrange.1 (by omega) fun hmem => ?_
    simp [(hseen i).2 hmem] at hnew
  | cons m rest ih =>
    obtain ⟨q, i⟩ := m
    rw [firstFault?] at h
    split at h
    · rename_i hout
      cases h
      exact .outside (by simp) (by simpa using hout)
    split at h
    · rename_i hagain
      cases h
      have hbefore : i ∈ before.map (·.2) := (hseen i).1 (List.contains_iff_mem.1 hagain)
      have hcount := List.count_pos_iff.2 hbefore
      refine .twice ?_
      rw [List.map_append, List.count_append, List.map_cons, List.count_cons_self]
      omega
    · -- the member counts as seen from here on
      have hseen' : ∀ j, j ∈ i :: seen ↔ j ∈ (before ++ [(q, i)]).map (·.2) := by
        intro j
        rw [List.mem_cons, hseen, List.map_append, List.mem_append, List.map_singleton,
          List.mem_singleton, or_comm]
      have hrest := ih (before ++ [(q, i)]) hseen' h
      rwa [List.append_assoc, List.singleton_append] at hrest

/-! ## Answers -/

/-- **How a group ends**: a zero at its end stands for the last of the `n` keys. -/
inductive Closes (n : Nat) : (given closed : List Nat) → Prop where
  | open (init : List Nat) : Closes n (init ++ [0]) (init ++ [n])
  | closed (g : List Nat) (h : g.getLast? ≠ some 0) : Closes n g g

theorem closes_closeGroup (n : Nat) (g : List Nat) : Closes n g (Proposal.closeGroup n g) := by
  unfold Proposal.closeGroup
  split
  · rename_i hlast
    obtain ⟨init, rfl⟩ := List.getLast?_eq_some_iff.1 hlast
    rw [List.dropLast_concat]
    exact .open init
  · rename_i hlast
    exact .closed g hlast

variable (s : KeyOps α κ)

/-- **An answer that is used**: the groups are its own, numbered from one, and so are the summaries
as far as it gives them. -/
structure IsKept (column : Nat) (keys : List κ) (numbers : Quadrants (List Nat))
    (given : Quadrants (Option κ)) (t : Traced (ColumnGroups κ)) : Prop where
  groups : ∀ q, (t.value.groups.get q).map (· + 1) = numbers.get q
  summaries : ∀ q u, given.get q = some u → t.value.summaries.get q = some u
  filled : ∀ q, given.get q = none →
    t.value.summaries.get q = s.hull column ((t.value.groups.get q).filterMap (keys[·]?))
  events : t.events = []

/-- **An answer that is not used**: the groups are the four runs of the keys in their order, of
nearly equal length, and the summaries are those of the runs. -/
structure IsReplaced (column : Nat) (keys : List κ) (warning : Event)
    (t : Traced (ColumnGroups κ)) : Prop where
  ascending : ∀ q, (t.value.groups.get q).Pairwise (· < ·)
  mem_iff : ∀ q i, i ∈ t.value.groups.get q ↔
    q.code * keys.length / 4 ≤ i ∧ i < (q.code + 1) * keys.length / 4
  summaries : ∀ q,
    t.value.summaries.get q = s.hull column ((t.value.groups.get q).filterMap (keys[·]?))
  events : t.events = [warning]

/-- **What becomes of an answer**, whose closed groups are `numbers` and whose summaries are
`given`. -/
inductive Answered (column : Nat) (keys : List κ) (numbers : Quadrants (List Nat))
    (given : Quadrants (Option κ)) (t : Traced (ColumnGroups κ)) : Prop where
  | kept (hpartition : numbers.members.Perm (List.range' 1 keys.length))
    (hfilled : ∀ q, numbers.get q ≠ []) (h : IsKept s column keys numbers given t)
  | emptyGroup (hpartition : numbers.members.Perm (List.range' 1 keys.length))
    (hempty : ∃ q, numbers.get q = [])
    (h : IsReplaced s column keys (.emptyGroup column (numbers.map List.length)) t)
  | badProposal (hpartition : ¬ numbers.members.Perm (List.range' 1 keys.length)) (fault : Fault)
    (hfault : fault.IsIn keys.length (numbers.pairs.flatMap fun g => g.2.map fun i => (g.1, i)))
    (h : IsReplaced s column keys (.badProposal column fault.text) t)

variable {s} {column : Nat} {keys : List κ}

theorem keysAt_map_succ (positions : List Nat) :
    keysAt keys (positions.map (· + 1)) = positions.filterMap (keys[·]?) := by
  rw [keysAt, List.filterMap_map]
  rfl

/-- The quartiles are used alike whatever the answer was. -/
theorem isReplaced_quartileProposal {warning : Event} {t : Traced (ColumnGroups κ)}
    (hgroups : t.value.groups =
      (quartileProposal s column keys).groups.map fun g => g.map (· - 1))
    (hsummaries : t.value.summaries =
      (fillSummaries s column keys (quartileProposal s column keys)).summaries)
    (hevents : t.events = [warning]) : IsReplaced s column keys warning t := by
  have hnumbers : ∀ q, (quartileProposal s column keys).groups.get q =
      ((quartiles keys.length).get q).map (· + 1) := Quadrants.get_map _ _
  have hrun : ∀ q, t.value.groups.get q = (quartiles keys.length).get q := by
    intro q
    rw [hgroups, Quadrants.get_map, hnumbers, List.map_map]
    exact List.map_id'' (fun i => Nat.add_sub_cancel i 1) _
  constructor
  case ascending =>
    intro q
    rw [hrun, quartiles, Quadrants.get_ofFn]
    exact List.pairwise_lt_range'
  case mem_iff =>
    intro q i
    rw [hrun, quartiles, Quadrants.get_ofFn, List.mem_range'_1]
    have hle : q.code * keys.length / 4 ≤ (q.code + 1) * keys.length / 4 :=
      Nat.div_le_div_right (Nat.mul_le_mul_right _ (Nat.le_succ _))
    omega
  case summaries =>
    intro q
    rw [hsummaries, get_fillSummaries, get_quartileProposal, Option.or_self, hnumbers,
      keysAt_map_succ, hrun]
  case events => exact hevents

/-- An answer that is a partition is used as it is, with the summaries that it leaves open filled
in. -/
theorem isKept_of_perm {a : Proposal κ}
    (hperm : a.groups.members.Perm (List.range' 1 keys.length)) :
    IsKept s column keys a.groups a.summaries
      ⟨⟨a.groups.map fun g => g.map (· - 1), (fillSummaries s column keys a).summaries⟩, []⟩ := by
  have hpos : ∀ q, ∀ i ∈ a.groups.get q, 1 ≤ i := fun q i hi =>
    (List.mem_range'_1.1 (hperm.mem_iff.1 (Quadrants.mem_members.2 ⟨q, hi⟩))).1
  constructor
  case groups =>
    intro q
    rw [Quadrants.get_map, List.map_map]
    refine (List.map_congr_left fun i hi => ?_).trans (List.map_id _)
    exact Nat.sub_add_cancel (hpos q i hi)
  case summaries =>
    intro q u hu
    rw [get_fillSummaries, hu, Option.some_or]
  case filled =>
    intro q hnone
    rw [get_fillSummaries, hnone, Option.none_or, keysAt_eq (hpos q), Quadrants.get_map]
  case events => rfl

variable [Scalar α]

variable (s) (column) (keys)

/-- **What becomes of an answer** for a column without earlier entries, whatever it is: it is used
if its groups, closed, are a partition of the keys and all have members, and otherwise replaced. -/
theorem groupColumn_answered (config : PageConfig) (asked : Nat) :
    let given := s.propose asked column keys noPrior
    ∃ numbers, (∀ q, Closes keys.length (given.groups.get q) (numbers.get q)) ∧
      Answered s column keys numbers given.summaries
        (groupColumn s config asked column keys noPrior) := by
  intro given
  refine ⟨(given.close keys.length).groups, fun q => ?_, ?_⟩
  · rw [Proposal.close, Quadrants.get_map]
    exact closes_closeGroup _ _
  rw [groupColumn_noPrior]
  change Answered s column keys _ _ ⟨⟨(acceptedProposal s column keys given).value.groups.map _,
    _⟩, (acceptedProposal s column keys given).events⟩
  cases hfault : (given.close keys.length).fault? keys.length with
  | some fault =>
    have haccepted : acceptedProposal s column keys given =
        ⟨quartileProposal s column keys, [.badProposal column fault.text]⟩ := by
      simp only [acceptedProposal, hfault]
    have hperm : ¬ (given.close keys.length).groups.members.Perm (List.range' 1 keys.length) := by
      rw [← Proposal.fault?_eq_none_iff, hfault]
      exact Option.some_ne_none fault
    rw [haccepted]
    exact .badProposal hperm fault (firstFault?_isIn [] (by simp) hfault)
      (isReplaced_quartileProposal rfl rfl rfl)
  | none =>
    have hperm := Proposal.fault?_eq_none_iff.1 hfault
    by_cases hempty : (given.close keys.length).hasEmptyGroup = true
    · have haccepted : acceptedProposal s column keys given = ⟨quartileProposal s column keys,
          [.emptyGroup column (given.close keys.length).groups.sizes]⟩ := by
        simp only [acceptedProposal, hfault, hempty, if_true]
      rw [haccepted]
      exact .emptyGroup hperm (Quadrants.any_isEmpty_iff.1 hempty)
        (isReplaced_quartileProposal rfl rfl rfl)
    · have haccepted : acceptedProposal s column keys given =
          .silent (given.close keys.length) := by
        simp only [acceptedProposal, hfault, hempty, Bool.false_eq_true, if_false]
      have hfilled : ∀ q, (given.close keys.length).groups.get q ≠ [] := fun q hq =>
        hempty (Quadrants.any_isEmpty_iff.2 ⟨q, hq⟩)
      rw [haccepted]
      exact .kept hperm hfilled (isKept_of_perm hperm)

end QuadIndex
