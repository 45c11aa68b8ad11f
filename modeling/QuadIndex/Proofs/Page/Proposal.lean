import QuadIndex.Page.Column
import QuadIndex.Proofs.Grouping

/-!
# The groups of a column

Whatever is proposed for a column, its split is a partition of the keys: an answer is used only if
it is one, the quartiles are one, and a matching only moves groups.

* `Proposal.fault?_eq_none_iff`: the test of an answer finds exactly the partitions.
* `groupColumn_isPartition`: the split of a column is a partition.
-/

namespace QuadIndex

variable {α κ : Type}

/-! ## Answers -/

/-- **The test passes** if the members are numbers from one to `n` that were not seen before, none
comes twice, and none is missing. -/
theorem firstFault?_eq_none_iff {n : Nat} {seen : List Nat} {members : List (Quadrant × Nat)} :
    firstFault? n seen members = none ↔
      (∀ i ∈ members.map (·.2), (1 ≤ i ∧ i ≤ n) ∧ i ∉ seen) ∧ (members.map (·.2)).Nodup ∧
        ∀ i, 1 ≤ i → i ≤ n → i ∈ seen ∨ i ∈ members.map (·.2) := by
  induction members generalizing seen with
  | nil =>
    rw [firstFault?, Option.map_eq_none_iff, List.find?_eq_none]
    simp only [List.map_nil, List.not_mem_nil, false_imp_iff, implies_true, List.nodup_nil,
      true_and, or_false, List.mem_range'_1, Bool.not_eq_true', List.contains_eq_mem,
      decide_eq_false_iff_not, not_not]
    constructor
    · intro h i h1 h2
      exact h i (by omega)
    · intro h i hi
      exact h i hi.1 (by omega)
  | cons m rest ih =>
    obtain ⟨q, i⟩ := m
    rw [firstFault?, List.map_cons, List.forall_mem_cons, List.nodup_cons]
    split
    · rename_i houtside
      rw [Bool.or_eq_true, decide_eq_true_eq, decide_eq_true_eq] at houtside
      refine iff_of_false (by simp) ?_
      rintro ⟨⟨⟨hin, -⟩, -⟩, -⟩
      omega
    rename_i hinside
    rw [Bool.or_eq_true, decide_eq_true_eq, decide_eq_true_eq] at hinside
    have hi : 1 ≤ i ∧ i ≤ n := by omega
    split
    · rename_i hagain
      refine iff_of_false (by simp) ?_
      rintro ⟨⟨⟨-, hnew⟩, -⟩, -⟩
      exact hnew (by simpa using hagain)
    · rename_i hnew
      rw [ih]
      -- from here on the first member counts as seen
      constructor
      · rintro ⟨hrest, hnodup, hcover⟩
        refine ⟨⟨⟨hi, by simpa using hnew⟩, fun j hj => ?_⟩, ⟨?_, hnodup⟩, fun j h1 h2 => ?_⟩
        · exact ⟨(hrest j hj).1, fun hs => (hrest j hj).2 (List.mem_cons_of_mem _ hs)⟩
        · intro hmem
          exact (hrest i hmem).2 List.mem_cons_self
        · rcases hcover j h1 h2 with hj | hj
          · rcases List.mem_cons.1 hj with rfl | hj
            · exact Or.inr List.mem_cons_self
            · exact Or.inl hj
          · exact Or.inr (List.mem_cons_of_mem _ hj)
      · rintro ⟨⟨-, hrest⟩, ⟨hfresh, hnodup⟩, hcover⟩
        refine ⟨fun j hj => ⟨(hrest j hj).1, ?_⟩, hnodup, fun j h1 h2 => ?_⟩
        · intro hs
          rcases List.mem_cons.1 hs with rfl | hs
          · exact hfresh hj
          · exact (hrest j hj).2 hs
        · rcases hcover j h1 h2 with hj | hj
          · exact Or.inl (List.mem_cons_of_mem _ hj)
          · rcases List.mem_cons.1 hj with rfl | hj
            · exact Or.inl List.mem_cons_self
            · exact Or.inr hj

theorem Proposal.map_snd_members (a : Proposal κ) : a.members.map (·.2) = a.groups.members := by
  simp [members, Quadrants.members, Quadrants.pairs, Quadrant.all]

/-- **An answer passes the test if it is a partition** of the numbers from one to `n`. -/
theorem Proposal.fault?_eq_none_iff {n : Nat} {a : Proposal κ} :
    a.fault? n = none ↔ a.groups.members.Perm (List.range' 1 n) := by
  rw [fault?, firstFault?_eq_none_iff, map_snd_members]
  constructor
  · rintro ⟨hin, hnodup, hcover⟩
    refine (List.perm_ext_iff_of_nodup hnodup List.nodup_range').2 fun i => ?_
    rw [List.mem_range'_1]
    constructor
    · intro hi
      have := (hin i hi).1
      omega
    · rintro ⟨h1, h2⟩
      exact (hcover i h1 (by omega)).resolve_left List.not_mem_nil
  · intro hperm
    refine ⟨fun i hi => ⟨?_, List.not_mem_nil⟩, hperm.nodup_iff.2 List.nodup_range', ?_⟩
    · have := List.mem_range'_1.1 (hperm.mem_iff.1 hi)
      omega
    · intro i h1 h2
      exact Or.inr (hperm.mem_iff.2 (List.mem_range'_1.2 (by omega)))

/-! ## Quartiles -/

/-- **The quartiles are a partition.** -/
theorem quartiles_isPartition (n : Nat) : (quartiles n).IsPartition n := by
  -- each run starts where the one before it ends
  have hjoin : ∀ {a b c : Nat}, a ≤ b → b ≤ c →
      List.range' a (b - a) ++ List.range' b (c - b) = List.range' a (c - a) := by
    intro a b c hab hbc
    have happend := List.range'_append_1 (s := a) (m := b - a) (n := c - b)
    rwa [show a + (b - a) = b by omega, show b - a + (c - b) = c - a by omega] at happend
  have hmembers : (quartiles n).members = List.range' (0 * n / 4) (4 * n / 4 - 0 * n / 4) := by
    simp only [Quadrants.members, quartiles, Quadrants.get_ofFn, Quadrant.all, Quadrant.code,
      List.flatMap_cons, List.flatMap_nil, List.append_nil, Nat.reduceAdd]
    rw [hjoin (b := 3 * n / 4) (by omega) (by omega), hjoin (b := 2 * n / 4) (by omega) (by omega),
      hjoin (b := 1 * n / 4) (by omega) (by omega)]
  unfold Quadrants.IsPartition
  rw [hmembers, List.range_eq_range', show 0 * n / 4 = 0 by omega, show 4 * n / 4 - 0 = n by omega]

example : quartiles 6 = ⟨[0], [1, 2], [3], [4, 5]⟩ := by decide

/-- Numbers from one are positions moved on by one. -/
theorem Quadrants.IsPartition.numbers {n : Nat} {groups : Quadrants (List Nat)}
    (h : groups.IsPartition n) : (groups.map fun g => g.map (· + 1)).members.Perm
      (List.range' 1 n) := by
  rw [members_map_map]
  refine (h.map _).trans (List.Perm.of_eq ?_)
  rw [List.range'_eq_map_range]
  exact List.map_congr_left fun i _ => Nat.add_comm i 1

theorem Quadrants.isPartition_of_numbers {n : Nat} {groups : Quadrants (List Nat)}
    (h : groups.members.Perm (List.range' 1 n)) :
    (groups.map fun g => g.map (· - 1)).IsPartition n := by
  unfold IsPartition
  rw [members_map_map]
  refine (h.map _).trans (List.Perm.of_eq ?_)
  rw [List.map_sub_range' (by omega), List.range_eq_range']

variable (s : KeyOps α κ)

/-- The answer to use is the given one, closed, if that passes the test, or else the quartiles. -/
theorem acceptedProposal_cases (column : Nat) (keys : List κ) (given : Proposal κ) :
    (acceptedProposal s column keys given).value = quartileProposal s column keys ∨
      ((given.close keys.length).fault? keys.length = none ∧
        (acceptedProposal s column keys given).value = given.close keys.length) := by
  unfold acceptedProposal
  simp only
  split
  · exact Or.inl rfl
  · rename_i hnone
    split
    · exact Or.inl rfl
    · exact Or.inr ⟨hnone, rfl⟩

/-- **The answer to use is a partition**, whatever was proposed. -/
theorem acceptedProposal_perm (column : Nat) (keys : List κ) (given : Proposal κ) :
    (acceptedProposal s column keys given).value.groups.members.Perm
      (List.range' 1 keys.length) := by
  rcases acceptedProposal_cases s column keys given with hvalue | ⟨hnone, hvalue⟩
  · rw [hvalue]
    exact (quartiles_isPartition keys.length).numbers
  · rw [hvalue]
    exact Proposal.fault?_eq_none_iff.1 hnone

variable {s} in
/-- The quartiles come with all their summaries. -/
theorem get_quartileProposal {column : Nat} {keys : List κ} (q : Quadrant) :
    (quartileProposal s column keys).summaries.get q =
      s.hull column (keysAt keys ((quartileProposal s column keys).groups.get q)) :=
  Quadrants.get_map _ _ q

variable {s} in
/-- The summaries of an answer, with those that it leaves open. -/
theorem get_fillSummaries {column : Nat} {keys : List κ} (a : Proposal κ) (q : Quadrant) :
    (fillSummaries s column keys a).summaries.get q =
      (a.summaries.get q).or (s.hull column (keysAt keys (a.groups.get q))) := by
  rw [fillSummaries, Quadrants.get_mapWith, KeyOps.summariesOf, Quadrants.get_map]

/-! ## Matchings -/

theorem Matching.toList_perm {m : Matching} (h : m ∈ identity :: all) :
    m.toList.Perm Quadrant.all := by
  have hall : ∀ m ∈ identity :: all, m.toList.Perm Quadrant.all := by decide
  exact hall m h

variable [Scalar α]

/-- The best matching is one of those tried. -/
theorem bestMatching_mem (column : Nat) (prior new : Quadrants (Option κ)) :
    bestMatching s column prior new ∈ Matching.identity :: Matching.all := by
  have hfold : ∀ (better : Matching → Matching → Prop) [DecidableRel better] (ms : List Matching)
      (best : Matching),
      ms.foldl (fun best m => if better m best then m else best) best ∈ best :: ms := by
    intro better _ ms
    induction ms with
    | nil => intro best; exact List.mem_cons_self
    | cons m ms ih =>
      intro best
      rw [List.foldl_cons]
      rcases List.mem_cons.1 (ih (if better m best then m else best)) with heq | hmem
      · rw [heq]
        split
        · exact List.mem_cons_of_mem _ List.mem_cons_self
        · exact List.mem_cons_self
      · exact List.mem_cons_of_mem _ (List.mem_cons_of_mem _ hmem)
  exact hfold (fun m best =>
    matchingCost s column prior new m < matchingCost s column prior new best) _ _

/-- **A matching moves groups**, and loses none. -/
theorem rematch_perm (column : Nat) (prior : Quadrants (Option κ)) (a : Proposal κ) :
    (rematch s column prior a).value.groups.members.Perm a.groups.members := by
  have hbest := Matching.toList_perm (bestMatching_mem s column prior a.summaries)
  have hmoved := hbest.flatMap_right a.groups.get
  rw [Quadrants.toList, List.flatMap_map] at hmoved
  unfold Quadrants.members rematch
  rw [Quadrants.get_ofFn]
  exact hmoved

/-- **The split of a column is a partition** of the keys. -/
theorem groupColumn_isPartition (config : PageConfig) (asked column : Nat) (keys : List κ)
    (prior : Quadrants (Option κ)) :
    (groupColumn s config asked column keys prior).value.groups.IsPartition keys.length := by
  have haccepted := acceptedProposal_perm s column keys (s.propose asked column keys prior)
  refine Quadrants.isPartition_of_numbers ?_
  split
  · exact (rematch_perm s column prior _).trans haccepted
  · exact haccepted

end QuadIndex
