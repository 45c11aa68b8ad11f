import QuadIndex.Quadrant

/-!
# Grouping a list by quadrant

A function from the members of a list to quadrants cuts the list into four groups, each in the
order of the list.

* `groupBy`: the members of each group.
* `positionsBy`: their positions, counted from zero.
* `length_groupBy_lt`: a group is shorter than the list if some member is in another group.
-/

namespace QuadIndex.Quadrants

variable {β : Type}

/-- The members of a list, by quadrant. -/
def groupBy (f : β → Quadrant) (xs : List β) : Quadrants (List β) :=
  ofFn fun q => xs.filter fun x => f x = q

/-- The positions of the members of a list, by quadrant. -/
def positionsBy (f : β → Quadrant) (xs : List β) : Quadrants (List Nat) :=
  (groupBy (fun x : β × Nat => f x.1) xs.zipIdx).map fun g => g.map (·.2)

/-- No more than one group has members. -/
def isConcentrated (groups : Quadrants (List β)) : Bool :=
  groups.toList.countP (fun g => !g.isEmpty) ≤ 1

/-- The members of a list dealt to the quadrants in turn. -/
def dealInTurn (xs : List β) : Quadrants (List β) :=
  (ofFn fun q => xs.zipIdx.filter fun x => x.2 % 4 = q.code).map fun g => g.map (·.1)

@[simp] theorem get_groupBy (f : β → Quadrant) (xs : List β) (q : Quadrant) :
    (groupBy f xs).get q = xs.filter fun x => f x = q := by simp [groupBy]

theorem length_groupBy_lt {f : β → Quadrant} {xs : List β} {x : β} {q : Quadrant} (hx : x ∈ xs)
    (hq : f x ≠ q) : ((groupBy f xs).get q).length < xs.length := by
  rw [get_groupBy]
  refine Nat.lt_of_le_of_ne (List.length_filter_le _ _) fun h => hq ?_
  simpa using List.length_filter_eq_length_iff.1 h x hx

theorem length_positionsBy (f : β → Quadrant) (xs : List β) (q : Quadrant) :
    ((positionsBy f xs).get q).length = ((groupBy f xs).get q).length := by
  simp only [positionsBy, get_map, get_groupBy, List.length_map]
  rw [← List.countP_eq_length_filter, ← List.countP_eq_length_filter]
  conv => rhs; rw [← List.zipIdx_map_fst 0 xs, List.countP_map]
  rfl

/-- Whether groups are concentrated depends on their lengths only. -/
theorem isConcentrated_congr {γ : Type} {g : Quadrants (List β)} {h : Quadrants (List γ)}
    (hlen : ∀ q, (g.get q).length = (h.get q).length) : isConcentrated g = isConcentrated h := by
  have hnil : ∀ q, (g.get q).isEmpty = (h.get q).isEmpty := by
    intro q
    rw [Bool.eq_iff_iff, List.isEmpty_iff_length_eq_zero, List.isEmpty_iff_length_eq_zero, hlen q]
  simp only [isConcentrated, toList, Quadrant.all, List.map_cons, List.map_nil, List.countP_cons,
    List.countP_nil, hnil]

theorem length_groupBy_le (f : β → Quadrant) (xs : List β) (q : Quadrant) :
    ((groupBy f xs).get q).length ≤ xs.length := by
  rw [get_groupBy]; exact List.length_filter_le _ _

/-- If more than one group has members, then each leaves some to the others. -/
theorem length_groupBy_lt_of_spread {f : β → Quadrant} {xs : List β}
    (h : isConcentrated (positionsBy f xs) = false) (q : Quadrant) :
    ((groupBy f xs).get q).length < xs.length := by
  have hne : ∃ x ∈ xs, f x ≠ q := by
    refine Classical.byContradiction fun hn => ?_
    have hall : ∀ x ∈ xs, f x = q := fun x hx =>
      Classical.byContradiction fun hq => hn ⟨x, hx, hq⟩
    have hempty : ∀ p, p ≠ q → (positionsBy f xs).get p = [] := by
      intro p hp
      rw [← List.length_eq_zero_iff, length_positionsBy, get_groupBy, List.length_eq_zero_iff,
        List.filter_eq_nil_iff]
      intro x hx
      simp only [decide_eq_true_eq, hall x hx]
      exact fun e => hp e.symm
    simp only [isConcentrated, decide_eq_false_iff_not, toList, Quadrant.all, List.map_cons,
      List.map_nil, List.countP_cons, List.countP_nil] at h
    apply h
    cases q <;> simp [hempty] <;> split <;> omega
  obtain ⟨x, hx, hq⟩ := hne
  exact length_groupBy_lt hx hq

theorem length_dealInTurn_le (xs : List β) (q : Quadrant) :
    ((dealInTurn xs).get q).length ≤ xs.length := by
  simp only [dealInTurn, get_map, get_ofFn, List.length_map]
  exact Nat.le_trans (List.length_filter_le _ _) (Nat.le_of_eq List.length_zipIdx)

/-- Of two or more members dealt in turn, no quadrant gets all. -/
theorem length_dealInTurn_lt {xs : List β} (h : 1 < xs.length) (q : Quadrant) :
    ((dealInTurn xs).get q).length < xs.length := by
  simp only [dealInTurn, get_map, get_ofFn, List.length_map]
  have hlt : (xs.zipIdx.filter fun x => x.2 % 4 = q.code).length < xs.zipIdx.length := by
    refine Nat.lt_of_le_of_ne (List.length_filter_le _ _) fun he => ?_
    have hall := List.length_filter_eq_length_iff.1 he
    have h0 := hall (xs[0], 0) (List.mk_mem_zipIdx_iff_getElem?.2 (by simp))
    have h1 := hall (xs[1], 1) (List.mk_mem_zipIdx_iff_getElem?.2 (by simp))
    simp only [decide_eq_true_eq] at h0 h1
    omega
  simpa using hlt

end QuadIndex.Quadrants
