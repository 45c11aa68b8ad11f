import Mathlib.Data.List.Nodup
import Mathlib.Data.List.Pairwise
import Mathlib.Data.List.Perm.Basic
import Mathlib.Tactic.IntervalCases
import QuadIndex.Grouping

/-!
# Groups as a partition

Four groups cut a list without loss if their members, quadrant after quadrant, are the list in
another order.

* `Quadrant.flatMap_all_cons`: one group gains a member.
* `Quadrants.groupBy_perm`, `Quadrants.positionsBy_isPartition`, `Quadrants.dealInTurn_perm`: the
  ways to group a list lose nothing.
* `Quadrants.IsPartition`: four groups hold each position below `n` once.
* `Quadrants.mem_get_positionsBy`, `Quadrants.positionsBy_pairwise`: the positions in a group.
-/

namespace QuadIndex

variable {β γ : Type}

theorem Quadrant.code_lt (q : Quadrant) : q.code < 4 := by cases q <;> decide

theorem Quadrant.code_injective : Function.Injective Quadrant.code := by
  intro p q h
  cases p <;> cases q <;> first | rfl | cases h

/-- If one group gains a member and the others stay, then so do all groups together. -/
theorem Quadrant.flatMap_all_cons {f g : Quadrant → List β} {x : β} {q : Quadrant}
    (hq : (g q).Perm (x :: f q)) (hne : ∀ p, p ≠ q → g p = f p) :
    (Quadrant.all.flatMap g).Perm (x :: Quadrant.all.flatMap f) := by
  have hone : Quadrant.all.flatMap (fun p => if p = q then [x] else []) = [x] := by
    cases q <;> rfl
  -- every group is the old one after the new member, or after nothing
  have hall : ∀ p ∈ Quadrant.all, (g p).Perm ((if p = q then [x] else []) ++ f p) := by
    intro p _
    by_cases h : p = q
    · subst h
      rw [if_pos rfl]
      exact hq
    · rw [if_neg h, hne p h, List.nil_append]
  refine (List.Perm.flatMap_left _ hall).trans ?_
  refine (List.flatMap_append_perm _ _ _).symm.trans ?_
  rw [hone, List.singleton_append]

/-- The members that a function sends to each quadrant are all members. -/
theorem Quadrant.flatMap_all_filter (f : β → Quadrant) (xs : List β) :
    (Quadrant.all.flatMap fun q => xs.filter fun x => f x = q).Perm xs := by
  induction xs with
  | nil => simp [Quadrant.all]
  | cons x xs ih =>
    refine List.Perm.trans ?_ (ih.cons x)
    refine flatMap_all_cons (q := f x) ?_ ?_
    · rw [List.filter_cons_of_pos (by simp)]
    · intro p hp
      rw [List.filter_cons_of_neg (by simpa using Ne.symm hp)]

namespace Quadrants

/-- The members of four groups, quadrant after quadrant. -/
def members (groups : Quadrants (List β)) : List β := Quadrant.all.flatMap groups.get

theorem mem_members {groups : Quadrants (List β)} {x : β} :
    x ∈ groups.members ↔ ∃ q, x ∈ groups.get q := by
  simp [members]

theorem members_map (f : List β → List γ) (groups : Quadrants (List β)) :
    (groups.map f).members = Quadrant.all.flatMap fun q => f (groups.get q) := by
  simp [members, Quadrant.all]

theorem members_map_map (f : β → γ) (groups : Quadrants (List β)) :
    (groups.map fun g => g.map f).members = groups.members.map f := by
  rw [members_map, members, List.map_flatMap]

theorem members_map_filter (p : β → Bool) (groups : Quadrants (List β)) :
    (groups.map fun g => g.filter p).members = groups.members.filter p := by
  rw [members_map, members, List.filter_flatMap]

theorem members_map_filterMap (f : β → Option γ) (groups : Quadrants (List β)) :
    (groups.map fun g => g.filterMap f).members = groups.members.filterMap f := by
  rw [members_map, members, List.filterMap_flatMap]

/-- Groups can be put in order one by one. -/
theorem members_map_perm {f : List β → List β} (hf : ∀ g, (f g).Perm g)
    (groups : Quadrants (List β)) : (groups.map f).members.Perm groups.members := by
  rw [members_map]
  exact List.Perm.flatMap_left _ fun q _ => hf (groups.get q)

/-- Groups can be joined one by one. -/
theorem members_join_perm (groups more : Quadrants (List β)) :
    (groups.mapWith fun q g => g ++ more.get q).members.Perm (groups.members ++ more.members) := by
  have hget : (groups.mapWith fun q g => g ++ more.get q).get =
      fun q => groups.get q ++ more.get q := by
    funext q
    rw [get_mapWith]
  rw [members, hget]
  exact (List.flatMap_append_perm _ _ _).symm

theorem members_add_perm (groups : Quadrants (List β)) (q : Quadrant) (x : β) :
    (groups.set q (groups.get q ++ [x])).members.Perm (x :: groups.members) := by
  refine Quadrant.flatMap_all_cons (q := q) ?_ ?_
  · rw [get_set, if_pos rfl]
    exact List.perm_append_singleton x _
  · intro p hp
    rw [get_set, if_neg hp]

theorem length_members (groups : Quadrants (List β)) :
    groups.members.length = (groups.map List.length).total := by
  simp [members, Quadrant.all, total, map, mapWith, ofFn, Nat.add_assoc]

/-- Two groups share no member if no member occurs twice. -/
theorem get_disjoint {groups : Quadrants (List β)} (h : groups.members.Nodup) {p q : Quadrant}
    (hpq : p ≠ q) {x : β} (hp : x ∈ groups.get p) : x ∉ groups.get q := by
  have hdisjoint := (List.nodup_flatMap.1 h).2
  have hsymm : Std.Symm (Function.onFun List.Disjoint groups.get) :=
    ⟨fun _ _ hd _ hx hy => hd hy hx⟩
  exact hdisjoint.forall (Quadrant.mem_all p) (Quadrant.mem_all q) hpq hp

theorem get_nodup {groups : Quadrants (List β)} (h : groups.members.Nodup) (q : Quadrant) :
    (groups.get q).Nodup := (List.nodup_flatMap.1 h).1 q (Quadrant.mem_all q)

/-- Sorted groups of numbers that occur once each ascend. -/
theorem get_ascending {groups : Quadrants (List Nat)} (h : groups.members.Nodup) {q : Quadrant}
    (hsorted : (groups.get q).Pairwise (· ≤ ·)) : (groups.get q).Pairwise (· < ·) := by
  refine (hsorted.and (get_nodup h q)).imp fun hij => ?_
  exact Nat.lt_of_le_of_ne hij.1 hij.2

/-- Of groups that share no member, the first found with a member is the one that has it. -/
theorem find?_eq_some_iff [DecidableEq β] {groups : Quadrants (List β)}
    (h : groups.members.Nodup) {x : β} {q : Quadrant} :
    (Quadrant.all.reverse.find? fun q => (groups.get q).contains x) = some q ↔
      x ∈ groups.get q := by
  constructor
  · intro hfind
    have hq := List.find?_some hfind
    exact List.contains_iff_mem.1 hq
  · intro hx
    cases hfind : Quadrant.all.reverse.find? fun q => (groups.get q).contains x with
    | none =>
      rw [List.find?_eq_none] at hfind
      exact absurd (List.contains_iff_mem.2 hx)
        (hfind q (List.mem_reverse.2 (Quadrant.mem_all q)))
    | some r =>
      have hr := List.find?_some hfind
      by_contra hne
      exact get_disjoint h (fun hrq => hne (congrArg some hrq)) (List.contains_iff_mem.1 hr) hx

theorem groupBy_perm (f : β → Quadrant) (xs : List β) : (groupBy f xs).members.Perm xs := by
  have hget : (groupBy f xs).get = fun q => xs.filter fun x => f x = q := by
    funext q
    exact get_groupBy f xs q
  rw [members, hget]
  exact Quadrant.flatMap_all_filter f xs

theorem dealInTurn_perm (xs : List β) : (dealInTurn xs).members.Perm xs := by
  have hcode : ∀ (i : Nat) (q : Quadrant),
      ((Quadrant.ofCode? (i % 4)).getD .northWest = q) = (i % 4 = q.code) := by
    intro i q
    have hlt : i % 4 < 4 := Nat.mod_lt _ (by decide)
    interval_cases h : i % 4 <;> cases q <;> simp [Quadrant.ofCode?, Quadrant.code]
  -- dealing in turn is grouping by position
  have hdeal := Quadrant.flatMap_all_filter
    (fun x : β × Nat => (Quadrant.ofCode? (x.2 % 4)).getD .northWest) xs.zipIdx
  simp only [hcode] at hdeal
  unfold dealInTurn
  rw [members_map_map]
  refine (List.Perm.map _ ?_).trans (List.Perm.of_eq (List.zipIdx_map_fst 0 xs))
  rw [members, get_ofFn]
  exact hdeal

/-- The four groups hold each position below `n` once, and nothing else. -/
def IsPartition (n : Nat) (groups : Quadrants (List Nat)) : Prop :=
  groups.members.Perm (List.range n)

theorem positionsBy_isPartition (f : β → Quadrant) (xs : List β) :
    (positionsBy f xs).IsPartition xs.length := by
  unfold IsPartition positionsBy
  rw [members_map_map]
  refine ((groupBy_perm _ _).map _).trans (List.Perm.of_eq ?_)
  rw [List.zipIdx_map_snd, List.range_eq_range']

theorem mem_get_positionsBy {f : β → Quadrant} {xs : List β} {q : Quadrant} {i : Nat} :
    i ∈ (positionsBy f xs).get q ↔ ∃ x, xs[i]? = some x ∧ f x = q := by
  simp only [positionsBy, get_map, get_groupBy, List.mem_map, List.mem_filter, decide_eq_true_eq]
  constructor
  · rintro ⟨⟨x, j⟩, ⟨hx, hq⟩, rfl⟩
    exact ⟨x, List.mk_mem_zipIdx_iff_getElem?.1 hx, hq⟩
  · rintro ⟨x, hx, hq⟩
    exact ⟨(x, i), ⟨List.mk_mem_zipIdx_iff_getElem?.2 hx, hq⟩, rfl⟩

/-- Positions stand in increasing order. -/
theorem positionsBy_pairwise (f : β → Quadrant) (xs : List β) (q : Quadrant) :
    ((positionsBy f xs).get q).Pairwise (· < ·) := by
  have hall : (xs.zipIdx.map (·.2)).Pairwise (· < ·) := by
    rw [List.zipIdx_map_snd]
    exact List.pairwise_lt_range'
  rw [positionsBy, get_map, get_groupBy]
  exact hall.sublist (List.filter_sublist.map _)

end Quadrants
end QuadIndex
