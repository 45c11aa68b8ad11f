import QuadIndex.Proofs.Binary64Order
import QuadIndex.Proofs.Page.Summaries

/-!
# Ranges in the order of their midpoints

Ranges are dealt to the quadrants in the order of their midpoints. Each goes where the one before it
went or to the quadrant after that, and in the latter case their midpoints differ. So wherever the
quadrant changes on the way, all midpoints after the change are above all before it, also where the
order puts one zero after the other. Without ties, the quadrant of a range is the quartile in which
it stands.

* `Quadrant.moveOn_cases`: one range.
* `dealByMidpoint_pairwise`: ranges that are dealt to different quadrants.
* `countP_dealByMidpoint`: how many ranges a quadrant is dealt, if there are no ties.
* `rangeKeys_cutsByMidpoint`: the suggested groups.
-/

namespace QuadIndex

variable {α : Type} [Scalar α]

/-! ## One range -/

/-- The quadrant of the member with midpoint `mid` at position `i` of `n`, where `q` is that of the
member before it. -/
def Quadrant.moveOn (q : Quadrant) (n i : Nat) (last : Option α) (mid : α) : Quadrant :=
  if (q.code + 1) * n / 4 ≤ i && !last.any (· == mid) then q.next else q

theorem dealByMidpoint_cons (n i : Nat) (q : Quadrant) (last : Option α) (mid : α) (number : Nat)
    (rest : List (α × Nat)) :
    dealByMidpoint n i q last ((mid, number) :: rest) =
      (q.moveOn n i last mid, number) ::
        dealByMidpoint n (i + 1) (q.moveOn n i last mid) (some mid) rest := rfl

theorem Quadrant.next_cases (q : Quadrant) :
    q.next = q ∧ q.code = 3 ∨ q.next.code = q.code + 1 := by cases q <;> decide

/-- **A member stays with the one before it, or has another midpoint.** -/
theorem Quadrant.moveOn_cases (q : Quadrant) (n i : Nat) (last : Option α) (mid : α) :
    q.moveOn n i last mid = q ∨ q < q.moveOn n i last mid ∧ last.any (· == mid) = false := by
  unfold moveOn
  split
  · rename_i h
    rw [Bool.and_eq_true, Bool.not_eq_true'] at h
    rcases q.next_cases with ⟨hsame, -⟩ | hnext
    · exact Or.inl hsame
    · have hlt : q.code < q.next.code := by omega
      exact Or.inr ⟨hlt, h.2⟩
  · exact Or.inl rfl

/-- Members that are not tied stand in the quartile of their quadrant. -/
theorem Quadrant.moveOn_quartile {q : Quadrant} {n i : Nat} {last : Option α} {mid : α}
    (hn : 4 ≤ n) (hi : i < n) (hq : q.code * n / 4 ≤ i ∧ i ≤ (q.code + 1) * n / 4)
    (hties : last.any (· == mid) = false) :
    (q.moveOn n i last mid).code * n / 4 ≤ i ∧ i < ((q.moveOn n i last mid).code + 1) * n / 4 := by
  by_cases hend : (q.code + 1) * n / 4 ≤ i
  · have hmove : q.moveOn n i last mid = q.next := if_pos (by simp [hend, hties])
    rw [hmove]
    rcases q.next_cases with ⟨-, hlast⟩ | hnext
    · rw [hlast] at hend
      omega
    · have hmul : (q.code + 1 + 1) * n = (q.code + 1) * n + n := Nat.succ_mul _ _
      rw [hnext]
      omega
  · have hstay : q.moveOn n i last mid = q := if_neg (by simp [hend])
    rw [hstay]
    omega

/-! ## All ranges -/

section

variable {n i : Nat} {q : Quadrant} {members : List (α × Nat)}

/-- **Without ties, each quadrant is dealt what stands in its quartile.** From position `i` on, that
is the part of the quartile that is not before `i`. -/
theorem countP_dealByMidpoint {last : Option α} (hn : 4 ≤ n) (hlen : i + members.length = n)
    (hq : q.code * n / 4 ≤ i ∧ i ≤ (q.code + 1) * n / 4)
    (hlast : ∀ e ∈ members, last.any (· == e.1) = false)
    (hties : (members.map (·.1)).Pairwise fun x y => (x == y) = false) (p : Quadrant) :
    (dealByMidpoint n i q last members).countP (fun d => d.1 = p) =
      (p.code + 1) * n / 4 - max i (p.code * n / 4) := by
  induction members generalizing i q last with
  | nil =>
    have hle : (p.code + 1) * n / 4 ≤ 4 * n / 4 :=
      Nat.div_le_div_right (Nat.mul_le_mul_right n p.code_lt)
    rw [dealByMidpoint, List.countP_nil]
    rw [List.length_nil] at hlen
    omega
  | cons member rest ih =>
    obtain ⟨m, number⟩ := member
    obtain ⟨hfirst, -⟩ := List.forall_mem_cons.1 hlast
    obtain ⟨hapart, htail⟩ := List.pairwise_cons.1 hties
    rw [List.length_cons] at hlen
    have hmove := Quadrant.moveOn_quartile hn (by omega) hq hfirst
    rw [dealByMidpoint_cons, List.countP_cons]
    generalize q.moveOn n i last m = q' at hmove
    have hrest : (dealByMidpoint n (i + 1) q' (some m) rest).countP (fun d => d.1 = p) =
        (p.code + 1) * n / 4 - max (i + 1) (p.code * n / 4) :=
      ih (by omega) (by omega) (fun e he => hapart e.1 (List.mem_map_of_mem he)) htail
    rw [hrest]
    rcases Nat.lt_trichotomy p.code q'.code with hlt | heq | hgt
    · -- the quartile is over
      have hover : (p.code + 1) * n / 4 ≤ q'.code * n / 4 :=
        Nat.div_le_div_right (Nat.mul_le_mul_right n hlt)
      have hne : q' ≠ p := fun h => by rw [h] at hlt; omega
      rw [if_neg (by simpa using hne)]
      omega
    · obtain rfl := Quadrant.code_injective heq
      rw [if_pos (by simp)]
      omega
    · -- the quartile is still to come
      have hcome : (q'.code + 1) * n / 4 ≤ p.code * n / 4 :=
        Nat.div_le_div_right (Nat.mul_le_mul_right n hgt)
      have hne : q' ≠ p := fun h => by rw [h] at hgt; omega
      rw [if_neg (by simpa using hne)]
      omega

/-- What is dealt has the number of a member. -/
theorem exists_mem_of_mem_deal {last : Option α} {d : Quadrant × Nat}
    (hd : d ∈ dealByMidpoint n i q last members) : ∃ e ∈ members, e.2 = d.2 := by
  have hnumber := List.mem_map_of_mem (f := (·.2)) hd
  rw [map_snd_dealByMidpoint] at hnumber
  exact List.mem_map.1 hnumber

variable [LawfulScalar α] {mid : Nat → α}

/-- **After a member with midpoint `m`**, members go to the same quadrant, or have midpoints above
`m`. -/
theorem eq_or_lt_of_mem_deal {m : α} (hmid : ∀ e ∈ members, e.1 = mid e.2)
    (hrising : (m :: members.map (·.1)).Pairwise (· ≤ ·)) {d : Quadrant × Nat}
    (hd : d ∈ dealByMidpoint n i q (some m) members) : d.1 = q ∨ q < d.1 ∧ m < mid d.2 := by
  induction members generalizing i q m with
  | nil => exact absurd hd List.not_mem_nil
  | cons member rest ih =>
    obtain ⟨m', number⟩ := member
    obtain ⟨hmid', hrest⟩ := List.forall_mem_cons.1 hmid
    obtain ⟨hle, htail⟩ := List.pairwise_cons.1 hrising
    have hmm' : m ≤ m' := hle m' List.mem_cons_self
    -- where the quadrant changes, the midpoint does
    have hstep : q.moveOn n i (some m) m' = q ∨ q < q.moveOn n i (some m) m' ∧ m < m' := by
      refine (q.moveOn_cases n i (some m) m').imp_right fun hmove => ⟨hmove.1, ?_⟩
      refine LawfulScalar.lt_iff.2 ⟨hmm', fun hback => ?_⟩
      have htied : (m == m') = true := LawfulScalar.beq_iff.2 ⟨hmm', hback⟩
      exact Bool.false_ne_true (hmove.2.symm.trans htied)
    rw [dealByMidpoint_cons, List.mem_cons] at hd
    rcases hd with rfl | hd
    · change m' = mid number at hmid'
      rw [← hmid']
      exact hstep
    · have hlater : m' ≤ mid d.2 := by
        obtain ⟨e, he, hnumber⟩ := exists_mem_of_mem_deal hd
        rw [← hnumber, ← hrest e he]
        exact (List.pairwise_cons.1 htail).1 e.1 (List.mem_map_of_mem he)
      rcases ih hrest htail hd with hsame | ⟨hlt, habove⟩
      · rw [hsame]
        exact hstep.imp_right fun hmove => ⟨hmove.1, Scalar.lt_of_lt_of_le hmove.2 hlater⟩
      · refine Or.inr ⟨?_, Scalar.lt_of_le_of_lt hmm' habove⟩
        rcases hstep with hstay | ⟨hmove, -⟩
        · rwa [hstay] at hlt
        · exact Nat.lt_trans hmove hlt

/-- **Members that are dealt one after the other** go to the same quadrant, or the later one goes to
a later quadrant and has a midpoint above. -/
theorem dealByMidpoint_pairwise {last : Option α} (hmid : ∀ e ∈ members, e.1 = mid e.2)
    (hrising : (members.map (·.1)).Pairwise (· ≤ ·)) :
    (dealByMidpoint n i q last members).Pairwise fun d e =>
      d.1 = e.1 ∨ d.1 < e.1 ∧ mid d.2 < mid e.2 := by
  induction members generalizing i q last with
  | nil => exact List.Pairwise.nil
  | cons member rest ih =>
    obtain ⟨m, number⟩ := member
    obtain ⟨hmid', hrest⟩ := List.forall_mem_cons.1 hmid
    rw [dealByMidpoint_cons, List.pairwise_cons]
    refine ⟨fun e he => ?_, ih hrest (List.pairwise_cons.1 hrising).2⟩
    change m = mid number at hmid'
    rw [← hmid']
    exact (eq_or_lt_of_mem_deal hrest hrising he).imp_left Eq.symm

end

/-! ## The groups -/

/-- The midpoint of the range with a number from one on. -/
def midpointAt (ranges : List (Interval α)) (number : Nat) : α :=
  (ranges[number - 1]?.map Interval.midpoint).getD 0

/-- The midpoints of the ranges in their order, each with the number of its range. -/
def orderedMidpoints (ranges : List (Interval α)) : List (α × Nat) :=
  (ranges.zipIdx.map fun r => (r.1.midpoint, r.2 + 1)).mergeSort fun a b =>
    (Scalar.totalOrder a.1 b.1).isLE

/-- The numbers of the ranges in the order of their midpoints, each with its quadrant. -/
def dealtRanges (ranges : List (Interval α)) : List (Quadrant × Nat) :=
  dealByMidpoint ranges.length 0 .northWest none (orderedMidpoints ranges)

theorem get_rangeGroups (ranges : List (Interval α)) (q : Quadrant) :
    (rangeGroups ranges).get q =
      (((dealtRanges ranges).filter fun d => d.1 = q).map (·.2)).mergeSort fun i j => i ≤ j := by
  rw [rangeGroups, Quadrants.get_ofFn]
  rfl

theorem mem_get_rangeGroups {ranges : List (Interval α)} {q : Quadrant} {k : Nat} :
    k ∈ (rangeGroups ranges).get q ↔ (q, k) ∈ dealtRanges ranges := by
  rw [get_rangeGroups, List.mem_mergeSort, List.mem_map]
  simp only [List.mem_filter, decide_eq_true_eq]
  constructor
  · rintro ⟨⟨p, j⟩, ⟨hd, rfl⟩, rfl⟩
    exact hd
  · exact fun hd => ⟨(q, k), ⟨hd, rfl⟩, rfl⟩

/-- Each number is dealt once. -/
theorem map_snd_dealtRanges_perm (ranges : List (Interval α)) :
    ((dealtRanges ranges).map (·.2)).Perm (List.range' 1 ranges.length) := by
  have hnumbers : (ranges.zipIdx.map fun r => (r.1.midpoint, r.2 + 1)).map (·.2) =
      List.range' 1 ranges.length := by
    rw [List.map_map, ← List.zipIdx_map_snd 1 ranges, List.zipIdx_succ, List.map_map]
    rfl
  rw [dealtRanges, map_snd_dealByMidpoint, ← hnumbers]
  exact (List.mergeSort_perm _ _).map _

theorem members_rangeGroups_perm (ranges : List (Interval α)) :
    (rangeGroups ranges).members.Perm (List.range' 1 ranges.length) := by
  refine List.Perm.trans ?_ (map_snd_dealtRanges_perm ranges)
  refine List.Perm.trans ?_ ((Quadrant.flatMap_all_filter (·.1) (dealtRanges ranges)).map _)
  rw [Quadrants.members, List.map_flatMap]
  refine List.Perm.flatMap_left _ fun q _ => ?_
  rw [get_rangeGroups]
  exact List.mergeSort_perm _ _

theorem rangeGroups_ascending (ranges : List (Interval α)) (q : Quadrant) :
    ((rangeGroups ranges).get q).Pairwise (· < ·) := by
  have hnodup : (rangeGroups ranges).members.Nodup :=
    (members_rangeGroups_perm ranges).nodup_iff.2 List.nodup_range'
  have hsorted : ((rangeGroups ranges).get q).Pairwise (· ≤ ·) := by
    rw [get_rangeGroups]
    exact List.pairwise_mergeSort' (· ≤ ·) _
  exact Quadrants.get_ascending hnodup hsorted

theorem mem_orderedMidpoints {ranges : List (Interval α)} {e : α × Nat}
    (he : e ∈ orderedMidpoints ranges) :
    ∃ r ∈ ranges, ranges[e.2 - 1]? = some r ∧ e.1 = r.midpoint := by
  rw [orderedMidpoints, List.mem_mergeSort, List.mem_map] at he
  obtain ⟨⟨r, k⟩, hr, rfl⟩ := he
  have hget : ranges[k]? = some r := List.mk_mem_zipIdx_iff_getElem?.1 hr
  exact ⟨r, List.mem_of_getElem? hget, hget, rfl⟩

section

variable [LawfulScalar α] {ranges : List (Interval α)}

/-- Midpoints that are numbers rise in their order. -/
theorem orderedMidpoints_rising (hnum : ∀ r ∈ ranges, Scalar.isNaN r.midpoint = false) :
    ((orderedMidpoints ranges).map (·.1)).Pairwise (· ≤ ·) := by
  have htrans : ∀ a b c : α × Nat, (Scalar.totalOrder a.1 b.1).isLE = true →
      (Scalar.totalOrder b.1 c.1).isLE = true → (Scalar.totalOrder a.1 c.1).isLE = true :=
    fun _ _ _ => LawfulScalar.rank_trans
  have htotal : ∀ a b : α × Nat,
      ((Scalar.totalOrder a.1 b.1).isLE || (Scalar.totalOrder b.1 a.1).isLE) = true := by
    intro a b
    rw [Bool.or_eq_true]
    exact LawfulScalar.rank_total a.1 b.1
  have hsorted : (orderedMidpoints ranges).Pairwise
      fun a b => (Scalar.totalOrder a.1 b.1).isLE = true :=
    List.pairwise_mergeSort htrans htotal _
  have hnumber : ∀ e ∈ orderedMidpoints ranges, e.1 ≤ e.1 := by
    intro e he
    obtain ⟨r, hr, -, hmid⟩ := mem_orderedMidpoints he
    rw [hmid, ← Scalar.isNaN_eq_false_iff]
    exact hnum r hr
  rw [List.pairwise_map]
  exact hsorted.imp_of_mem fun ha hb hab =>
    LawfulScalar.le_of_rank (hnumber _ ha) (hnumber _ hb) hab

/-- **Two ranges are in the same group, or that with the lower midpoint is in an earlier one.** -/
theorem dealtRanges_apart (hnum : ∀ r ∈ ranges, Scalar.isNaN r.midpoint = false)
    {d e : Quadrant × Nat} (hd : d ∈ dealtRanges ranges) (he : e ∈ dealtRanges ranges) :
    d.1 = e.1 ∨ (d.1 < e.1 ∧ midpointAt ranges d.2 < midpointAt ranges e.2) ∨
      e.1 < d.1 ∧ midpointAt ranges e.2 < midpointAt ranges d.2 := by
  have hmid : ∀ e ∈ orderedMidpoints ranges, e.1 = midpointAt ranges e.2 := by
    intro e he
    obtain ⟨r, -, hget, hmid⟩ := mem_orderedMidpoints he
    rw [midpointAt, hget, hmid]
    rfl
  have hpairwise : (dealtRanges ranges).Pairwise fun d e => d.1 = e.1 ∨
      d.1 < e.1 ∧ midpointAt ranges d.2 < midpointAt ranges e.2 :=
    dealByMidpoint_pairwise hmid (orderedMidpoints_rising hnum)
  -- as a relation of the two that does not depend on which is dealt first
  let R : Quadrant × Nat → Quadrant × Nat → Prop := fun d e => d.1 = e.1 ∨
    (d.1 < e.1 ∧ midpointAt ranges d.2 < midpointAt ranges e.2) ∨
      e.1 < d.1 ∧ midpointAt ranges e.2 < midpointAt ranges d.2
  have hsymm : Std.Symm R := by
    constructor
    rintro d e (hsame | hlt | hgt)
    · exact Or.inl hsame.symm
    · exact Or.inr (Or.inr hlt)
    · exact Or.inr (Or.inl hgt)
  have hR : (dealtRanges ranges).Pairwise R := hpairwise.imp fun h => h.imp_right Or.inl
  have hrefl : ∀ x ∈ dealtRanges ranges, R x x := fun _ _ => Or.inl rfl
  exact hR.forall_of_forall hrefl hd he

end

/-- **The groups are those of ranges in the order of their midpoints.** -/
structure CutsByMidpoint (ranges : List (Interval α)) (groups : Quadrants (List Nat)) : Prop where
  ascending : ∀ q, (groups.get q).Pairwise (· < ·)
  partition : groups.members.Perm (List.range' 1 ranges.length)
  /-- Ranges of one midpoint share a group. -/
  tied : ∀ i j r s, ranges[i]? = some r → ranges[j]? = some s → (r.midpoint == s.midpoint) = true →
    ∃ q, i + 1 ∈ groups.get q ∧ j + 1 ∈ groups.get q
  /-- The midpoints in a group are below those in a later one. -/
  below : ∀ p q, p < q → ∀ r ∈ keysAt ranges (groups.get p), ∀ s ∈ keysAt ranges (groups.get q),
    r.midpoint < s.midpoint
  /-- Without ties, the groups are the quartiles. -/
  quartiles : 4 ≤ ranges.length →
    (ranges.Pairwise fun r s => (r.midpoint == s.midpoint) = false) →
    ∀ q : Quadrant, (groups.get q).length =
      (q.code + 1) * ranges.length / 4 - q.code * ranges.length / 4

section

variable [LawfulScalar α] {ranges : List (Interval α)}

/-- Without ties, each group is as long as its quartile. -/
theorem length_get_rangeGroups (hlen : 4 ≤ ranges.length)
    (hties : ranges.Pairwise fun r s => (r.midpoint == s.midpoint) = false) (q : Quadrant) :
    ((rangeGroups ranges).get q).length =
      (q.code + 1) * ranges.length / 4 - q.code * ranges.length / 4 := by
  have hlength : (orderedMidpoints ranges).length = ranges.length := by
    rw [orderedMidpoints, List.length_mergeSort, List.length_map, List.length_zipIdx]
  have hperm : ((orderedMidpoints ranges).map (·.1)).Perm (ranges.map Interval.midpoint) := by
    have hmids : (ranges.zipIdx.map fun r => (r.1.midpoint, r.2 + 1)).map (·.1) =
        ranges.map Interval.midpoint := by
      conv => rhs; rw [← List.zipIdx_map_fst 0 ranges, List.map_map]
      rw [List.map_map]
      rfl
    rw [← hmids]
    exact (List.mergeSort_perm _ _).map _
  have hsymm : Std.Symm fun x y : α => (x == y) = false := by
    constructor
    intro x y hxy
    rw [← Bool.not_eq_true, LawfulScalar.beq_iff] at hxy ⊢
    exact fun hyx => hxy hyx.symm
  have hapart : ((orderedMidpoints ranges).map (·.1)).Pairwise fun x y => (x == y) = false :=
    (hperm.pairwise_iff fun {x y} => hsymm.symm x y).2 (List.pairwise_map.2 hties)
  have hcount : (dealByMidpoint ranges.length 0 .northWest none (orderedMidpoints ranges)).countP
      (fun d => d.1 = q) = (q.code + 1) * ranges.length / 4 - max 0 (q.code * ranges.length / 4) :=
    countP_dealByMidpoint hlen (by rw [hlength, Nat.zero_add]) (by simp [Quadrant.code])
      (fun _ _ => rfl) hapart q
  rw [get_rangeGroups, List.length_mergeSort, List.length_map, ← List.countP_eq_length_filter,
    dealtRanges, hcount, Nat.zero_max]

/-- **Ranges are split by their midpoints**, unless a midpoint is the NaN: the groups hold each
number once, midpoints rise from group to group, and ranges of one midpoint are not parted. Four
ranges or more are cut into quartiles, if no two have the same midpoint. -/
theorem rangeKeys_cutsByMidpoint (columns asked column : Nat) (ranges : List (Interval α))
    (prior : Quadrants (Option (Interval α)))
    (hnum : ∀ r ∈ ranges, Scalar.isNaN r.midpoint = false) :
    CutsByMidpoint ranges ((rangeKeys columns).propose asked column ranges prior).groups := by
  change CutsByMidpoint ranges (rangeGroups ranges)
  have hmidpoint : ∀ {i r}, ranges[i]? = some r → midpointAt ranges (i + 1) = r.midpoint := by
    intro i r hr
    rw [midpointAt, Nat.add_sub_cancel, hr]
    rfl
  have hdealt : ∀ {i r}, ranges[i]? = some r → ∃ q, (q, i + 1) ∈ dealtRanges ranges := by
    intro i r hr
    obtain ⟨hi, -⟩ := List.getElem?_eq_some_iff.1 hr
    have hmem : i + 1 ∈ (dealtRanges ranges).map (·.2) := by
      rw [(map_snd_dealtRanges_perm ranges).mem_iff, List.mem_range'_1]
      omega
    obtain ⟨⟨q, k⟩, hd, rfl⟩ := List.mem_map.1 hmem
    exact ⟨q, hd⟩
  constructor
  case ascending => exact rangeGroups_ascending ranges
  case partition => exact members_rangeGroups_perm ranges
  case tied =>
    intro i j r s hr hs htied
    obtain ⟨p, hp⟩ := hdealt hr
    obtain ⟨q, hq⟩ := hdealt hs
    obtain ⟨hle, hge⟩ := LawfulScalar.beq_iff.1 htied
    have hapart := dealtRanges_apart hnum hp hq
    rw [hmidpoint hr, hmidpoint hs] at hapart
    have hpq : p = q := by
      rcases hapart with hsame | ⟨-, hlt⟩ | ⟨-, hlt⟩
      · exact hsame
      · exact absurd hge (LawfulScalar.lt_iff.1 hlt).2
      · exact absurd hle (LawfulScalar.lt_iff.1 hlt).2
    exact ⟨p, mem_get_rangeGroups.2 hp, mem_get_rangeGroups.2 (hpq ▸ hq)⟩
  case below =>
    intro p q hpq r hr s hs
    obtain ⟨i, hi, hri⟩ := exists_number_of_mem_keysAt hr
    obtain ⟨j, hj, hsj⟩ := exists_number_of_mem_keysAt hs
    have hapart := dealtRanges_apart hnum (mem_get_rangeGroups.1 hi) (mem_get_rangeGroups.1 hj)
    rw [hmidpoint hri, hmidpoint hsj] at hapart
    rcases hapart with hsame | ⟨-, hlt⟩ | ⟨hqp, -⟩
    · obtain rfl : p = q := hsame
      exact absurd hpq (Nat.lt_irrefl p.code)
    · exact hlt
    · exact absurd hpq (Nat.lt_asymm hqp)
  case quartiles => exact length_get_rangeGroups

end

/-- Five points, out of order. -/
def fivePoints : List (Interval Binary64) :=
  [⟨1 + 1, 1 + 1⟩, ⟨0, 0⟩, ⟨1, 1⟩, ⟨-1, -1⟩, ⟨-(1 + 1), -(1 + 1)⟩]

theorem rangeKeys_cutsByMidpoint_fivePoints :
    (∀ r ∈ fivePoints, Scalar.isNaN r.midpoint = false) ∧
    CutsByMidpoint fivePoints ((rangeKeys 1).propose 0 0 fivePoints noPrior).groups ∧
    ∀ q : Quadrant, (((rangeKeys 1).propose 0 0 fivePoints noPrior).groups.get q).length =
      (q.code + 1) * 5 / 4 - q.code * 5 / 4 := by
  have hnum : ∀ r ∈ fivePoints, Scalar.isNaN r.midpoint = false := by decide +kernel
  have hcuts := rangeKeys_cutsByMidpoint 1 0 0 fivePoints noPrior hnum
  exact ⟨hnum, hcuts, hcuts.quartiles (by decide) (by decide +kernel)⟩

end QuadIndex
